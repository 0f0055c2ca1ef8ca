import DavisJr.Lib.Prog
import Mathlib.Data.List.Induction

/- Tasks that run interleaved, one visible step at a time and in any order. A task waits
   for the lock while another holds it, so one at most has it (`Pool.Exclusive`); a task can
   be dropped at any time, and gives the lock back with the state as it then is. What a task
   does on its own is `Task.step`, and a run of the pool is a list of acts, along which facts
   are carried by `runs_induction`. -/
namespace Lib

section Steps
variable {σ τ : Type} {f : τ → σ → Option τ}

/-- The last of a run of steps that may fail. -/
theorem foldlM_concat_eq {l : List σ} {a : σ} {t₀ t : τ} (h : (l ++ [a]).foldlM f t₀ = some t) :
    ∃ t', l.foldlM f t₀ = some t' ∧ f t' a = some t := by
  rw [List.foldlM_append] at h
  obtain ⟨t', ht', h⟩ := Option.bind_eq_some_iff.mp h
  rw [List.foldlM_cons] at h
  obtain ⟨t'', ht'', hret⟩ := Option.bind_eq_some_iff.mp h
  cases hret
  exact ⟨t', ht', ht''⟩

/-- What holds before a run of steps that may fail, and is preserved by each of them, holds
    after the run. -/
theorem foldlM_induction {I : List σ → τ → Prop} {t₀ : τ} (h₀ : I [] t₀)
    (hstep : ∀ l a t t', I l t → f t a = some t' → I (l ++ [a]) t') :
    ∀ {l : List σ} {t : τ}, l.foldlM f t₀ = some t → I l t := by
  intro l
  induction l using List.reverseRecOn with
  | nil =>
    intro t h
    cases h
    exact h₀
  | append_singleton l a ih =>
    intro t h
    obtain ⟨t', ht', hlast⟩ := foldlM_concat_eq h
    exact hstep l a t' t (ih ht') hlast

end Steps

inductive Task (σ κ α : Type) where
  | running (p : Prog σ κ α)
  | holding (todo : List (Micro σ κ)) (next : Prog σ κ α)
  | done (a : α)
  | crashed
  | dropped

namespace Task
variable {σ κ α : Type}

def holds : Task σ κ α → Bool
  | .holding _ _ => true
  | _ => false

/-- The next step waits for the lock. -/
def waits : Task σ κ α → Bool
  | .running (.lock _ _) => true
  | _ => false

def alive : Task σ κ α → Bool
  | .running _ => true
  | .holding _ _ => true
  | _ => false

/-- The task has come to a result or a panic. -/
def ended : Task σ κ α → Bool
  | .done _ => true
  | .crashed => true
  | _ => false

/-- What the task has come to. -/
def outcome? : Task σ κ α → Option (Outcome Empty α)
  | .done a => some (.ok a)
  | .crashed => some .panic
  | _ => none

theorem ended_of_outcome? {t : Task σ κ α} {r : Outcome Empty α} (h : t.outcome? = some r) : t.ended = true := by
  cases t with
  | done a => rfl
  | crashed => rfl
  | _ => cases h

/-- One step, once the lock is to be had: the task after it, the state, the lines written. -/
def step : Task σ κ α → σ → Option (Task σ κ α × σ × List κ)
  | .running (.ret a), s => some (.done a, s, [])
  | .running .panic, s => some (.crashed, s, [])
  | .running (.emit k next), s => some (.running next, s, [k])
  | .running (.lock body next), s => some (.holding (body s) (next s), s, [])
  | .holding [] next, s => some (.running next, s, [])
  | .holding (.set s :: todo) next, _ => some (.holding todo next, s, [])
  | .holding (.emit k :: todo) next, s => some (.holding todo next, s, [k])
  | .done _, _ => none
  | .crashed, _ => none
  | .dropped, _ => none

/-- What the task comes to when nothing else runs any more. -/
def run : Task σ κ α → σ → Run σ κ α
  | .running p, s => p.run s
  | .holding todo next, s => (next.run (Micro.state todo s)).after (Micro.lines todo)
  | .done a, s => ⟨.ok a, s, []⟩
  | .crashed, s => ⟨.panic, s, []⟩
  | .dropped, s => ⟨.panic, s, []⟩

/-- Steps of the task alone, and the lines it writes. -/
inductive Steps : Task σ κ α → σ → Task σ κ α → σ → List κ → Prop
  | refl {t s} : Steps t s t s []
  | snoc {t s t' s' ks t'' s'' ks'} : Steps t s t' s' ks → t'.step s' = some (t'', s'', ks') →
      Steps t s t'' s'' (ks ++ ks')

variable {t t' : Task σ κ α} {s s' : σ} {ks : List κ}

theorem run_of_outcome? {r : Outcome Empty α} (h : t.outcome? = some r) (s : σ) : t.run s = ⟨r, s, []⟩ := by
  cases t with
  | done a => cases h; rfl
  | crashed => cases h; rfl
  | _ => cases h

/-- A step leaves what the task comes to. -/
theorem run_step (h : t.step s = some (t', s', ks)) : t.run s = (t'.run s').after ks := by
  match t, h with
  | .running (.ret a), rfl => rfl
  | .running .panic, rfl => rfl
  | .running (.emit k next), rfl => rfl
  | .running (.lock body next), rfl => rfl
  | .holding [] next, rfl => rfl
  | .holding (.set s :: todo) next, rfl => rfl
  | .holding (.emit k :: todo) next, rfl =>
    show (next.run (Micro.state todo s)).after (k :: Micro.lines todo) = _
    rw [run, Run.after_after]
    rfl

theorem Steps.run_eq (h : Steps t s t' s' ks) : t.run s = (t'.run s').after ks := by
  induction h with
  | refl => exact (Run.after_nil _).symm
  | snoc _ hstep ih => rw [ih, run_step hstep, Run.after_after]

end Task

/-- The shared state, the tasks by their number, and the log with the number of the task
    that wrote each line (none where no task did). -/
structure Pool (σ κ α : Type) where
  shared : σ
  tasks : List (Task σ κ α)
  log : List (Option Nat × κ)

inductive Act (σ κ α : Type) where
  | spawn (p : Prog σ κ α)
  | run (i : Nat)
  | drop (i : Nat)
  | note (k : κ)

/-- The program that an act starts. -/
def Act.spawned {σ κ α : Type} : Act σ κ α → List (Prog σ κ α)
  | .spawn p => [p]
  | _ => []

/-- The line that an act writes by itself. -/
def Act.noted {σ κ α : Type} : Act σ κ α → List κ
  | .note k => [k]
  | _ => []

namespace Pool
variable {σ κ α : Type}

def start (s : σ) : Pool σ κ α := ⟨s, [], []⟩

/-- No task holds the lock. -/
def free (P : Pool σ κ α) : Bool := P.tasks.all fun t => !t.holds

/-- The pool with another task at a place, another state and more lines of that task. -/
def put (P : Pool σ κ α) (i : Nat) (t : Task σ κ α) (s : σ) (ks : List κ) : Pool σ κ α :=
  ⟨s, P.tasks.set i t, P.log ++ ks.map fun k => (some i, k)⟩

/-- `none` where the act is not possible. -/
def act (P : Pool σ κ α) : Act σ κ α → Option (Pool σ κ α)
  | .spawn p => some { P with tasks := P.tasks ++ [.running p] }
  | .run i => do
    let t ← P.tasks[i]?
    if t.waits && !P.free then none
    else
      let (t', s, ks) ← t.step P.shared
      some (P.put i t' s ks)
  | .drop i => do
    let t ← P.tasks[i]?
    if t.alive then some (P.put i .dropped P.shared []) else none
  | .note k => some { P with log := P.log ++ [(none, k)] }

def runs (P : Pool σ κ α) (acts : List (Act σ κ α)) : Option (Pool σ κ α) := acts.foldlM act P

/-- The lines that a task has written, in order. -/
def linesOf (P : Pool σ κ α) (i : Nat) : List κ := (P.log.filter (·.1 = some i)).map (·.2)

/-- The lines that no task has written. -/
def notes (P : Pool σ κ α) : List κ := (P.log.filter (·.1 = none)).map (·.2)

variable {P P' : Pool σ κ α} {i j : Nat} {t : Task σ κ α} {s : σ} {ks : List κ}

/-! What an act does. -/

theorem act_run_eq (h : P.act (.run i) = some P') : ∃ t t' s ks, P.tasks[i]? = some t ∧
    (t.waits = true → P.free = true) ∧ t.step P.shared = some (t', s, ks) ∧ P' = P.put i t' s ks := by
  simp only [act, Option.bind_eq_bind, Option.bind_eq_some_iff] at h
  obtain ⟨t, ht, h⟩ := h
  split at h
  · cases h
  · next hw =>
    obtain ⟨⟨t', s, ks⟩, hstep, hput⟩ := Option.bind_eq_some_iff.mp h
    exact ⟨t, t', s, ks, ht, by simpa using hw, hstep, (Option.some.inj hput).symm⟩

theorem act_drop_eq (h : P.act (.drop i) = some P') :
    ∃ t, P.tasks[i]? = some t ∧ t.alive = true ∧ P' = P.put i .dropped P.shared [] := by
  simp only [act, Option.bind_eq_bind, Option.bind_eq_some_iff] at h
  obtain ⟨t, ht, h⟩ := h
  split at h
  · next ha => exact ⟨t, ht, ha, (Option.some.inj h).symm⟩
  · cases h

theorem getElem?_put_self (h : P.tasks[i]? = some t) (t' : Task σ κ α) : (P.put i t' s ks).tasks[i]? = some t' := by
  rw [put, List.getElem?_set_self (List.getElem?_eq_some_iff.mp h).1]

theorem getElem?_put_ne (h : i ≠ j) : (P.put i t s ks).tasks[j]? = P.tasks[j]? := List.getElem?_set_ne h

theorem linesOf_append {tasks : List (Task σ κ α)} (log : List (Option Nat × κ)) (h : ∀ e ∈ log, e.1 ≠ some j) :
    linesOf ⟨s, tasks, P.log ++ log⟩ j = P.linesOf j := by
  have hnil : log.filter (·.1 = some j) = [] := List.filter_eq_nil_iff.mpr (by simpa using h)
  rw [linesOf, linesOf, List.filter_append, hnil, List.append_nil]

theorem linesOf_put_ne (h : i ≠ j) : (P.put i t s ks).linesOf j = P.linesOf j := by
  refine linesOf_append _ fun e he => ?_
  obtain ⟨k, -, rfl⟩ := List.mem_map.mp he
  exact fun he => h (Option.some.inj he)

theorem linesOf_put_self : (P.put i t s ks).linesOf i = P.linesOf i ++ ks := by
  have hall : (ks.map fun k => (some i, k)).filter (·.1 = some i) = ks.map fun k => (some i, k) := by
    apply List.filter_eq_self.mpr
    intro e he
    obtain ⟨k, -, rfl⟩ := List.mem_map.mp he
    simp
  rw [linesOf, linesOf, put, List.filter_append, hall, List.map_append, List.map_map]
  congr 1
  exact List.map_id ks

theorem free_iff : P.free = true ↔ ∀ (i : Nat) (t : Task σ κ α), P.tasks[i]? = some t → t.holds = false := by
  simp only [free, List.all_eq_true, Bool.not_eq_true', List.mem_iff_getElem?]
  exact ⟨fun h i t ht => h t ⟨i, ht⟩, fun h t ⟨i, ht⟩ => h i t ht⟩

/-! Exclusion: one task at most has the lock. -/

def Exclusive (P : Pool σ κ α) : Prop := ∀ (i j : Nat) (t t' : Task σ κ α), P.tasks[i]? = some t →
  P.tasks[j]? = some t' → t.holds = true → t'.holds = true → i = j

theorem Exclusive.put {t' : Task σ κ α} (h : P.Exclusive) (ht : P.tasks[i]? = some t)
    (hothers : t'.holds = true → ∀ j u, j ≠ i → P.tasks[j]? = some u → u.holds = false) :
    (P.put i t' s ks).Exclusive := by
  intro j k u v hu hv hju hkv
  by_cases hj : j = i
  · by_cases hk : k = i
    · rw [hj, hk]
    · subst hj
      rw [getElem?_put_self ht, Option.some.injEq] at hu
      rw [getElem?_put_ne (Ne.symm hk)] at hv
      rw [hothers (hu ▸ hju) k v hk hv] at hkv
      cases hkv
  · rw [getElem?_put_ne (Ne.symm hj)] at hu
    by_cases hk : k = i
    · subst hk
      rw [getElem?_put_self ht, Option.some.injEq] at hv
      rw [hothers (hv ▸ hkv) j u hj hu] at hju
      cases hju
    · rw [getElem?_put_ne (Ne.symm hk)] at hv
      exact h j k u v hu hv hju hkv

theorem Exclusive.spawn (h : P.Exclusive) (p : Prog σ κ α) :
    (⟨P.shared, P.tasks ++ [.running p], P.log⟩ : Pool σ κ α).Exclusive := by
  have hheld : ∀ (j : Nat) (u : Task σ κ α), (P.tasks ++ [.running p])[j]? = some u → u.holds = true →
      P.tasks[j]? = some u := by
    intro j u hu hholds
    rw [List.getElem?_append] at hu
    split at hu
    · exact hu
    · rw [List.mem_singleton.mp (List.mem_of_getElem? hu)] at hholds
      cases hholds
  intro j k u v hu hv hju hkv
  exact h j k u v (hheld j u hu hju) (hheld k v hv hkv) hju hkv

theorem exclusive_start (s : σ) : (start s : Pool σ κ α).Exclusive := fun i j t t' hi => by simp [start] at hi

/-! Runs. -/

theorem runs_append (P : Pool σ κ α) (acts acts' : List (Act σ κ α)) :
    P.runs (acts ++ acts') = P.runs acts >>= fun P' => P'.runs acts' := List.foldlM_append

/-- What holds before a run and is preserved by each act holds after the run. -/
theorem runs_induction {I : List (Act σ κ α) → Pool σ κ α → Prop} {P₀ : Pool σ κ α} (h₀ : I [] P₀)
    (hact : ∀ acts a P P', I acts P → P.act a = some P' → I (acts ++ [a]) P') :
    ∀ {acts : List (Act σ κ α)} {P : Pool σ κ α}, P₀.runs acts = some P → I acts P :=
  foldlM_induction h₀ hact

theorem notes_put : (P.put i t s ks).notes = P.notes := by
  have hnil : (ks.map fun k => (some i, k)).filter (·.1 = none) = [] := by
    apply List.filter_eq_nil_iff.mpr
    intro e he
    obtain ⟨k, -, rfl⟩ := List.mem_map.mp he
    simp
  rw [notes, notes, put, List.filter_append, hnil, List.append_nil]

theorem notes_act {a : Act σ κ α} (h : P.act a = some P') : P'.notes = P.notes ++ a.noted := by
  cases a with
  | spawn p =>
    cases h
    exact (List.append_nil _).symm
  | run i =>
    obtain ⟨t, t', s, ks, -, -, -, rfl⟩ := act_run_eq h
    exact notes_put.trans (List.append_nil _).symm
  | drop i =>
    obtain ⟨t, -, -, rfl⟩ := act_drop_eq h
    exact notes_put.trans (List.append_nil _).symm
  | note k =>
    cases h
    rw [notes, List.filter_append, List.map_append]
    rfl

theorem notes_runs : ∀ {acts : List (Act σ κ α)} {P' : Pool σ κ α}, P.runs acts = some P' →
    P'.notes = P.notes ++ acts.flatMap Act.noted := by
  apply runs_induction
  · exact (List.append_nil _).symm
  · intro acts a P' P'' ih hact
    rw [notes_act hact, ih, List.flatMap_append, List.flatMap_singleton, List.append_assoc]

end Pool
end Lib
