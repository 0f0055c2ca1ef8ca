import DavisJr.Lib.Pool

/- What holds of every task of a run because it holds of its program alone. An invariant that
   every program keeps by itself is one of the shared state at every moment (`Kept`), and what
   a task has written and returned is what its program can through states with that
   invariant (`Follows`); one induction proves both (`follows_runs`). -/
namespace Lib

/-! Invariants of the shared state. -/

section Kept
variable {σ κ α : Type} {I : σ → Prop}

/-- From states with the invariant, the task writes only such. -/
def Task.Keeps (I : σ → Prop) : Task σ κ α → Prop
  | .running p => p.Keeps I
  | .holding todo next => (∀ s, .set s ∈ todo → I s) ∧ next.Keeps I
  | _ => True

theorem Task.Keeps.step {t t' : Task σ κ α} {s s' : σ} {ks : List κ} (h : t.Keeps I) (hs : I s)
    (hstep : t.step s = some (t', s', ks)) : t'.Keeps I ∧ I s' := by
  match t, hstep with
  | .running (.ret a), rfl => exact ⟨trivial, hs⟩
  | .running .panic, rfl => exact ⟨trivial, hs⟩
  | .running (.emit k next), rfl => exact ⟨h, hs⟩
  | .running (.lock body next), rfl => exact ⟨h s hs, hs⟩
  | .holding [] next, rfl => exact ⟨h.2, hs⟩
  | .holding (.set s :: todo) next, rfl =>
    exact ⟨⟨fun s' hs' => h.1 s' (List.mem_cons_of_mem _ hs'), h.2⟩, h.1 s List.mem_cons_self⟩
  | .holding (.emit k :: todo) next, rfl =>
    exact ⟨⟨fun s' hs' => h.1 s' (List.mem_cons_of_mem _ hs'), h.2⟩, hs⟩

/-- The state has the invariant, in the middle of a section too, and every task keeps it. -/
structure Pool.Kept (I : σ → Prop) (P : Pool σ κ α) : Prop where
  shared : I P.shared
  tasks : ∀ t ∈ P.tasks, t.Keeps I

namespace Pool
variable {P P' : Pool σ κ α}

theorem Kept.put {i : Nat} {t : Task σ κ α} {s : σ} {ks : List κ} (h : P.Kept I) (ht : t.Keeps I) (hs : I s) :
    (P.put i t s ks).Kept I := by
  refine ⟨hs, fun t' ht' => ?_⟩
  rcases List.mem_or_eq_of_mem_set ht' with ht' | rfl
  · exact h.tasks t' ht'
  · exact ht

theorem Kept.act {a : Act σ κ α} (h : P.Kept I) (hspawn : ∀ p ∈ a.spawned, p.Keeps I)
    (hact : P.act a = some P') : P'.Kept I := by
  cases a with
  | spawn p =>
    cases hact
    refine ⟨h.shared, fun t ht => ?_⟩
    rcases List.mem_append.mp ht with ht | ht
    · exact h.tasks t ht
    · rw [List.mem_singleton.mp ht]
      exact hspawn p (List.mem_singleton_self p)
  | run i =>
    obtain ⟨t, t', s, ks, ht, -, hstep, rfl⟩ := act_run_eq hact
    obtain ⟨hkeeps, hs⟩ := (h.tasks t (List.mem_of_getElem? ht)).step h.shared hstep
    exact h.put hkeeps hs
  | drop i =>
    obtain ⟨t, -, -, rfl⟩ := act_drop_eq hact
    exact h.put trivial h.shared
  | note k =>
    cases hact
    exact ⟨h.shared, h.tasks⟩

end Pool
end Kept

/-! What each task writes and returns. -/

section Traces
variable {σ κ α : Type} {I : σ → Prop}

/-- What the task can still write, and return, if it finds states with `I`. -/
def Task.Traces (I : σ → Prop) : Task σ κ α → List κ → Outcome Empty α → Prop
  | .running p, ks, r => p.Traces I ks r
  | .holding todo next, ks, r => ∃ ks', next.Traces I ks' r ∧ ks = Micro.lines todo ++ ks'
  | .done a, ks, r => ks = [] ∧ r = .ok a
  | .crashed, ks, r => ks = [] ∧ r = .panic
  | .dropped, _, _ => False

theorem Task.Traces.step {t t' : Task σ κ α} {s s' : σ} {ks ks' : List κ} {r : Outcome Empty α}
    (hs : I s) (hstep : t.step s = some (t', s', ks)) (h : t'.Traces I ks' r) : t.Traces I (ks ++ ks') r := by
  match t, hstep with
  | .running (.ret a), rfl =>
    obtain ⟨rfl, rfl⟩ := h
    exact .ret
  | .running .panic, rfl =>
    obtain ⟨rfl, rfl⟩ := h
    exact .panic
  | .running (.emit k next), rfl => exact .emit h
  | .running (.lock body next), rfl =>
    obtain ⟨ks', h, rfl⟩ := h
    exact .lock hs h
  | .holding [] next, rfl => exact ⟨ks', h, rfl⟩
  | .holding (.set s :: todo) next, rfl => exact h
  | .holding (.emit k :: todo) next, rfl =>
    obtain ⟨ks', h, rfl⟩ := h
    exact ⟨ks', h, rfl⟩

namespace Pool
variable {P : Pool σ κ α}

/-- The tasks of a pool and the programs they were spawned with: what a task can still
    write and return completes what it wrote to a trace of its program. -/
structure Follows (I : σ → Prop) (orig : List (Prog σ κ α)) (P : Pool σ κ α) : Prop where
  length : orig.length = P.tasks.length
  fresh : ∀ i, P.tasks.length ≤ i → P.linesOf i = []
  traces : ∀ (i : Nat) (p : Prog σ κ α) (t : Task σ κ α), orig[i]? = some p → P.tasks[i]? = some t →
    ∀ ks r, t.Traces I ks r → p.Traces I (P.linesOf i ++ ks) r

variable {P P' : Pool σ κ α} {orig : List (Prog σ κ α)}

theorem Follows.put {i : Nat} {t t' : Task σ κ α} {s : σ} {ks : List κ} (h : P.Follows I orig)
    (ht : P.tasks[i]? = some t) (htraces : ∀ ks' r, t'.Traces I ks' r → t.Traces I (ks ++ ks') r) :
    (P.put i t' s ks).Follows I orig := by
  have hlen : (P.put i t' s ks).tasks.length = P.tasks.length := List.length_set
  have hi := (List.getElem?_eq_some_iff.mp ht).1
  refine ⟨h.length.trans hlen.symm, fun j hj => ?_, fun j p u hp hu ks' r hr => ?_⟩
  · rw [hlen] at hj
    rw [linesOf_put_ne (by omega)]
    exact h.fresh j hj
  · by_cases hij : i = j
    · subst hij
      rw [getElem?_put_self ht, Option.some.injEq] at hu
      subst hu
      rw [linesOf_put_self, List.append_assoc]
      exact h.traces i p t hp ht _ r (htraces ks' r hr)
    · rw [getElem?_put_ne hij] at hu
      rw [linesOf_put_ne hij]
      exact h.traces j p u hp hu ks' r hr

theorem Follows.spawn (h : P.Follows I orig) (p : Prog σ κ α) :
    (⟨P.shared, P.tasks ++ [.running p], P.log⟩ : Pool σ κ α).Follows I (orig ++ [p]) := by
  refine ⟨by simp [h.length], fun j hj => ?_, fun j q u hq hu ks r hr => ?_⟩
  · rw [List.length_append] at hj
    exact h.fresh j (by omega)
  · by_cases hj : j < P.tasks.length
    · rw [List.getElem?_append_left (h.length ▸ hj)] at hq
      rw [List.getElem?_append_left hj] at hu
      exact h.traces j q u hq hu ks r hr
    · -- the new task, which has not written anything
      have hlines : P.linesOf j = [] := h.fresh j (by omega)
      have hlast : j = P.tasks.length := by
        have := (List.getElem?_eq_some_iff.mp hu).1
        rw [List.length_append, List.length_singleton] at this
        omega
      subst hlast
      rw [← h.length, List.getElem?_concat_length, Option.some.injEq] at hq
      rw [List.getElem?_concat_length, Option.some.injEq] at hu
      subst hq hu
      show p.Traces I (P.linesOf P.tasks.length ++ ks) r
      rw [hlines]
      exact hr

theorem Follows.act {a : Act σ κ α} (h : P.Follows I orig) (hI : I P.shared) (hact : P.act a = some P') :
    P'.Follows I (orig ++ a.spawned) := by
  cases a with
  | spawn p =>
    cases hact
    exact h.spawn p
  | run i =>
    obtain ⟨t, t', s, ks, ht, -, hstep, rfl⟩ := act_run_eq hact
    show Follows I (orig ++ []) _
    rw [List.append_nil]
    exact h.put ht fun ks' r => Task.Traces.step hI hstep
  | drop i =>
    obtain ⟨t, ht, -, rfl⟩ := act_drop_eq hact
    show Follows I (orig ++ []) _
    rw [List.append_nil]
    exact h.put ht fun ks' r hr => hr.elim
  | note k =>
    cases hact
    show Follows I (orig ++ []) _
    rw [List.append_nil]
    have hlines : ∀ i, linesOf ⟨P.shared, P.tasks, P.log ++ [(none, k)]⟩ i = P.linesOf i :=
      fun i => linesOf_append _ (by simp)
    refine ⟨h.length, fun i hi => (hlines i).trans (h.fresh i hi), fun i p t hp ht ks r hr => ?_⟩
    rw [hlines]
    exact h.traces i p t hp ht ks r hr

theorem follows_start (s : σ) : (start s : Pool σ κ α).Follows I [] :=
  ⟨rfl, fun _ _ => rfl, fun i p t hp => by simp at hp⟩

/-- **A task writes and returns what it could by itself.** In every run of programs that keep
    an invariant of the state, what a task wrote and what it can still write and return is a
    trace of the program it was spawned with, through states with the invariant. -/
theorem follows_runs {s : σ} (hs : I s) : ∀ {acts : List (Act σ κ α)} {P : Pool σ κ α},
    (start s).runs acts = some P → (∀ p ∈ acts.flatMap Act.spawned, p.Keeps I) →
      P.Kept I ∧ P.Follows I (acts.flatMap Act.spawned) := by
  apply runs_induction
  · exact fun _ => ⟨⟨hs, by simp [start]⟩, follows_start s⟩
  · intro acts a P P' ih hact hspawn
    rw [List.flatMap_append, List.forall_mem_append] at hspawn
    obtain ⟨hkept, hfollows⟩ := ih hspawn.1
    refine ⟨hkept.act (by simpa using hspawn.2) hact, ?_⟩
    rw [List.flatMap_append, List.flatMap_singleton]
    exact hfollows.act hkept.shared hact

/-- A task that has come to its end has a trace behind it. -/
theorem Follows.outcome {i : Nat} {p : Prog σ κ α} {t : Task σ κ α} {r : Outcome Empty α} (h : P.Follows I orig)
    (hp : orig[i]? = some p) (ht : P.tasks[i]? = some t) (hr : t.outcome? = some r) :
    p.Traces I (P.linesOf i) r := by
  have htraces : t.Traces I [] r := by
    cases t with
    | done a => cases hr; exact ⟨rfl, rfl⟩
    | crashed => cases hr; exact ⟨rfl, rfl⟩
    | _ => cases hr
  have := h.traces i p t hp ht [] r htraces
  rwa [List.append_nil] at this

end Pool
end Traces

end Lib
