import DavisJr.Lib.Pool

/- Runs of tasks that lock once at most are linearizable. The order is that in which the
   tasks give the lock back, or end if they never took it (`Entry`, `Chained`). At every
   moment of a run each task is in one of three places (`Placed`): it has not had the
   lock, it has it, or it is in the order, and then what it did is what it would have
   done alone from the state that the tasks before it left. The order only grows at its
   end (`Linearized.runs`), so a task that ends before another is spawned comes before it. -/
namespace Lib

/-- A task in the order, with the state that it found and the one that it left. -/
structure Entry (σ : Type) where
  task : Nat
  before : σ
  after : σ

section Chain
variable {σ : Type}

/-- Each task finds the state that the one before it left. -/
def Chained : σ → List (Entry σ) → σ → Prop
  | s, [], s' => s = s'
  | s, e :: es, s' => e.before = s ∧ Chained e.after es s'

theorem Chained.append {s' s'' : σ} {es' : List (Entry σ)} : ∀ {s : σ} {es : List (Entry σ)},
    Chained s es s' → Chained s' es' s'' → Chained s (es ++ es') s''
  | _, [], rfl, h' => h'
  | _, _ :: _, h, h' => ⟨h.1, Chained.append h.2 h'⟩

theorem chained_singleton (i : Nat) (s s' : σ) : Chained s [⟨i, s, s'⟩] s' := ⟨rfl, rfl⟩

end Chain

variable {σ κ α : Type}

/-- A task that will not lock any more. -/
def Task.Settled : Task σ κ α → Prop
  | .running p => p.Free
  | .holding _ _ => False
  | .done _ => True
  | .crashed => True
  | .dropped => False

/-- Where a task is that was spawned with `p`, has written `ks` and has the entries `mine` in
    the order: `s` is the state that the order leaves, `shared` the state as it now is. -/
inductive Placed (p : Prog σ κ α) (t : Task σ κ α) (ks : List κ) (s shared : σ) (mine : List (Entry σ)) : Prop
  /-- It has not had the lock, and would have come this far from every state. -/
  | early (q : Prog σ κ α) : mine = [] → (t = .running q ∨ t = .dropped) → q.Once →
      (∀ s, Task.Steps (.running p) s (.running q) s ks) → Placed p t ks s shared mine
  /-- It has the lock, and its section began at the state that the order leaves. -/
  | inside (todo : List (Micro σ κ)) (next : Prog σ κ α) : mine = [] → t = .holding todo next → next.Free →
      Task.Steps (.running p) s t shared ks → Placed p t ks s shared mine
  /-- It is in the order, where it was dropped if it was. -/
  | late (e : Entry σ) (t' : Task σ κ α) : mine = [e] → (t = t' ∧ t'.Settled ∨ t = .dropped) →
      Task.Steps (.running p) e.before t' e.after ks → Placed p t ks s shared mine

/-- A pool with the programs of its tasks and an order of tasks, which leaves the state `s`. -/
structure Linearized (s₀ : σ) (orig : List (Prog σ κ α)) (P : Pool σ κ α) (s : σ) (es : List (Entry σ)) : Prop where
  length : orig.length = P.tasks.length
  fresh : ∀ i, P.tasks.length ≤ i → P.linesOf i = []
  range : ∀ e ∈ es, e.task < P.tasks.length
  chained : Chained s₀ es s
  shared : P.free = true → P.shared = s
  exclusive : P.Exclusive
  placed : ∀ (i : Nat) (p : Prog σ κ α) (t : Task σ κ α), orig[i]? = some p → P.tasks[i]? = some t →
    Placed p t (P.linesOf i) s P.shared (es.filter (·.task = i))

namespace Linearized
variable {s₀ s s' shared shared' : σ} {orig : List (Prog σ κ α)} {P P' : Pool σ κ α} {es new mine : List (Entry σ)}
  {i : Nat} {p : Prog σ κ α} {t t' : Task σ κ α} {ks : List κ}

/-- What another task does leaves a task in its place, if it leaves the state alone where
    the task has the lock, and the order where it does not concern the task. -/
theorem placed_of_others (h : Placed p t ks s shared mine)
    (hsame : t.holds = true → s' = s ∧ shared' = shared) : Placed p t ks s' shared' mine := by
  cases h with
  | early q hmine ht honce hsteps => exact .early q hmine ht honce hsteps
  | inside todo next hmine ht hfree hsteps =>
    obtain ⟨rfl, rfl⟩ := hsame (by rw [ht]; rfl)
    exact .inside todo next hmine ht hfree hsteps
  | late e t' hmine ht hsteps => exact .late e t' hmine ht hsteps

/-- One task moves: what has to be shown is that it is in a place again, and that nobody
    else is put out of theirs. -/
theorem put (h : Linearized s₀ orig P s es) (hp : orig[i]? = some p) (ht : P.tasks[i]? = some t)
    (hnew : ∀ e ∈ new, e.task = i) (hchain : Chained s new s')
    (hothers : ∀ j u, j ≠ i → P.tasks[j]? = some u → u.holds = true →
      t'.holds = false ∧ s' = s ∧ shared = P.shared)
    (hshared : (P.put i t' shared ks).free = true → shared = s')
    (hplaced : Placed p t' (P.linesOf i ++ ks) s' shared (es.filter (·.task = i) ++ new)) :
    Linearized s₀ orig (P.put i t' shared ks) s' (es ++ new) := by
  have hi := (List.getElem?_eq_some_iff.mp ht).1
  have hlen : (P.put i t' shared ks).tasks.length = P.tasks.length := List.length_set
  refine ⟨h.length.trans hlen.symm, fun j hj => ?_, fun e he => ?_, h.chained.append hchain, hshared, ?_, ?_⟩
  · rw [hlen] at hj
    rw [Pool.linesOf_put_ne (by omega)]
    exact h.fresh j hj
  · rw [hlen]
    rcases List.mem_append.mp he with he | he
    · exact h.range e he
    · exact hnew e he ▸ hi
  · apply h.exclusive.put ht
    intro hholds j u hj hu
    by_contra hju
    have hfalse := (hothers j u hj hu (by simpa using hju)).1
    rw [hholds] at hfalse
    cases hfalse
  · intro j q u hq hu
    have hmine : ∀ e ∈ new, j = i ↔ e.task = j := fun e he => by rw [hnew e he, eq_comm]
    rw [List.filter_append]
    by_cases hj : j = i
    · have hall : new.filter (·.task = j) = new :=
        List.filter_eq_self.mpr fun e he => decide_eq_true ((hmine e he).mp hj)
      subst hj
      rw [Pool.getElem?_put_self ht, Option.some.injEq] at hu
      rw [hp, Option.some.injEq] at hq
      subst hu hq
      rw [Pool.linesOf_put_self, hall]
      exact hplaced
    · have hnil : new.filter (·.task = j) = [] :=
        List.filter_eq_nil_iff.mpr fun e he => by simpa using mt (hmine e he).mpr hj
      rw [Pool.getElem?_put_ne (Ne.symm hj)] at hu
      rw [Pool.linesOf_put_ne (Ne.symm hj), hnil, List.append_nil]
      exact placed_of_others (h.placed j q u hq hu) fun hholds => (hothers j u hj hu hholds).2

/-- The lock stays as it is when a task moves that neither had nor gets it. -/
theorem shared_put (h : Linearized s₀ orig P s es) (ht : P.tasks[i]? = some t) (hholds : t.holds = false)
    (hfree : (P.put i t' P.shared ks).free = true) : P.shared = s := by
  apply h.shared
  rw [Pool.free_iff] at hfree ⊢
  intro j u hu
  by_cases hj : i = j
  · subst hj
    rw [ht, Option.some.injEq] at hu
    exact hu ▸ hholds
  · exact hfree j u (by rwa [Pool.getElem?_put_ne hj])

/-- A move of a task that neither had the lock nor gets it, and writes no state. -/
theorem put_quiet (h : Linearized s₀ orig P s es) (hp : orig[i]? = some p) (ht : P.tasks[i]? = some t)
    (hholds : t.holds = false) (hholds' : t'.holds = false) (hnew : new = [] ∨ new = [⟨i, s, s⟩])
    (hplaced : Placed p t' (P.linesOf i ++ ks) s P.shared (es.filter (·.task = i) ++ new)) :
    Linearized s₀ orig (P.put i t' P.shared ks) s (es ++ new) := by
  have htask : ∀ e ∈ new, e.task = i := by
    rcases hnew with rfl | rfl <;> simp
  have hchain : Chained s new s := by
    rcases hnew with rfl | rfl
    · rfl
    · exact chained_singleton i s s
  exact h.put hp ht htask hchain (fun _ _ _ _ _ => ⟨hholds', rfl, rfl⟩) (h.shared_put ht hholds) hplaced

/-- A move of the task that has the lock. -/
theorem put_inside (h : Linearized s₀ orig P s es) (hp : orig[i]? = some p) (ht : P.tasks[i]? = some t)
    (hholds : t.holds = true) (hnew : ∀ e ∈ new, e.task = i) (hchain : Chained s new s')
    (hshared : (P.put i t' shared ks).free = true → shared = s')
    (hplaced : Placed p t' (P.linesOf i ++ ks) s' shared (es.filter (·.task = i) ++ new)) :
    Linearized s₀ orig (P.put i t' shared ks) s' (es ++ new) := by
  apply h.put hp ht hnew hchain _ hshared hplaced
  intro j u hj hu hju
  exact absurd (h.exclusive j i u t hu ht hju hholds) hj

theorem not_free_put (ht : P.tasks[i]? = some t) (hholds : t'.holds = true) :
    ¬(P.put i t' shared ks).free = true := by
  intro hfree
  have := Pool.free_iff.mp hfree i t' (Pool.getElem?_put_self ht t')
  rw [hholds] at this
  cases this

/-- A step of a task that has not had the lock. -/
theorem run_early {q : Prog σ κ α} (h : Linearized s₀ orig P s es) (hp : orig[i]? = some p)
    (ht : P.tasks[i]? = some (.running q)) (hmine : es.filter (·.task = i) = []) (honce : q.Once)
    (hsteps : ∀ s, Task.Steps (.running p) s (.running q) s (P.linesOf i))
    (hwaits : (Task.running q).waits = true → P.free = true)
    (hstep : (Task.running q).step P.shared = some (t', shared, ks)) :
    ∃ s' new, Linearized s₀ orig (P.put i t' shared ks) s' (es ++ new) := by
  match q, hstep with
  | .ret a, rfl =>
    refine ⟨s, [⟨i, s, s⟩], h.put_quiet hp ht rfl rfl (.inr rfl) ?_⟩
    exact .late ⟨i, s, s⟩ (.done a) (by rw [hmine]; rfl) (.inl ⟨rfl, trivial⟩) (.snoc (hsteps s) rfl)
  | .panic, rfl =>
    refine ⟨s, [⟨i, s, s⟩], h.put_quiet hp ht rfl rfl (.inr rfl) ?_⟩
    exact .late ⟨i, s, s⟩ .crashed (by rw [hmine]; rfl) (.inl ⟨rfl, trivial⟩) (.snoc (hsteps s) rfl)
  | .emit k next, rfl =>
    refine ⟨s, [], h.put_quiet hp ht rfl rfl (.inl rfl) ?_⟩
    exact .early next (by rw [hmine]; rfl) (.inl rfl) honce fun s => .snoc (hsteps s) rfl
  | .lock body next, rfl =>
    -- the lock is free, so the state is the one that the order leaves
    have hfree : P.free = true := hwaits rfl
    have hshared : P.shared = s := h.shared hfree
    refine ⟨s, [], h.put hp ht (by simp) rfl ?_ (fun _ => hshared) ?_⟩
    · intro j u _ hu hju
      rw [Pool.free_iff.mp hfree j u hu] at hju
      cases hju
    · apply Placed.inside (body P.shared) (next P.shared) (by rw [hmine]; rfl) rfl (honce P.shared)
      rw [← hshared]
      exact .snoc (hsteps P.shared) rfl

/-- A step of the task that has the lock. -/
theorem run_inside {todo : List (Micro σ κ)} {next : Prog σ κ α} (h : Linearized s₀ orig P s es)
    (hp : orig[i]? = some p) (ht : P.tasks[i]? = some (.holding todo next))
    (hmine : es.filter (·.task = i) = []) (hfree : next.Free)
    (hsteps : Task.Steps (.running p) s (.holding todo next) P.shared (P.linesOf i))
    (hstep : (Task.holding todo next).step P.shared = some (t', shared, ks)) :
    ∃ s' new, Linearized s₀ orig (P.put i t' shared ks) s' (es ++ new) := by
  have hsteps' := Task.Steps.snoc hsteps hstep
  match todo, hstep with
  | [], rfl =>
    -- it gives the lock back, and comes next in the order
    refine ⟨P.shared, [⟨i, s, P.shared⟩], ?_⟩
    apply h.put_inside hp ht rfl (by simp) (chained_singleton i s P.shared) fun _ => rfl
    exact .late ⟨i, s, P.shared⟩ (.running next) (by rw [hmine]; rfl) (.inl ⟨rfl, hfree⟩) hsteps'
  | .set s' :: todo, rfl =>
    refine ⟨s, [], h.put_inside hp ht rfl (by simp) rfl (fun h => absurd h (not_free_put ht rfl)) ?_⟩
    exact .inside todo next (by rw [hmine]; rfl) rfl hfree hsteps'
  | .emit k :: todo, rfl =>
    refine ⟨s, [], h.put_inside hp ht rfl (by simp) rfl (fun h => absurd h (not_free_put ht rfl)) ?_⟩
    exact .inside todo next (by rw [hmine]; rfl) rfl hfree hsteps'

/-- A step of a task that is in the order. -/
theorem run_late {e : Entry σ} (h : Linearized s₀ orig P s es) (hp : orig[i]? = some p)
    (ht : P.tasks[i]? = some t) (hmine : es.filter (·.task = i) = [e]) (hsettled : t.Settled)
    (hsteps : Task.Steps (.running p) e.before t e.after (P.linesOf i))
    (hstep : t.step P.shared = some (t', shared, ks)) :
    ∃ s' new, Linearized s₀ orig (P.put i t' shared ks) s' (es ++ new) := by
  have hmine : es.filter (·.task = i) ++ [] = [e] := by rw [hmine, List.append_nil]
  match t, hstep with
  | .running (.ret a), rfl =>
    refine ⟨s, [], h.put_quiet hp ht rfl rfl (.inl rfl) ?_⟩
    exact .late e (.done a) hmine (.inl ⟨rfl, trivial⟩) (.snoc hsteps rfl)
  | .running .panic, rfl =>
    refine ⟨s, [], h.put_quiet hp ht rfl rfl (.inl rfl) ?_⟩
    exact .late e .crashed hmine (.inl ⟨rfl, trivial⟩) (.snoc hsteps rfl)
  | .running (.emit k next), rfl =>
    refine ⟨s, [], h.put_quiet hp ht rfl rfl (.inl rfl) ?_⟩
    exact .late e (.running next) hmine (.inl ⟨rfl, hsettled⟩) (.snoc hsteps rfl)
  | .running (.lock body next), _ => exact hsettled.elim
  | .holding todo next, _ => exact hsettled.elim

theorem act_run (h : Linearized s₀ orig P s es) (hact : P.act (.run i) = some P') :
    ∃ s' new, Linearized s₀ orig P' s' (es ++ new) := by
  obtain ⟨t, t', shared, ks, ht, hwaits, hstep, rfl⟩ := Pool.act_run_eq hact
  have hi : i < orig.length := h.length ▸ (List.getElem?_eq_some_iff.mp ht).1
  have hp : orig[i]? = some orig[i] := List.getElem?_eq_getElem hi
  cases h.placed i _ t hp ht with
  | early q hmine hq honce hsteps =>
    rcases hq with rfl | rfl
    · exact h.run_early hp ht hmine honce hsteps hwaits hstep
    · cases hstep
  | inside todo next hmine hq hfree hsteps =>
    subst hq
    exact h.run_inside hp ht hmine hfree hsteps hstep
  | late e t₀ hmine hq hsteps =>
    rcases hq with ⟨rfl, hsettled⟩ | rfl
    · exact h.run_late hp ht hmine hsettled hsteps hstep
    · cases hstep

theorem act_drop (h : Linearized s₀ orig P s es) (hact : P.act (.drop i) = some P') :
    ∃ s' new, Linearized s₀ orig P' s' (es ++ new) := by
  obtain ⟨t, ht, halive, rfl⟩ := Pool.act_drop_eq hact
  have hi : i < orig.length := h.length ▸ (List.getElem?_eq_some_iff.mp ht).1
  have hp : orig[i]? = some orig[i] := List.getElem?_eq_getElem hi
  cases h.placed i _ t hp ht with
  | early q hmine hq honce hsteps =>
    refine ⟨s, [], h.put_quiet hp ht ?_ rfl (.inl rfl) ?_⟩
    · rcases hq with rfl | rfl <;> rfl
    · rw [List.append_nil, List.append_nil]
      exact .early q hmine (.inr rfl) honce hsteps
  | inside todo next hmine hq hfree hsteps =>
    -- the section ends where it is
    subst hq
    refine ⟨P.shared, [⟨i, s, P.shared⟩], ?_⟩
    apply h.put_inside hp ht rfl (by simp) (chained_singleton i s P.shared) fun _ => rfl
    rw [List.append_nil]
    exact .late ⟨i, s, P.shared⟩ (.holding todo next) (by rw [hmine]; rfl) (.inr rfl) hsteps
  | late e t₀ hmine hq hsteps =>
    refine ⟨s, [], h.put_quiet hp ht ?_ rfl (.inl rfl) ?_⟩
    · rcases hq with ⟨rfl, hsettled⟩ | rfl
      · cases t with
        | holding todo next => exact hsettled.elim
        | _ => rfl
      · rfl
    · rw [List.append_nil, List.append_nil]
      exact .late e t₀ hmine (.inr rfl) hsteps

theorem spawn (h : Linearized s₀ orig P s es) (honce : p.Once) :
    Linearized s₀ (orig ++ [p]) ⟨P.shared, P.tasks ++ [.running p], P.log⟩ s es := by
  have hlast : ∀ (j : Nat) (u : Task σ κ α), (P.tasks ++ [.running p])[j]? = some u →
      P.tasks[j]? = some u ∨ j = P.tasks.length ∧ u = .running p := by
    intro j u hu
    by_cases hj : j < P.tasks.length
    · rw [List.getElem?_append_left hj] at hu
      exact .inl hu
    · have := (List.getElem?_eq_some_iff.mp hu).1
      rw [List.length_append, List.length_singleton] at this
      have hj : j = P.tasks.length := by omega
      subst hj
      rw [List.getElem?_concat_length, Option.some.injEq] at hu
      exact .inr ⟨rfl, hu.symm⟩
  refine ⟨by simp [h.length], fun j hj => ?_, fun e he => ?_, h.chained, fun hfree => ?_,
    h.exclusive.spawn p, ?_⟩
  · rw [List.length_append] at hj
    exact h.fresh j (by omega)
  · have := h.range e he
    rw [List.length_append]
    omega
  · apply h.shared
    rw [Pool.free, List.all_append, Bool.and_eq_true] at hfree
    exact hfree.1
  · intro j q u hq hu
    rcases hlast j u hu with hu | ⟨rfl, rfl⟩
    · rw [List.getElem?_append_left (h.length ▸ (List.getElem?_eq_some_iff.mp hu).1)] at hq
      exact h.placed j q u hq hu
    · -- the new task has written nothing, and is not in the order
      rw [← h.length, List.getElem?_concat_length, Option.some.injEq] at hq
      subst hq
      have hlines : P.linesOf P.tasks.length = [] := h.fresh _ (Nat.le_refl _)
      have hmine : es.filter (·.task = P.tasks.length) = [] := by
        apply List.filter_eq_nil_iff.mpr
        intro e he
        simpa using Nat.ne_of_lt (h.range e he)
      apply Placed.early p hmine (.inl rfl) honce
      intro s
      show Task.Steps _ s _ s (P.linesOf P.tasks.length)
      rw [hlines]
      exact .refl

theorem note (h : Linearized s₀ orig P s es) (k : κ) :
    Linearized s₀ orig ⟨P.shared, P.tasks, P.log ++ [(none, k)]⟩ s es := by
  have hlines : ∀ i, Pool.linesOf ⟨P.shared, P.tasks, P.log ++ [(none, k)]⟩ i = P.linesOf i :=
    fun i => Pool.linesOf_append _ (by simp)
  refine ⟨h.length, fun i hi => (hlines i).trans (h.fresh i hi), h.range, h.chained, h.shared, h.exclusive, ?_⟩
  intro i p t hp ht
  rw [hlines]
  exact h.placed i p t hp ht

/-- One act: the order grows at its end. -/
theorem act {a : Act σ κ α} (h : Linearized s₀ orig P s es) (honce : ∀ p ∈ a.spawned, p.Once)
    (hact : P.act a = some P') : ∃ s' new, Linearized s₀ (orig ++ a.spawned) P' s' (es ++ new) := by
  cases a with
  | spawn p =>
    cases hact
    refine ⟨s, [], ?_⟩
    rw [List.append_nil]
    exact h.spawn (honce p (List.mem_singleton_self p))
  | run i =>
    show ∃ s' new, Linearized s₀ (orig ++ []) P' s' (es ++ new)
    rw [List.append_nil]
    exact h.act_run hact
  | drop i =>
    show ∃ s' new, Linearized s₀ (orig ++ []) P' s' (es ++ new)
    rw [List.append_nil]
    exact h.act_drop hact
  | note k =>
    cases hact
    refine ⟨s, [], ?_⟩
    show Linearized s₀ (orig ++ []) _ s (es ++ [])
    rw [List.append_nil, List.append_nil]
    exact h.note k

/-- **Tasks that lock once at most are linearizable.** From a pool with an order, every run
    leads to one with an order that goes on from it. -/
theorem runs (h : Linearized s₀ orig P s es) : ∀ {acts : List (Act σ κ α)} {P' : Pool σ κ α},
    P.runs acts = some P' → (∀ p ∈ acts.flatMap Act.spawned, p.Once) →
      ∃ s' new, Linearized s₀ (orig ++ acts.flatMap Act.spawned) P' s' (es ++ new) := by
  apply Pool.runs_induction
  · intro _
    refine ⟨s, [], ?_⟩
    rw [List.flatMap_nil, List.append_nil, List.append_nil]
    exact h
  · intro acts a P P' ih hact honce
    rw [List.flatMap_append, List.forall_mem_append] at honce
    obtain ⟨s', new, h'⟩ := ih honce.1
    obtain ⟨s'', new', h''⟩ := h'.act (by simpa using honce.2) hact
    refine ⟨s'', new ++ new', ?_⟩
    rw [List.flatMap_append, List.flatMap_singleton, ← List.append_assoc, ← List.append_assoc]
    exact h''

theorem start (s₀ : σ) : Linearized s₀ [] (Pool.start s₀ : Pool σ κ α) s₀ [] :=
  ⟨rfl, fun _ _ => rfl, by simp, rfl, fun _ => rfl, Pool.exclusive_start s₀,
    fun i p t hp => by simp at hp⟩

/-! What the order says about the tasks. -/

/-- A task that has ended is in the order, and its steps were its own from what it found. -/
theorem ended (h : Linearized s₀ orig P s es) (hp : orig[i]? = some p) (ht : P.tasks[i]? = some t)
    (he : t.ended = true) : ∃ e, es.filter (·.task = i) = [e] ∧
      Task.Steps (.running p) e.before t e.after (P.linesOf i) := by
  cases h.placed i p t hp ht with
  | early q hmine hq =>
    rcases hq with rfl | rfl <;> cases he
  | inside todo next hmine hq =>
    subst hq
    cases he
  | late e t' hmine hq hsteps =>
    rcases hq with ⟨rfl, -⟩ | rfl
    · exact ⟨e, hmine, hsteps⟩
    · cases he

/-- It did what it would have done alone in its place. -/
theorem outcome {r : Outcome Empty α} (h : Linearized s₀ orig P s es) (hp : orig[i]? = some p)
    (ht : P.tasks[i]? = some t) (hr : t.outcome? = some r) :
    ∃ e, es.filter (·.task = i) = [e] ∧ p.run e.before = ⟨r, e.after, P.linesOf i⟩ := by
  obtain ⟨e, hmine, hsteps⟩ := h.ended hp ht (Task.ended_of_outcome? hr)
  refine ⟨e, hmine, ?_⟩
  calc p.run e.before = (t.run e.after).after (P.linesOf i) := hsteps.run_eq
    _ = ⟨r, e.after, P.linesOf i ++ []⟩ := by rw [Task.run_of_outcome? hr]; rfl
    _ = ⟨r, e.after, P.linesOf i⟩ := by rw [List.append_nil]

/-- What any task has done is steps of its own, from the state that the order says it
    found, or from any if it is not there yet. -/
theorem steps (h : Linearized s₀ orig P s es) (hp : orig[i]? = some p) (ht : P.tasks[i]? = some t) :
    es.filter (·.task = i) = [] ∧ t.ended = false ∨ ∃ e t', es.filter (·.task = i) = [e] ∧
      (t = t' ∨ t = .dropped) ∧ Task.Steps (.running p) e.before t' e.after (P.linesOf i) := by
  cases h.placed i p t hp ht with
  | early q hmine hq =>
    refine .inl ⟨hmine, ?_⟩
    rcases hq with rfl | rfl <;> rfl
  | inside todo next hmine hq =>
    subst hq
    exact .inl ⟨hmine, rfl⟩
  | late e t' hmine hq hsteps => exact .inr ⟨e, t', hmine, hq.imp And.left id, hsteps⟩

end Linearized
end Lib
