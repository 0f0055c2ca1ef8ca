import Mathlib.Tactic.ByContra

/- Results of code that may panic. An `Outcome ε α` is a value, an error that the
   caller can inspect, or a panic that nothing can catch. Reading a sequence by
   position (`index`) is the one primitive that panics, so "the run never panics"
   is "every position read is in range". The fold rules below reduce a statement
   about a whole loop to one about the state before each of its iterations. -/
namespace Lib

inductive Outcome (ε α : Type) where
  | ok (a : α)
  | err (e : ε)
  | panic
  deriving DecidableEq, Repr

namespace Outcome
variable {ε ε' α β σ : Type}

def bind : Outcome ε α → (α → Outcome ε β) → Outcome ε β
  | .ok a, f => f a
  | .err e, _ => .err e
  | .panic, _ => .panic

instance : Monad (Outcome ε) where
  pure := .ok
  bind := bind

@[simp] theorem pure_eq (a : α) : (pure a : Outcome ε α) = .ok a := rfl
@[simp] theorem ok_bind (a : α) (f : α → Outcome ε β) : (Outcome.ok a >>= f) = f a := rfl
@[simp] theorem err_bind (e : ε) (f : α → Outcome ε β) : (Outcome.err e >>= f) = .err e := rfl
@[simp] theorem panic_bind (f : α → Outcome ε β) : (Outcome.panic >>= f) = .panic := rfl

instance : LawfulMonad (Outcome ε) :=
  LawfulMonad.mk' _ (fun x => by cases x <;> rfl) (fun _ _ => rfl) (fun x _ _ => by cases x <;> rfl)

theorem bind_eq_ok {x : Outcome ε α} {f : α → Outcome ε β} {b : β} :
    (x >>= f) = .ok b ↔ ∃ a, x = .ok a ∧ f a = .ok b := by
  cases x <;> simp

theorem bind_eq_panic {x : Outcome ε α} {f : α → Outcome ε β} :
    (x >>= f) = .panic ↔ x = .panic ∨ ∃ a, x = .ok a ∧ f a = .panic := by
  cases x <;> simp

/-- `xs[i]`: panics when `i` is out of range. -/
def index (xs : List α) (i : Nat) : Outcome ε α :=
  match xs[i]? with
  | some a => .ok a
  | none => .panic

theorem index_eq_panic {xs : List α} {i : Nat} :
    (index xs i : Outcome ε α) = .panic ↔ xs.length ≤ i := by
  unfold index
  cases h : xs[i]? with
  | none => simpa using h
  | some a =>
    have := (List.getElem?_eq_some_iff.mp h).1
    simp only [reduceCtorEq, false_iff]; omega

/-! A cursor `i` into `xs` is best described by `xs.drop i`, what it has left. -/

theorem index_of_drop {xs ys : List α} {i : Nat} {a : α} (h : xs.drop i = a :: ys) :
    (index xs i : Outcome ε α) = .ok a := by
  unfold index
  have : (xs.drop i)[0]? = some a := by rw [h]; rfl
  rw [List.getElem?_drop, Nat.add_zero] at this
  rw [this]

theorem index_of_drop_nil {xs : List α} {i : Nat} (h : xs.drop i = []) :
    (index xs i : Outcome ε α) = .panic :=
  index_eq_panic.mpr (List.drop_eq_nil_iff.mp h)

theorem drop_succ_of_drop {xs ys : List α} {i : Nat} {a : α} (h : xs.drop i = a :: ys) :
    xs.drop (i + 1) = ys := by
  rw [← List.tail_drop, h]; rfl

theorem lt_length_of_drop {xs ys : List α} {i : Nat} {a : α} (h : xs.drop i = a :: ys) :
    i < xs.length := by
  by_contra hi
  rw [List.drop_eq_nil_of_le (by omega)] at h
  cases h

/-- A result that cannot be a panic. -/
def ofExcept : Except ε α → Outcome ε α
  | .ok a => .ok a
  | .error e => .err e

/-- `?` into a function with another error type. -/
def mapErr (f : ε → ε') : Outcome ε α → Outcome ε' α
  | .ok a => .ok a
  | .err e => .err (f e)
  | .panic => .panic

/-- `unwrap_or`: an error becomes the default, a panic stays one. -/
def unwrapOr : Outcome ε α → α → Outcome ε' α
  | .ok a, _ => .ok a
  | .err _, d => .ok d
  | .panic, _ => .panic

/-- An error becomes a result, a panic stays one. -/
def recover (f : ε → α) : Outcome ε α → Outcome ε' α
  | .ok a => .ok a
  | .err e => .ok (f e)
  | .panic => .panic

@[simp] theorem ofExcept_ok (a : α) : ofExcept (.ok a : Except ε α) = .ok a := rfl
@[simp] theorem ofExcept_error (e : ε) : ofExcept (.error e : Except ε α) = .err e := rfl
@[simp] theorem mapErr_ok (f : ε → ε') (a : α) : mapErr f (.ok a) = .ok a := rfl
@[simp] theorem mapErr_err (f : ε → ε') (e : ε) : mapErr f (.err e : Outcome ε α) = .err (f e) := rfl
@[simp] theorem unwrapOr_ok (a d : α) : (unwrapOr (.ok a : Outcome ε α) d : Outcome ε' α) = .ok a := rfl
@[simp] theorem unwrapOr_err (e : ε) (d : α) : (unwrapOr (.err e) d : Outcome ε' α) = .ok d := rfl

/-! Loops: `foldlM` over the items, in order. -/

/-- A loop panics exactly when some iteration does, from the state the earlier
    iterations reached. -/
theorem foldlM_eq_panic {f : σ → α → Outcome ε σ} : ∀ {xs : List α} {s : σ},
    xs.foldlM f s = .panic ↔
      ∃ done x rest st, xs = done ++ x :: rest ∧ done.foldlM f s = .ok st ∧ f st x = .panic
  | [], s => by simp
  | y :: xs, s => by
    rw [List.foldlM_cons, bind_eq_panic]
    constructor
    · rintro (h | ⟨s', hs', h⟩)
      · exact ⟨[], y, xs, s, rfl, rfl, h⟩
      · obtain ⟨done, x, rest, st, rfl, hd, hp⟩ := foldlM_eq_panic.mp h
        exact ⟨y :: done, x, rest, st, rfl, by rw [List.foldlM_cons, hs']; exact hd, hp⟩
    · intro ⟨done, x, rest, st, hxs, hd, hp⟩
      cases done with
      | nil =>
        obtain ⟨rfl, rfl⟩ := List.cons.inj hxs
        cases hd
        exact .inl hp
      | cons z done =>
        obtain ⟨rfl, rfl⟩ := List.cons.inj hxs
        rw [List.foldlM_cons, bind_eq_ok] at hd
        obtain ⟨s', hs', hd⟩ := hd
        exact .inr ⟨s', hs', foldlM_eq_panic.mpr ⟨done, x, rest, st, rfl, hd, hp⟩⟩

end Outcome
end Lib
