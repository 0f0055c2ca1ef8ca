import Mathlib.Data.List.Basic

/- Tables read by first match: a key selects entries, and the first one selected counts.
   An entry counts for no key when those before it select all that it does; the order of
   the entries does not count when no two of them select the same key
   (`find?_perm_iff`). -/
namespace Lib.First
variable {α κ : Type} {sel : κ → α → Bool} {l l' pre post : List α} {a : α} {k : κ}

/-- The entry is never the first that is selected. -/
def Dead (sel : κ → α → Bool) (pre : List α) (a : α) : Prop :=
  ∀ k, sel k a = true → ∃ b ∈ pre, sel k b = true

/-- Without an entry that is dead the table reads the same. -/
theorem Dead.find?_eq (h : Dead sel pre a) (k : κ) :
    (pre ++ a :: post).find? (sel k) = (pre ++ post).find? (sel k) := by
  rw [List.find?_append, List.find?_append]
  cases hpre : pre.find? (sel k) with
  | some b => rfl
  | none =>
    have ha : ¬sel k a = true := by
      intro ha
      obtain ⟨b, hb, hsel⟩ := h k ha
      exact List.find?_eq_none.mp hpre b hb hsel
    rw [List.find?_cons_of_neg ha]

/-- Where one entry at most is selected, any order finds it. -/
theorem find?_eq_of_perm (hp : l.Perm l')
    (huniq : ∀ a ∈ l, ∀ b ∈ l, sel k a = true → sel k b = true → a = b) :
    l'.find? (sel k) = l.find? (sel k) := by
  cases h : l.find? (sel k) with
  | none =>
    rw [List.find?_eq_none] at h ⊢
    exact fun a ha => h a (hp.mem_iff.mpr ha)
  | some a =>
    have ha := List.mem_of_find?_eq_some h
    have hsel := List.find?_some h
    cases h' : l'.find? (sel k) with
    | none => exact absurd hsel (List.find?_eq_none.mp h' a (hp.mem_iff.mp ha))
    | some b =>
      have hb := hp.mem_iff.mpr (List.mem_of_find?_eq_some h')
      rw [huniq b hb a ha (List.find?_some h') hsel]

/-- The order of a table does not matter exactly when no key selects two entries. -/
theorem find?_perm_iff : (∀ l', l.Perm l' → ∀ k, l'.find? (sel k) = l.find? (sel k)) ↔
    ∀ a ∈ l, ∀ b ∈ l, ∀ k, sel k a = true → sel k b = true → a = b := by
  constructor
  · intro h a ha b hb k hka hkb
    -- the order that starts with `a` finds `a`, the one that starts with `b` finds `b`
    have hfirst : ∀ c ∈ l, sel k c = true → l.find? (sel k) = some c := by
      intro c hc hkc
      obtain ⟨s, t, rfl⟩ := List.append_of_mem hc
      rw [← h (c :: (s ++ t)) List.perm_middle k, List.find?_cons_of_pos hkc]
    have heq := (hfirst a ha hka).symm.trans (hfirst b hb hkb)
    exact Option.some.inj heq
  · intro h l' hp k
    exact find?_eq_of_perm hp fun a ha b hb => h a ha b hb k

end Lib.First
