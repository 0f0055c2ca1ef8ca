import Mathlib.Data.List.Forall2
import Mathlib.Data.List.TakeWhile

/- Patterns with one gap. A pattern is a list `pre` of tests before the gap and a list
   `post` after it; a text fits when it splits into parts that pass the tests of
   `pre` and of `post`, with at least one item left for the gap (`Splits`). Whether
   it does can be read off its first and last items (`splits_iff`). A walk that
   leaves the gap at the first item equal to the next literal, and never comes back
   to it, sees the text cut at a first occurrence; those cuts are described here too. -/
namespace Lib.Glob
variable {α β : Type} {R : α → β → Prop}

/-- Test and item agree at every position that both lists have. -/
def AgreeOn (R : α → β → Prop) (ps : List α) (xs : List β) : Prop :=
  ∀ pr ∈ ps.zip xs, R pr.1 pr.2

instance [∀ a b, Decidable (R a b)] (ps : List α) (xs : List β) : Decidable (AgreeOn R ps xs) :=
  inferInstanceAs (Decidable (∀ pr ∈ ps.zip xs, R pr.1 pr.2))

/-- `xs` is a text for `pre`, then one or more items, then a text for `post`. -/
def Splits (R : α → β → Prop) (pre post : List α) (xs : List β) : Prop :=
  ∃ a mid b, xs = a ++ mid ++ b ∧ mid ≠ [] ∧ List.Forall₂ R pre a ∧ List.Forall₂ R post b

@[simp] theorem agreeOn_nil_left (xs : List β) : AgreeOn R [] xs := by simp [AgreeOn]
@[simp] theorem agreeOn_nil_right (ps : List α) : AgreeOn R ps [] := by simp [AgreeOn]

@[simp] theorem agreeOn_cons {p : α} {ps : List α} {x : β} {xs : List β} :
    AgreeOn R (p :: ps) (x :: xs) ↔ R p x ∧ AgreeOn R ps xs := by
  simp [AgreeOn]

theorem forall₂_iff_agreeOn {ps : List α} {xs : List β} :
    List.Forall₂ R ps xs ↔ ps.length = xs.length ∧ AgreeOn R ps xs := by
  rw [List.forall₂_iff_zip]
  exact and_congr_right fun _ => ⟨fun h pr hpr => h hpr, fun h {a b} hab => h (a, b) hab⟩

/-- Agreement, position by position. -/
theorem agreeOn_iff_getElem? {ps : List α} {xs : List β} : AgreeOn R ps xs ↔
    ∀ (i : Nat) (p : α) (x : β), ps[i]? = some p → xs[i]? = some x → R p x := by
  constructor
  · intro h i p x hp hx
    exact h (p, x) (List.mem_of_getElem? (List.getElem?_zip_eq_some.mpr ⟨hp, hx⟩))
  · intro h pr hpr
    obtain ⟨i, hi⟩ := List.mem_iff_getElem?.mp hpr
    obtain ⟨hp, hx⟩ := List.getElem?_zip_eq_some.mp hi
    exact h i pr.1 pr.2 hp hx

/-- Agreement of mapped lists. -/
theorem agreeOn_map {γ δ : Type} {S : γ → δ → Prop} {f : γ → α} {g : δ → β} {ps : List γ} {xs : List δ}
    (h : ∀ p ∈ ps, ∀ x, R (f p) (g x) ↔ S p x) : AgreeOn R (ps.map f) (xs.map g) ↔ AgreeOn S ps xs := by
  unfold AgreeOn
  rw [List.zip_map, List.forall_mem_map]
  apply forall₂_congr
  intro pr hpr
  exact h pr.1 (List.of_mem_zip hpr).1 pr.2

/-- Only the items that face the pattern matter. -/
theorem agreeOn_append_right {ps : List α} {a b : List β} (h : ps.length = a.length) :
    AgreeOn R ps (a ++ b) ↔ AgreeOn R ps a := by
  have hzip : ps.zip (a ++ b) = ps.zip a := by
    calc ps.zip (a ++ b) = (ps ++ []).zip (a ++ b) := by rw [List.append_nil]
      _ = ps.zip a ++ [].zip b := List.zip_append h
      _ = ps.zip a := by simp
  unfold AgreeOn
  rw [hzip]

theorem splits_iff {pre post : List α} {xs : List β} :
    Splits R pre post xs ↔ AgreeOn R pre xs ∧
      pre.length + 1 + post.length ≤ xs.length ∧
      List.Forall₂ R post (xs.drop (xs.length - post.length)) := by
  constructor
  · rintro ⟨a, mid, b, rfl, hmid, ha, hb⟩
    have hla := ha.length_eq
    have hlb := hb.length_eq
    have hlm := List.length_pos_iff.mpr hmid
    refine ⟨?_, ?_, ?_⟩
    · rw [List.append_assoc, agreeOn_append_right hla]
      exact (forall₂_iff_agreeOn.mp ha).2
    · simp only [List.length_append]; omega
    · rw [List.drop_append_of_le_length (by simp only [List.length_append]; omega),
        List.drop_eq_nil_of_le (by simp only [List.length_append]; omega)]
      exact hb
  · intro ⟨hpre, hlen, hpost⟩
    refine ⟨xs.take pre.length, (xs.drop pre.length).take (xs.length - post.length - pre.length),
      xs.drop (xs.length - post.length), ?_, ?_, ?_, hpost⟩
    · have hdrop : xs.drop (xs.length - post.length) =
          (xs.drop pre.length).drop (xs.length - post.length - pre.length) := by
        rw [List.drop_drop]; congr 1; omega
      rw [hdrop, List.append_assoc, List.take_append_drop, List.take_append_drop]
    · intro h
      have := congrArg List.length h
      simp only [List.length_take, List.length_drop, List.length_nil] at this
      omega
    · have hl : pre.length = (xs.take pre.length).length := by rw [List.length_take]; omega
      rw [forall₂_iff_agreeOn]
      refine ⟨hl, ?_⟩
      rw [← agreeOn_append_right (b := xs.drop pre.length) hl, List.take_append_drop]
      exact hpre

/-! The first occurrence of an item. -/

section First
variable [DecidableEq β] {l : β}

/-- The items before the first `l`. -/
def before (l : β) (xs : List β) : List β := xs.takeWhile (· ≠ l)

/-- The items after the first `l`. -/
def after (l : β) (xs : List β) : List β := (xs.dropWhile (· ≠ l)).tail

theorem length_after_le (l : β) (xs : List β) : (after l xs).length ≤ xs.length := by
  have := List.length_dropWhile_le (· ≠ l) xs
  rw [after, List.length_tail]
  omega

theorem not_mem_before (l : β) (xs : List β) : l ∉ before l xs :=
  fun hl => by simpa using List.mem_takeWhile_imp hl

/-- A list is cut at the first `l` it holds. -/
theorem eq_before_append_after {xs : List β} (h : l ∈ xs) : xs = before l xs ++ l :: after l xs := by
  have hne : xs.dropWhile (· ≠ l) ≠ [] := fun he => by simpa using List.dropWhile_eq_nil_iff.mp he l h
  obtain ⟨y, ys, hd⟩ := List.exists_cons_of_ne_nil hne
  have hy : y = l := by
    have := List.head?_dropWhile_not (· ≠ l) xs
    rw [hd] at this
    simpa using this
  have hcons : xs.dropWhile (· ≠ l) = l :: after l xs := by rw [after, hd, hy, List.tail_cons]
  conv_lhs => rw [← List.takeWhile_append_dropWhile (p := (· ≠ l)) (l := xs), hcons]
  rfl

variable {mid rest : List β}

theorem ne_of_not_mem (h : l ∉ mid) : ∀ x ∈ mid, decide (x ≠ l) = true := by
  intro x hx
  rw [decide_eq_true_eq]
  rintro rfl
  exact h hx

theorem before_eq_self (h : l ∉ mid) : before l mid = mid := by
  rw [before, List.takeWhile_eq_self_iff]
  exact ne_of_not_mem h

@[simp] theorem before_cons_self (l : β) (xs : List β) : before l (l :: xs) = [] := by simp [before]

theorem before_cons_of_ne {x : β} {xs : List β} (h : x ≠ l) : before l (x :: xs) = x :: before l xs := by
  rw [before, List.takeWhile_cons_of_pos (by simpa using h)]
  rfl

theorem before_append (h : l ∉ mid) : before l (mid ++ l :: rest) = mid := by
  rw [before, List.takeWhile_append_of_pos (ne_of_not_mem h), List.takeWhile_cons_of_neg (by simp), List.append_nil]

theorem after_append (h : l ∉ mid) : after l (mid ++ l :: rest) = rest := by
  rw [after, List.dropWhile_append_of_pos (ne_of_not_mem h), List.dropWhile_cons_of_neg (by simp), List.tail_cons]

end First
end Lib.Glob
