import Std.Data.ExtTreeMap
import Mathlib.Data.List.Nodup

/- Ordered maps filled from lists of bindings, in order, so that a later binding of a
   key replaces an earlier one. -/
namespace Lib.Table
open Std
variable {κ β : Type} [Ord κ] [TransOrd κ] [LawfulEqOrd κ] {t : ExtTreeMap κ β compare}

theorem getElem?_insert_ne {k k' : κ} {b : β} (h : k ≠ k') : (t.insert k b)[k']? = t[k']? := by
  rw [ExtTreeMap.getElem?_insert, if_neg (by simpa using h)]

theorem mem_insert_iff {k k' : κ} {b : β} : k' ∈ t.insert k b ↔ k = k' ∨ k' ∈ t := by
  rw [ExtTreeMap.mem_insert, Std.compare_eq_iff_eq]

theorem insert_insert (k : κ) (b b' : β) : (t.insert k b).insert k b' = t.insert k b' := by
  apply ExtTreeMap.ext_getElem?
  intro k'
  simp only [ExtTreeMap.getElem?_insert]
  split <;> rfl

variable [DecidableEq κ]

/-- Bindings that agree with one function, whatever their order. -/
theorem getElem?_insertMany_map (f : κ → β) (k : κ) : ∀ (ks : List κ) (t : ExtTreeMap κ β compare),
    (t.insertMany (ks.map fun i => (i, f i)))[k]? = if k ∈ ks then some (f k) else t[k]?
  | [], t => by simp
  | i :: ks, t => by
    rw [List.map_cons, ExtTreeMap.insertMany_cons, getElem?_insertMany_map f k ks]
    by_cases hk : k ∈ ks
    · rw [if_pos hk, if_pos (List.mem_cons_of_mem i hk)]
    · rw [if_neg hk]
      by_cases hi : i = k
      · subst hi; simp
      · rw [getElem?_insert_ne hi, if_neg (by simp [hk, Ne.symm hi])]

/-- Bindings with distinct keys are all found. -/
theorem getElem?_insertMany_of_mem {l : List (κ × β)} {k : κ} {b : β} (hd : (l.map Prod.fst).Nodup)
    (h : (k, b) ∈ l) : (t.insertMany l)[k]? = some b := by
  apply ExtTreeMap.getElem?_insertMany_list_of_mem (by simp) _ h
  have := List.pairwise_map.mp hd
  exact this.imp fun {x y} hxy he => hxy (by simpa using he)

end Lib.Table
