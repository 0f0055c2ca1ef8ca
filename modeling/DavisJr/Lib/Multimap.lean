import Mathlib.Data.List.Nodup

/- Multimaps as association lists: each key with its values in order. Taken apart value
   by value, a key comes with the first of its values and no key with the others
   (`iter`). An item without a key belongs to the key before it; a reader that passes
   over these items gets the first value of every key (`named_iter`). -/
namespace Lib.Multimap
variable {κ β : Type}

/-- The values of one key, taken apart. -/
def run (k : κ) : List β → List (Option κ × β)
  | [] => []
  | b :: bs => (some k, b) :: bs.map fun b => (none, b)

/-- The values of all keys, taken apart. -/
def iter (es : List (κ × List β)) : List (Option κ × β) := es.flatMap fun e => run e.1 e.2

variable [DecidableEq κ]

/-- One more value for `k`, after those it has. -/
def append (k : κ) (b : β) : List (κ × List β) → List (κ × List β)
  | [] => [(k, [b])]
  | (k', bs) :: es => if k' = k then (k', bs ++ [b]) :: es else (k', bs) :: append k b es

/-- The values of `k`. -/
def values (k : κ) : List (κ × List β) → List β
  | [] => []
  | (k', bs) :: es => if k' = k then bs else values k es

/-- The values that come with the key `k` itself. -/
def named (k : κ) (items : List (Option κ × β)) : List β :=
  items.filterMap fun i => if i.1 = some k then some i.2 else none

variable {k k' : κ} {b : β}

theorem values_append : ∀ es : List (κ × List β),
    values k' (append k b es) = if k = k' then values k' es ++ [b] else values k' es
  | [] => by simp [append, values]
  | (j, bs) :: es => by
    have ih := values_append es
    rw [append]
    by_cases hj : j = k
    · rw [if_pos hj, values, values]
      by_cases hk : k = k' <;> simp [hj, hk]
    · rw [if_neg hj, values, values, ih]
      by_cases hk : k = k'
      · subst hk
        simp [hj]
      · simp [hk]

theorem keys_append : ∀ es : List (κ × List β), (append k b es).map Prod.fst =
    if k ∈ es.map Prod.fst then es.map Prod.fst else es.map Prod.fst ++ [k]
  | [] => rfl
  | (j, bs) :: es => by
    have ih := keys_append es
    rw [append]
    by_cases hj : j = k
    · simp [hj]
    · rw [if_neg hj, List.map_cons, ih, List.map_cons]
      by_cases hk : k ∈ es.map Prod.fst
      · rw [if_pos hk, if_pos (List.mem_cons_of_mem j hk)]
      · rw [if_neg hk, if_neg (List.not_mem_cons_of_ne_of_not_mem (Ne.symm hj) hk)]
        rfl

/-- Keys stay distinct. -/
theorem nodup_append {es : List (κ × List β)} (h : (es.map Prod.fst).Nodup) :
    ((append k b es).map Prod.fst).Nodup := by
  rw [keys_append]
  split
  · exact h
  · next hk => exact List.nodup_append'.mpr ⟨h, List.nodup_singleton k, List.disjoint_singleton.mpr hk⟩

/-- Every key has a value still. -/
theorem ne_nil_append : ∀ {es : List (κ × List β)}, (∀ e ∈ es, e.2 ≠ []) → ∀ e ∈ append k b es, e.2 ≠ []
  | [], _, e, he => by
    rw [append, List.mem_singleton] at he
    simp [he]
  | (j, bs) :: es, h, e, he => by
    obtain ⟨hbs, hes⟩ := List.forall_mem_cons.mp h
    rw [append] at he
    split at he
    · rcases List.mem_cons.mp he with rfl | he
      · simp
      · exact hes e he
    · rcases List.mem_cons.mp he with rfl | he
      · exact hbs
      · exact ne_nil_append hes e he

theorem values_of_not_mem : ∀ {es : List (κ × List β)}, k ∉ es.map Prod.fst → values k es = []
  | [], _ => rfl
  | (j, bs) :: es, h => by
    rw [List.map_cons, List.mem_cons, not_or] at h
    rw [values, if_neg (Ne.symm h.1)]
    exact values_of_not_mem h.2

/-- Of one key's values only the first comes with a key. -/
theorem named_run (bs : List β) : named k (run k' bs) = if k' = k then bs.take 1 else [] := by
  cases bs with
  | nil => simp [run, named]
  | cons b bs => by_cases hk : k' = k <;> simp [run, named, hk, List.filterMap_map]

/-- The values that come with `k` itself: the first it has. -/
theorem named_iter : ∀ {es : List (κ × List β)}, (es.map Prod.fst).Nodup →
    named k (iter es) = (values k es).take 1
  | [], _ => rfl
  | (j, bs) :: es, h => by
    obtain ⟨hj, hes⟩ := List.nodup_cons.mp h
    have ih : named k (iter es) = (values k es).take 1 := named_iter hes
    have hcons : named k (iter ((j, bs) :: es)) = named k (run j bs) ++ named k (iter es) := by
      rw [iter, List.flatMap_cons, named, List.filterMap_append]
      rfl
    rw [hcons, named_run, ih, values]
    by_cases hk : j = k
    · subst hk
      rw [if_pos rfl, if_pos rfl, values_of_not_mem hj, List.take_nil, List.append_nil]
    · rw [if_neg hk, if_neg hk, List.nil_append]

end Lib.Multimap
