import Mathlib.Data.List.DropRight

/- Sequences cut at a separator. `List.splitOn` keeps the empty fields that
   repeated, leading and trailing separators make; `fields` drops them, and
   `trimEnd` drops the separators at the end. Trimming loses no non-empty field,
   and after it the last field is not empty. -/
namespace Lib.Fields

section Join
variable {α : Type} {sep a : α}

theorem mem_intercalate_of_mem : ∀ {fs : List (List α)} {f : List α}, f ∈ fs → a ∈ f → a ∈ [sep].intercalate fs
  | [g], f, hf, ha => by
    rw [List.intercalate_singleton]
    exact List.mem_singleton.mp hf ▸ ha
  | g :: g' :: fs, f, hf, ha => by
    rw [List.intercalate_cons_cons, List.mem_append]
    rcases List.mem_cons.mp hf with rfl | hf
    · exact .inl (List.mem_append_left _ ha)
    · exact .inr (mem_intercalate_of_mem hf ha)

/-- Nothing but the fields and the separator is in what they are joined to. -/
theorem mem_intercalate : ∀ {fs : List (List α)}, a ∈ [sep].intercalate fs → a = sep ∨ ∃ f ∈ fs, a ∈ f
  | [f], h => .inr ⟨f, List.mem_singleton_self f, by rwa [List.intercalate_singleton] at h⟩
  | f :: g :: fs, h => by
    rw [List.intercalate_cons_cons, List.append_assoc, List.mem_append, List.mem_append, List.mem_singleton] at h
    rcases h with h | h | h
    · exact .inr ⟨f, List.mem_cons_self, h⟩
    · exact .inl h
    · exact (mem_intercalate h).imp_right fun ⟨f', hf', ha⟩ => ⟨f', List.mem_cons_of_mem f hf', ha⟩

end Join

variable {α : Type} [BEq α] [LawfulBEq α] {sep : α}

/-- `xs` without the separators at its end. -/
def trimEnd (sep : α) (xs : List α) : List α := xs.rdropWhile (· == sep)

/-- The non-empty fields of `xs`, in order. -/
def fields (sep : α) (xs : List α) : List (List α) := (xs.splitOn sep).filter (fun f => !f.isEmpty)

theorem trimEnd_append_replicate (xs : List α) : ∀ k,
    trimEnd sep (xs ++ List.replicate k sep) = trimEnd sep xs
  | 0 => by simp
  | k+1 => by
    rw [List.replicate_succ', ← List.append_assoc, trimEnd, List.rdropWhile_concat_pos _ _ _ (by simp)]
    exact trimEnd_append_replicate xs k

/-- What `trimEnd` removes is a run of separators. -/
theorem eq_trimEnd_append (sep : α) (xs : List α) : ∃ k, xs = trimEnd sep xs ++ List.replicate k sep := by
  refine ⟨(xs.rtakeWhile (· == sep)).length, ?_⟩
  have hrep : xs.rtakeWhile (· == sep) = List.replicate (xs.rtakeWhile (· == sep)).length sep := by
    rw [List.eq_replicate_iff]
    exact ⟨rfl, fun y hy => by simpa using List.mem_rtakeWhile_imp hy⟩
  rw [← hrep]
  exact List.rdropWhile_append_rtakeWhile.symm

theorem trimEnd_of_getLast? {xs : List α} (h : xs.getLast? ≠ some sep) : trimEnd sep xs = xs := by
  rw [trimEnd, List.rdropWhile_eq_self_iff]
  intro hl he
  rw [List.getLast?_eq_some_getLast hl, ← beq_iff_eq.mp he] at h
  exact h rfl

theorem getLast?_trimEnd (xs : List α) : (trimEnd sep xs).getLast? ≠ some sep := by
  intro h
  have hne : trimEnd sep xs ≠ [] := by intro e; rw [e] at h; simp at h
  rw [List.getLast?_eq_some_getLast hne] at h
  exact List.rdropWhile_last_not _ _ hne (beq_iff_eq.mpr (Option.some.inj h))

theorem trimEnd_eq_nil {xs : List α} : trimEnd sep xs = [] ↔ ∀ x ∈ xs, x = sep := by
  rw [trimEnd, List.rdropWhile_eq_nil_iff]; simp

theorem splitOn_sep_cons (xs : List α) : (sep :: xs).splitOn sep = [] :: xs.splitOn sep := by
  rw [List.splitOn_cons_eq_if_modifyHead, if_pos (by simp)]

theorem fields_append_sep (xs ys : List α) : fields sep (xs ++ sep :: ys) = fields sep xs ++ fields sep ys := by
  simp only [fields, List.splitOn_append_cons_self, List.filter_append]

theorem fields_append_replicate (xs : List α) : ∀ k, fields sep (xs ++ List.replicate k sep) = fields sep xs
  | 0 => by simp
  | k+1 => by
    rw [List.replicate_succ', ← List.append_assoc, fields_append_sep, fields_append_replicate xs k]
    simp [fields, List.splitOn_nil]

theorem fields_trimEnd (xs : List α) : fields sep (trimEnd sep xs) = fields sep xs := by
  obtain ⟨k, hk⟩ := eq_trimEnd_append sep xs
  conv_rhs => rw [hk]
  exact (fields_append_replicate _ k).symm

theorem not_mem_of_mem_splitOn : ∀ {xs f : List α}, f ∈ xs.splitOn sep → sep ∉ f
  | [], f, h => by simp [List.splitOn_nil] at h; simp [h]
  | x :: xs, f, h => by
    rw [List.splitOn_cons_eq_if_modifyHead] at h
    split at h
    · rcases List.mem_cons.mp h with rfl | h
      · simp
      · exact not_mem_of_mem_splitOn h
    · next hx =>
      cases hs : xs.splitOn sep with
      | nil => exact absurd hs (List.splitOn_ne_nil _ _)
      | cons g gs =>
        have ih : ∀ f' ∈ g :: gs, sep ∉ f' := fun _ hf' => not_mem_of_mem_splitOn (hs ▸ hf')
        rw [hs, List.modifyHead_cons] at h
        rcases List.mem_cons.mp h with rfl | h
        · simp only [List.mem_cons, not_or]
          exact ⟨fun e => hx (by simp [e]), ih g (by simp)⟩
        · exact ih f (by simp [h])

/-- Fields are made of the items of the sequence. -/
theorem mem_of_mem_splitOn {a : α} {xs f : List α} (h : f ∈ xs.splitOn sep) (ha : a ∈ f) : a ∈ xs := by
  have hmem : a ∈ [sep].intercalate (xs.splitOn sep) := mem_intercalate_of_mem h ha
  rwa [List.intercalate_splitOn] at hmem

/-- An empty last field is there only after a separator. -/
theorem getLast?_of_splitOn_getLast? : ∀ {xs : List α}, (xs.splitOn sep).getLast? = some [] →
    xs = [] ∨ xs.getLast? = some sep
  | [], _ => .inl rfl
  | x :: xs, h => by
    refine .inr ?_
    have hne := List.splitOn_ne_nil sep xs
    rw [List.splitOn_cons_eq_if_modifyHead] at h
    split at h
    · next hx =>
      rw [List.getLast?_cons_of_ne_nil hne] at h
      rcases getLast?_of_splitOn_getLast? h with rfl | hl
      · simpa using hx
      · rw [List.getLast?_cons, hl]; rfl
    · cases hs : xs.splitOn sep with
      | nil => exact absurd hs hne
      | cons g gs =>
        rw [hs, List.modifyHead_cons] at h
        cases gs with
        | nil => simp at h
        | cons g' gs' =>
          have hl : (xs.splitOn sep).getLast? = some [] := by
            rw [hs, List.getLast?_cons_cons]; rwa [List.getLast?_cons_cons] at h
          rcases getLast?_of_splitOn_getLast? hl with rfl | hl
          · simp [List.splitOn_nil] at hs
          · rw [List.getLast?_cons, hl]; rfl

/-- After trimming, the last field is not empty. -/
theorem getLast?_splitOn_trimEnd {xs : List α} (h : trimEnd sep xs ≠ []) :
    ((trimEnd sep xs).splitOn sep).getLast? ≠ some [] := by
  intro hl
  rcases getLast?_of_splitOn_getLast? hl with h' | h'
  · exact h h'
  · exact getLast?_trimEnd xs h'

theorem fields_eq_nil {xs : List α} : fields sep xs = [] ↔ trimEnd sep xs = [] := by
  rw [← fields_trimEnd]
  constructor
  · intro h
    by_contra hne
    have hl := getLast?_splitOn_trimEnd hne
    rw [List.getLast?_eq_some_getLast (List.splitOn_ne_nil _ _)] at hl
    have hmem := List.getLast_mem (List.splitOn_ne_nil sep (trimEnd sep xs))
    rw [fields, List.filter_eq_nil_iff] at h
    have := h _ hmem
    simp only [Bool.not_eq_true', Bool.not_eq_false, List.isEmpty_iff] at this
    exact hl (by rw [this])
  · intro h; rw [h]; simp [fields, List.splitOn_nil]

end Lib.Fields
