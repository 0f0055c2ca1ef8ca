import DavisJr.Lib.Fields

/- The `str` functions of the Rust standard library that path handling uses, on
   Lean strings, and the separated texts they take apart. `segments s c` are the
   non-empty fields of `s`. For a text that starts with its separator, trimming
   and splitting give an empty head and then the `rawSegments`: the fields with
   the empty ones that repeated separators make still in place. -/
namespace Lib.Str
open Fields

def startsWith (s : String) (c : Char) : Bool := s.toList.head? == some c

def contains (s : String) (c : Char) : Bool := s.toList.contains c

/-- `trim_end_matches`. -/
def trimEndMatches (s : String) (c : Char) : String := String.ofList (trimEnd c s.toList)

/-- `trim_start_matches`. -/
def trimStartMatches (s : String) (c : Char) : String := String.ofList (s.toList.dropWhile (· == c))

def split (s : String) (c : Char) : List String := (s.toList.splitOn c).map String.ofList

def join (parts : List String) (sep : String) : String := sep.intercalate parts

/-- The non-empty fields of `s`. -/
def segments (s : String) (c : Char) : List String := (split s c).filter (· ≠ "")

/-- The fields after the first of the trimmed text, the empty ones included. -/
def rawSegments (s : String) (c : Char) : List String := (split (trimEndMatches s c) c).tail

variable {s : String} {c : Char}

@[simp] theorem toList_trimEndMatches : (trimEndMatches s c).toList = trimEnd c s.toList := by
  simp [trimEndMatches]

theorem split_ne_nil (s : String) (c : Char) : split s c ≠ [] := by
  simp [split, List.splitOn_ne_nil]

theorem split_eq_cons_rawSegments (s : String) (c : Char) :
    ∃ x, split (trimEndMatches s c) c = x :: rawSegments s c := by
  obtain ⟨x, xs, hxs⟩ := List.exists_cons_of_ne_nil (split_ne_nil (trimEndMatches s c) c)
  exact ⟨x, by rw [rawSegments, hxs]; rfl⟩

theorem not_mem_of_mem_split {x : String} (h : x ∈ split s c) : c ∉ x.toList := by
  obtain ⟨f, hf, rfl⟩ := List.mem_map.mp h
  rw [String.toList_ofList]
  exact not_mem_of_mem_splitOn hf

/-- What the text is split to is made of its characters. -/
theorem mem_of_mem_split {x : String} (h : x ∈ split s c) {d : Char} (hd : d ∈ x.toList) : d ∈ s.toList := by
  obtain ⟨f, hf, rfl⟩ := List.mem_map.mp h
  rw [String.toList_ofList] at hd
  exact mem_of_mem_splitOn hf hd

theorem mem_of_mem_rawSegments {x : String} (h : x ∈ rawSegments s c) {d : Char} (hd : d ∈ x.toList) :
    d ∈ s.toList := by
  have htrim := mem_of_mem_split (List.mem_of_mem_tail h) hd
  rw [toList_trimEndMatches] at htrim
  exact (List.rdropWhile_prefix _ _).subset htrim

theorem mem_segments {x : String} (h : x ∈ segments s c) : x ≠ "" ∧ c ∉ x.toList := by
  obtain ⟨hx, hne⟩ := List.mem_filter.mp h
  exact ⟨by simpa using hne, not_mem_of_mem_split hx⟩

theorem segments_eq_fields (s : String) (c : Char) :
    segments s c = (fields c s.toList).map String.ofList := by
  have hempty : ∀ f : List Char, decide (String.ofList f ≠ "") = !f.isEmpty := by
    intro f; cases f <;> simp [← String.toList_inj]
  rw [segments, split, List.filter_map, fields]
  congr 1
  apply List.filter_congr
  intro f _
  exact hempty f

@[simp] theorem segments_trimEndMatches (s : String) (c : Char) :
    segments (trimEndMatches s c) c = segments s c := by
  rw [segments_eq_fields, segments_eq_fields, toList_trimEndMatches, fields_trimEnd]

theorem trimEndMatches_eq_empty : trimEndMatches s c = "" ↔ segments s c = [] := by
  rw [segments_eq_fields, List.map_eq_nil_iff, fields_eq_nil, ← String.toList_inj, toList_trimEndMatches]
  simp

/-- A text without the separator is its only field. -/
theorem split_of_not_contains (h : contains s c = false) : split s c = [s] := by
  rw [split, List.splitOn_eq_singleton (by simpa [contains] using h)]
  simp

/-! Trimming at the start. -/

theorem startsWith_trimStartMatches (s : String) (c : Char) : startsWith (trimStartMatches s c) c = false := by
  have h := List.head?_dropWhile_not (· == c) s.toList
  rw [startsWith, trimStartMatches, String.toList_ofList]
  cases hd : (s.toList.dropWhile (· == c)).head? with
  | none => rfl
  | some d =>
    rw [hd] at h
    simpa using h

theorem mem_trimStartMatches {d : Char} (h : d ∈ (trimStartMatches s c).toList) : d ∈ s.toList := by
  rw [trimStartMatches, String.toList_ofList] at h
  exact (List.dropWhile_suffix _).subset h

/-! Texts that start with the separator. -/

theorem exists_cons_of_startsWith (h : startsWith s c = true) : ∃ t, s.toList = c :: t := by
  cases hs : s.toList with
  | nil => simp [startsWith, hs] at h
  | cons d t =>
    simp only [startsWith, hs, List.head?_cons, beq_iff_eq, Option.some.injEq] at h
    exact ⟨t, by rw [h]⟩

/-- Trimming leaves nothing of a text of separators, and the leading separator of any other. -/
theorem trimEndMatches_cases (h : startsWith s c = true) :
    trimEndMatches s c = "" ∨ startsWith (trimEndMatches s c) c = true := by
  obtain ⟨t, ht⟩ := exists_cons_of_startsWith h
  by_cases he : trimEnd c s.toList = []
  · exact .inl (by rw [← String.toList_inj, toList_trimEndMatches, he]; rfl)
  · refine .inr ?_
    obtain ⟨u, hu⟩ : trimEnd c s.toList <+: s.toList := List.rdropWhile_prefix _ _
    rw [startsWith, toList_trimEndMatches]
    cases hv : trimEnd c s.toList with
    | nil => exact absurd hv he
    | cons d v =>
      rw [hv, ht, List.cons_append] at hu
      rw [(List.cons.inj hu).1]
      simp

theorem contains_of_startsWith (h : startsWith s c = true) : contains s c = true := by
  obtain ⟨t, ht⟩ := exists_cons_of_startsWith h
  simp [contains, ht]

theorem contains_trimEndMatches (h : startsWith s c = true) :
    contains (trimEndMatches s c) c = false ↔ segments s c = [] := by
  rw [← trimEndMatches_eq_empty]
  rcases trimEndMatches_cases h with he | hs
  · simp [he, contains]
  · rw [contains_of_startsWith hs]
    simp only [Bool.true_eq_false, false_iff]
    intro he
    rw [he] at hs
    simp [startsWith] at hs

/-- The split of a trimmed text: an empty head, then the raw segments. -/
theorem split_trimEndMatches (h : startsWith s c = true) :
    split (trimEndMatches s c) c = "" :: rawSegments s c := by
  rcases trimEndMatches_cases h with he | hs
  · rw [rawSegments, he]; simp [split, List.splitOn_nil]
  · obtain ⟨t, ht⟩ := exists_cons_of_startsWith hs
    rw [rawSegments, split, ht, splitOn_sep_cons]
    simp

theorem filter_rawSegments (h : startsWith s c = true) :
    (rawSegments s c).filter (· ≠ "") = segments s c := by
  have := segments_trimEndMatches s c
  rw [segments, split_trimEndMatches h] at this
  simpa using this

/-- The last raw segment is not empty. -/
theorem getLast?_rawSegments : (rawSegments s c).getLast? ≠ some "" := by
  intro hl
  have hsplit := split_ne_nil (trimEndMatches s c) c
  have hlast : (split (trimEndMatches s c) c).getLast? = some "" := by
    rw [rawSegments] at hl
    cases hs : split (trimEndMatches s c) c with
    | nil => exact absurd hs hsplit
    | cons x xs =>
      rw [hs, List.tail_cons] at hl
      rw [List.getLast?_cons, hl]; rfl
  rw [split, toList_trimEndMatches, List.getLast?_map] at hlast
  obtain ⟨f, hf, he⟩ := Option.map_eq_some_iff.mp hlast
  have hnil : f = [] := by rw [← String.toList_inj] at he; simpa using he
  subst hnil
  by_cases hne : trimEnd c s.toList = []
  · rw [rawSegments, split, toList_trimEndMatches, hne] at hl
    simp [List.splitOn_nil] at hl
  · exact getLast?_splitOn_trimEnd hne hf

theorem filter_eq_self_of_not_mem {xs : List String} (h : "" ∉ xs) : xs.filter (· ≠ "") = xs := by
  rw [List.filter_eq_self]
  intro x hx
  simpa using fun hxe : x = "" => h (hxe ▸ hx)

/-- Up to the first empty raw segment the segments and the raw segments are the same. -/
theorem rawSegments_eq_of_mem {n : Nat} (h : startsWith s c = true) (he : "" ∈ (rawSegments s c).take n) :
    ∃ a b, rawSegments s c = a ++ "" :: b ∧ a.length < n ∧ (segments s c).take a.length = a := by
  obtain ⟨a, b, htake, ha⟩ := List.eq_append_cons_of_mem he
  refine ⟨a, b ++ (rawSegments s c).drop n, ?_, ?_, ?_⟩
  · rw [← List.cons_append, ← List.append_assoc, ← htake, List.take_append_drop]
  · have := congrArg List.length htake
    simp only [List.length_take, List.length_append, List.length_cons] at this
    omega
  · rw [← filter_rawSegments h, ← List.take_append_drop n (rawSegments s c), htake, List.append_assoc,
      List.filter_append, filter_eq_self_of_not_mem ha, List.take_left]

/-- Where the first raw segments are not empty and one segment comes after them, the
    last raw segment is that one. -/
theorem rawSegments_eq_of_not_mem {n : Nat} (h : startsWith s c = true)
    (hn : (segments s c).length = n + 1) (he : "" ∉ (rawSegments s c).take n) :
    ∃ es t, rawSegments s c = (rawSegments s c).take n ++ (es ++ [t]) ∧
      segments s c = (rawSegments s c).take n ++ [t] := by
  have hlast := getLast?_rawSegments (s := s) (c := c)
  have hsegs := filter_rawSegments h
  generalize rawSegments s c = raw at *
  have hlen : n + 1 ≤ raw.length := by
    rw [← hn, ← hsegs]
    exact List.length_filter_le _ _
  obtain ⟨es, t, hes⟩ : ∃ es t, raw.drop n = es ++ [t] := by
    have hne : raw.drop n ≠ [] := by
      rw [ne_eq, List.drop_eq_nil_iff]
      omega
    exact ⟨_, _, (List.dropLast_append_getLast hne).symm⟩
  have hraw : raw = raw.take n ++ (es ++ [t]) := by rw [← hes, List.take_append_drop]
  have ht : t ≠ "" := by
    rintro rfl
    rw [hraw, ← List.append_assoc, List.getLast?_concat] at hlast
    exact hlast rfl
  have hfilter : segments s c = raw.take n ++ (es.filter (· ≠ "") ++ [t]) := by
    rw [← hsegs]
    conv_lhs => rw [hraw]
    rw [List.filter_append, List.filter_append, filter_eq_self_of_not_mem he, List.filter_cons_of_pos (by simpa using ht)]
    rfl
  have hnil : es.filter (· ≠ "") = [] := by
    have hl := congrArg List.length hfilter
    simp only [hn, List.length_append, List.length_take, List.length_cons, List.length_nil] at hl
    exact List.length_eq_zero_iff.mp (by omega)
  rw [hnil] at hfilter
  exact ⟨es, t, hraw, hfilter⟩

/-! Joining undoes splitting. -/

/-- A field: not empty, and without the separator. -/
def IsField (c : Char) (x : String) : Prop := x ≠ "" ∧ c ∉ x.toList

theorem split_join {parts : List String} (hne : parts ≠ []) (h : ∀ x ∈ parts, c ∉ x.toList) :
    split (join parts (String.singleton c)) c = parts := by
  rw [split, join, String.toList_intercalate]
  simp only [String.toList_singleton]
  rw [List.splitOn_intercalate _ (by simpa using h) (by simpa using hne)]
  simp [Function.comp_def]

/-- Joining is injective on non-empty lists of fields. -/
theorem join_inj {xs ys : List String} (hx : xs ≠ []) (hy : ys ≠ []) (hxc : ∀ x ∈ xs, c ∉ x.toList)
    (hyc : ∀ y ∈ ys, c ∉ y.toList) (h : join xs (String.singleton c) = join ys (String.singleton c)) :
    xs = ys := by
  rw [← split_join hx hxc, h, split_join hy hyc]

/-- The separator, the fields joined by it, and `k` more separators. -/
def slashed (parts : List String) (c : Char) (k : Nat) : String :=
  String.singleton c ++ join parts (String.singleton c) ++ String.ofList (List.replicate k c)

variable {parts : List String} {k : Nat}

theorem toList_slashed (parts : List String) (c : Char) (k : Nat) : (slashed parts c k).toList =
    c :: [c].intercalate (parts.map String.toList) ++ List.replicate k c := by
  simp [slashed, join]

theorem mem_slashed {d : Char} (h : d ∈ (slashed parts c k).toList) : d = c ∨ ∃ x ∈ parts, d ∈ x.toList := by
  rw [toList_slashed, List.cons_append, List.mem_cons, List.mem_append, List.mem_replicate] at h
  rcases h with h | h | ⟨-, h⟩
  · exact .inl h
  · refine (mem_intercalate h).imp_right fun ⟨f, hf, hd⟩ => ?_
    obtain ⟨x, hx, rfl⟩ := List.mem_map.mp hf
    exact ⟨x, hx, hd⟩
  · exact .inl h

/-- Without separators at its end the text is each field after a separator. -/
theorem slashed_eq_join : ∀ (parts : List String), parts ≠ [] →
    slashed parts c 0 = String.join (parts.map (String.singleton c ++ ·))
  | [x], _ => by simp [slashed, join]
  | x :: y :: parts, _ => by
    have ih := slashed_eq_join (y :: parts) (List.cons_ne_nil _ _)
    rw [List.map_cons, String.join_cons, ← ih, ← String.toList_inj]
    simp [slashed, join]

theorem startsWith_slashed (parts : List String) (c : Char) (k : Nat) :
    startsWith (slashed parts c k) c = true := by
  simp [startsWith, toList_slashed]

/-- Splitting the trimmed text gives the parts it was made of, empty ones included, if the
    last of them is not empty. -/
theorem rawSegments_slashed_of_getLast? (h : ∀ x ∈ parts, c ∉ x.toList) (hlast : parts.getLast? ≠ some "") :
    rawSegments (slashed parts c k) c = parts := by
  have htrim : (trimEndMatches (slashed parts c k) c).toList =
      trimEnd c (c :: [c].intercalate (parts.map String.toList)) := by
    rw [toList_trimEndMatches, toList_slashed, trimEnd_append_replicate]
  rw [rawSegments, split, htrim]
  by_cases hp : parts = []
  · have hnil : trimEnd c [c] = [] := trimEnd_eq_nil.mpr (by simp)
    simp [hp, hnil, List.splitOn_nil]
  · have hjoin : ([c].intercalate (parts.map String.toList)).splitOn c = parts.map String.toList :=
      List.splitOn_intercalate _ (by simpa using h) (by simpa using hp)
    -- an empty part at the end is what the text would end in a separator by
    have hparts : (parts.map String.toList).getLast? ≠ some [] := by
      intro hl
      rw [List.getLast?_map, Option.map_eq_some_iff] at hl
      obtain ⟨x, hx, hxe⟩ := hl
      exact hlast (by rw [hx, String.toList_eq_nil_iff.mp hxe])
    have htext : (c :: [c].intercalate (parts.map String.toList)).getLast? ≠ some c := by
      intro hl
      rw [← hjoin] at hparts
      by_cases hne : [c].intercalate (parts.map String.toList) = []
      · rw [hne, List.splitOn_nil] at hparts
        exact hparts rfl
      · rw [List.getLast?_cons_of_ne_nil hne] at hl
        obtain ⟨ys, hys⟩ := List.getLast?_eq_some_iff.mp hl
        rw [hys, List.splitOn_append_cons_self, List.splitOn_nil] at hparts
        simp at hparts
    rw [trimEnd_of_getLast? htext, splitOn_sep_cons, hjoin]
    simp [Function.comp_def]

/-- Splitting the trimmed text gives the fields it was made of. -/
theorem rawSegments_slashed (h : ∀ x ∈ parts, IsField c x) : rawSegments (slashed parts c k) c = parts :=
  rawSegments_slashed_of_getLast? (fun x hx => (h x hx).2) fun hl => (h "" (List.mem_of_getLast? hl)).1 rfl

theorem segments_slashed (h : ∀ x ∈ parts, IsField c x) : segments (slashed parts c k) c = parts := by
  rw [← filter_rawSegments (startsWith_slashed parts c k), rawSegments_slashed h, List.filter_eq_self]
  intro x hx
  simpa using (h x hx).1

end Lib.Str
