import DavisJr.Match

/- The extraction loop without its cursor and its flag. `lay` is a recursion over the
   parts that the cursor has ahead and the segments that are left: a wildcard takes
   its segments in one go, up to the first one equal to the literal after it, and
   the last part stays in place while segments are left. `foldlM_extractStep` says
   that the loop computes it, for every pattern and from every state outside a
   wildcard. On a parsed pattern `Path.extract` is the walk where the request matches
   (`extract_of_matches`) and an error where it does not (`extract_of_not_matches`). -/
namespace DavisJr
open Lib Lib.Str Lib.Glob

/-- The parts ahead once `a` has taken its segment: the cursor stays on the last part. -/
def advance (a : RoutePart) (q : List RoutePart) : List RoutePart := if q = [] then [a] else q

/-- The walk of the parts `q` along the segments, from the params bound so far and the
    wildcard segments collected so far. -/
def lay : List RoutePart → List String → Params → List String → Outcome ServerError Params
  | _, [], m, _ => .ok m
  | [], _ :: _, _, _ => .panic
  | .param n :: q, x :: xs, m, v => lay (advance (.param n) q) xs (m.insert n x) v
  | .pathComponent l :: q, x :: xs, m, v =>
    if x = l then lay (advance (.pathComponent l) q) xs m v
    else .err ⟨"invalid path for parameter extraction"⟩
  | .leader :: q, _ :: xs, m, v => lay (advance .leader q) xs m v
  | .wildcard :: .pathComponent l :: q, x :: xs, m, v =>
    if l ∈ xs then
      lay q (after l xs) (m.insert "*" (join (v ++ x :: before l xs) "/")) (v ++ x :: before l xs)
    else .ok (m.insert "*" (join (v ++ x :: xs) "/"))
  | .wildcard :: _, x :: xs, m, v => .ok (m.insert "*" (join (v ++ x :: xs) "/"))
termination_by _ xs => xs.length
decreasing_by
  all_goals simp only [List.length_cons]
  all_goals first | omega | exact Nat.lt_succ_of_le (length_after_le _ _)

/-- Only a literal comes right after a wildcard. -/
abbrev Spaced (q : List RoutePart) : Prop := q.IsChain fun a b => a = .wildcard → ∃ l, b = .pathComponent l

theorem Spaced.tail {a : RoutePart} {q : List RoutePart} (h : Spaced (a :: q)) : Spaced q :=
  List.IsChain.tail h

theorem Spaced.advance {a : RoutePart} {q : List RoutePart} (h : Spaced (a :: q)) : Spaced (advance a q) := by
  unfold DavisJr.advance
  split
  · exact .singleton a
  · exact h.tail

/-- A wildcard that no literal follows is the last part. -/
theorem Spaced.eq_nil {q : List RoutePart} (h : Spaced (.wildcard :: q))
    (hq : ∀ l q', q ≠ .pathComponent l :: q') : q = [] := by
  cases q with
  | nil => rfl
  | cons b q =>
    obtain ⟨l, rfl⟩ := (List.isChain_cons_cons.mp h).1 rfl
    exact absurd rfl (hq l q)

/-! One iteration of the loop, by the part under the cursor. -/

section Step
variable {self : Path} {i : Nat} {q : List RoutePart} {m : Params} {v : List String} {x : String}

/-- The cursor after an iteration outside a wildcard. -/
def next (self : Path) (i : Nat) : Nat := if self.parts.length - 1 > i then i + 1 else i

theorem drop_next {a : RoutePart} (h : self.parts.drop i = a :: q) :
    self.parts.drop (next self i) = advance a q := by
  have hl := congrArg List.length h
  simp only [List.length_drop, List.length_cons] at hl
  unfold next advance
  by_cases hq : q = []
  · subst hq
    rw [List.length_nil] at hl
    rw [if_neg (by omega), if_pos rfl, h]
  · have := List.length_pos_iff.mpr hq
    rw [if_pos (by omega), if_neg hq]
    exact Outcome.drop_succ_of_drop h

/-- What ends an iteration outside a wildcard. -/
theorem ok_next (st : Path.ExtractState) :
    (pure (if self.parts.length - 1 > st.i then { st with i := st.i + 1 } else st) :
      Outcome ServerError Path.ExtractState) = .ok { st with i := next self st.i } := by
  unfold next
  split <;> rfl

theorem step_param {n : String} (h : self.parts.drop i = .param n :: q) :
    self.extractStep ⟨m, v, false, i⟩ x = .ok ⟨m.insert n x, v, false, next self i⟩ := by
  simp only [Path.extractStep, Outcome.index_of_drop h, Outcome.ok_bind]
  exact ok_next ⟨m.insert n x, v, false, i⟩

theorem step_literal {l : String} (h : self.parts.drop i = .pathComponent l :: q) :
    self.extractStep ⟨m, v, false, i⟩ x = if x = l then .ok ⟨m, v, false, next self i⟩
      else .err ⟨"invalid path for parameter extraction"⟩ := by
  simp only [Path.extractStep, Outcome.index_of_drop h, Outcome.ok_bind]
  by_cases hx : x = l
  · simpa [hx] using ok_next ⟨m, v, false, i⟩
  · simp [hx]

theorem step_leader (h : self.parts.drop i = .leader :: q) :
    self.extractStep ⟨m, v, false, i⟩ x = .ok ⟨m, v, false, next self i⟩ := by
  simp only [Path.extractStep, Outcome.index_of_drop h, Outcome.ok_bind]
  exact ok_next ⟨m, v, false, i⟩

theorem step_wildcard (h : self.parts.drop i = .wildcard :: q) :
    self.extractStep ⟨m, v, false, i⟩ x = .ok ⟨m, v ++ [x], true, next self i⟩ := by
  simp only [Path.extractStep, Outcome.index_of_drop h, Outcome.ok_bind]
  exact ok_next ⟨m, v ++ [x], true, i⟩

/-- The segment equal to the literal after the wildcard ends it, and the cursor passes
    the literal without a look at the pattern's length. -/
theorem step_leave {l : String} (h : self.parts.drop i = .pathComponent l :: q) :
    self.extractStep ⟨m, v, true, i⟩ l = .ok ⟨m.insert "*" (join v "/"), v, false, i + 1⟩ := by
  simp [Path.extractStep, Outcome.index_of_drop h]

/-- Iterations inside a final wildcard collect their segments. -/
theorem scan_wildcard (h : self.parts.drop i = .wildcard :: q) : ∀ (xs v : List String),
    xs.foldlM self.extractStep ⟨m, v, true, i⟩ = .ok ⟨m, v ++ xs, true, i⟩
  | [], v => by simp
  | x :: xs, v => by
    have hstep : self.extractStep ⟨m, v, true, i⟩ x = .ok ⟨m, v ++ [x], true, i⟩ := by
      simp [Path.extractStep, Outcome.index_of_drop h]
    rw [List.foldlM_cons, hstep, Outcome.ok_bind, scan_wildcard h xs (v ++ [x])]
    simp

/-- Iterations before the literal that ends the wildcard collect their segments. -/
theorem scan_literal {l : String} (h : self.parts.drop i = .pathComponent l :: q) :
    ∀ (mid v : List String), l ∉ mid →
      mid.foldlM self.extractStep ⟨m, v, true, i⟩ = .ok ⟨m, v ++ mid, true, i⟩
  | [], v, _ => by simp
  | x :: mid, v, hmid => by
    obtain ⟨hx, hmid⟩ : l ≠ x ∧ l ∉ mid := by simpa using hmid
    have hstep : self.extractStep ⟨m, v, true, i⟩ x = .ok ⟨m, v ++ [x], true, i⟩ := by
      simp [Path.extractStep, Outcome.index_of_drop h, hx]
    rw [List.foldlM_cons, hstep, Outcome.ok_bind, scan_literal h mid (v ++ [x]) hmid]
    simp

/-- The whole loop: from a cursor outside a wildcard it is the walk of the parts ahead. -/
theorem foldlM_extractStep {xs : List String} (h : self.parts.drop i = q) (hs : Spaced q) :
    (xs.foldlM self.extractStep ⟨m, v, false, i⟩ >>= fun st => .ok st.finish) = lay q xs m v := by
  fun_induction lay q xs m v generalizing i with
  | case1 q m v => rfl
  | case2 x xs m v =>
    rw [List.foldlM_cons, Path.extractStep, Outcome.index_of_drop_nil h]
    rfl
  | case3 n q x xs m v ih =>
    rw [List.foldlM_cons, step_param h]
    exact ih (drop_next h) hs.advance
  | case4 q l xs m v ih =>
    rw [List.foldlM_cons, step_literal h, if_pos rfl]
    exact ih (drop_next h) hs.advance
  | case5 l q x xs m v hx =>
    rw [List.foldlM_cons, step_literal h, if_neg hx]
    rfl
  | case6 q x xs m v ih =>
    rw [List.foldlM_cons, step_leader h]
    exact ih (drop_next h) hs.advance
  | case7 l q x xs m v hl ih =>
    -- the wildcard ends at the first segment equal to the literal
    rw [List.foldlM_cons, step_wildcard h, Outcome.ok_bind]
    conv_lhs => rw [eq_before_append_after hl, List.foldlM_append,
      scan_literal (drop_next h) _ _ (not_mem_before l xs), Outcome.ok_bind, List.foldlM_cons,
      step_leave (drop_next h), Outcome.ok_bind]
    rw [List.append_assoc, List.singleton_append]
    exact ih (Outcome.drop_succ_of_drop (drop_next h)) hs.tail.tail
  | case8 l q x xs m v hl =>
    -- the request ends inside the wildcard
    rw [List.foldlM_cons, step_wildcard h, Outcome.ok_bind, scan_literal (drop_next h) _ _ hl]
    simp [Path.ExtractState.finish]
  | case9 q x xs m v hq =>
    have hnil := hs.eq_nil hq
    subst hnil
    rw [List.foldlM_cons, step_wildcard h, Outcome.ok_bind, scan_wildcard (drop_next h)]
    simp [Path.ExtractState.finish]

end Step

/-! `Path.extract` on a parsed pattern. -/

/-- The pattern of the root path, `Path::default`. -/
def Pattern.root : Pattern := ⟨[], by simp, by simp, .nil⟩

/-- Without segments to read there is nothing after the first raw segment. -/
theorem rawSegments_eq_nil {s : String} (h : pathSegments s = []) : rawSegments s '/' = [] := by
  unfold pathSegments at h
  split at h
  · next hc =>
    rw [trimEndMatches_eq_empty.mpr h] at hc
    simp [contains] at hc
  · next hc =>
    rw [rawSegments, split_of_not_contains (by simpa using hc)]
    rfl

/-- The loop over the whole trimmed request: the leader takes its first part. -/
theorem foldlM_extractStep_init (P : Pattern) {x : String} {xs : List String} :
    ((x :: xs).foldlM P.path.extractStep .init >>= fun st => .ok st.finish) =
      lay (advance .leader P.body) xs ∅ [] := by
  have hs : Spaced (.leader :: P.body) := List.isChain_cons.mpr ⟨fun _ _ h => (by cases h), P.spaced⟩
  have h : P.path.parts.drop 0 = .leader :: P.body := rfl
  rw [Path.ExtractState.init, foldlM_extractStep h hs, lay]

/-- A text of slashes is parsed as the root. -/
theorem new_of_trimmed_empty {s : String} (h : trimEndMatches s '/' = "") :
    Path.new s = .ok Pattern.root.path := by
  rw [Path.new, h]; rfl

/-- The comparison with the root, which `extract` makes before anything else on a text
    of slashes, is the one that `matches` makes there. -/
theorem eq_default_iff {P : Pattern} {s : String} (h : trimEndMatches s '/' = "") (b : Bool) :
    (P.path.eq Path.default : Outcome ServerError Bool) = .ok b ↔ P.path.matches s = .ok b := by
  have hroot : Path.default = Pattern.root.path := rfl
  rw [Path.matches, new_of_trimmed_empty h, hroot]
  simp only [Outcome.ofExcept_ok, Outcome.mapErr_ok, Outcome.ok_bind, eq_path, Outcome.ok.injEq]

/-- Only the root matches the root pattern. -/
theorem rawSegments_of_matches_root {P : Pattern} {s : String} (hbody : P.body = [])
    (hm : P.path.matches s = .ok true) : rawSegments s '/' = [] := by
  cases hn : Path.new s with
  | error e => rw [matches_of_error hn] at hm; cases hm
  | ok o =>
    obtain ⟨O, rfl, hO⟩ := exists_pattern hn
    rw [Path.matches, hn] at hm
    simp only [Outcome.ofExcept_ok, Outcome.mapErr_ok, Outcome.ok_bind, eq_path,
      Outcome.ok.injEq, Bool.and_eq_true, decide_eq_true_eq, hbody] at hm
    have hlen : O.body.length = 0 := hm.1.resolve_left (by simp)
    rw [hO, List.length_map, List.length_eq_zero_iff] at hlen
    exact rawSegments_eq_nil hlen

/-- A request that matches is walked from its first raw segment on, the leader having
    taken what comes before it. -/
theorem extract_of_matches_loop {P : Pattern} {s : String} (hm : P.path.matches s = .ok true) :
    P.path.extract s = lay (advance .leader P.body) (rawSegments s '/') ∅ [] := by
  by_cases ht : trimEndMatches s '/' = ""
  · -- only slashes: the comparison with the root succeeds, and the params are empty
    have hraw : rawSegments s '/' = [] := by
      rw [rawSegments, ht]; simp [split, List.splitOn_nil]
    rw [Path.extract, if_pos ht, (eq_default_iff ht true).mpr hm, hraw, lay]
    rfl
  · obtain ⟨x, hx⟩ := split_eq_cons_rawSegments s '/'
    rw [Path.extract, if_neg ht, hm, hx, ← foldlM_extractStep_init P (x := x)]
    simp only [Outcome.ok_bind, Outcome.unwrapOr_ok, Outcome.pure_eq, Bool.not_true, Bool.false_eq_true,
      if_false]

theorem extract_of_matches {P : Pattern} {s : String} (hm : P.path.matches s = .ok true) :
    P.path.extract s = lay P.body (rawSegments s '/') ∅ [] := by
  rw [extract_of_matches_loop hm, advance]
  split
  · next hbody => rw [rawSegments_of_matches_root hbody hm, lay, lay]
  · rfl

/-- A request that does not match, or that the parser refuses, is an error. -/
theorem extract_of_not_matches {P : Pattern} {s : String} (hm : P.path.matches s ≠ .ok true)
    (hp : P.path.matches s ≠ .panic) : P.path.extract s = .err ⟨"route does not match"⟩ := by
  have hearly : (if trimEndMatches s '/' = "" then P.path.eq Path.default else .ok false :
      Outcome ServerError Bool) = .ok false := by
    split
    · next ht =>
      have hroot := eq_path (ε := ServerError) P Pattern.root
      cases hb : (decide (.wildcard ∈ P.body ∨ Pattern.root.body.length = P.body.length) &&
        eqParts P.body Pattern.root.body) with
      | false => rw [← hb]; exact hroot
      | true => rw [hb] at hroot; exact absurd ((eq_default_iff ht true).mp hroot) hm
    · rfl
  rw [Path.extract, hearly]
  cases hb : P.path.matches s with
  | panic => exact absurd hb hp
  | err e => rfl
  | ok b =>
    cases b with
    | false => rfl
    | true => exact absurd hb hm

end DavisJr
