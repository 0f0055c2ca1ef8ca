import DavisJr.Walk

/- When extraction returns and when it panics. `Fills q xs` cuts segments along the
   whole pattern, every wildcard ending at the first segment equal to the literal
   after it; `Laid q xs` is the same for segments that may end anywhere, with the
   last part taking all that is left. The walk returns params exactly on laid
   segments (`lay_eq_ok`) and reads past the pattern exactly when the pattern ends in
   a wildcard and a literal and a proper prefix of the segments already fills it
   (`lay_eq_panic`): leaving the wildcard moves the cursor without the bound that
   every other move has. -/
namespace DavisJr
open Lib Lib.Str Lib.Glob

/-- The segments fill the parts, none left over on either side. -/
inductive Fills : List RoutePart → List String → Prop
  | nil : Fills [] []
  | param {n x q xs} : Fills q xs → Fills (.param n :: q) (x :: xs)
  | literal {l q xs} : Fills q xs → Fills (.pathComponent l :: q) (l :: xs)
  | wildcard {l w mid q xs} : l ∉ mid → Fills q xs →
      Fills (.wildcard :: .pathComponent l :: q) (w :: (mid ++ l :: xs))

/-- The segments can be laid along the parts: a param takes any segment, a literal an
    equal one, a wildcard all segments up to the first equal to the literal after it.
    The last part takes every segment left, and the segments may end before the parts. -/
inductive Laid : List RoutePart → List String → Prop
  | done {q} : Laid q []
  | param {n x q xs} : Laid (advance (.param n) q) xs → Laid (.param n :: q) (x :: xs)
  | literal {l q xs} : Laid (advance (.pathComponent l) q) xs → Laid (.pathComponent l :: q) (l :: xs)
  | leave {l w mid q xs} : l ∉ mid → Laid q xs →
      Laid (.wildcard :: .pathComponent l :: q) (w :: (mid ++ l :: xs))
  | inside {l w mid q} : l ∉ mid → Laid (.wildcard :: .pathComponent l :: q) (w :: mid)
  | last {w mid} : Laid [.wildcard] (w :: mid)

/-- The pattern ends in a wildcard and a literal. -/
def EndsInLiteral (q : List RoutePart) : Prop := ∃ A l, q = A ++ [.wildcard, .pathComponent l]

/-- The segments go on after they have filled a pattern that ends in a wildcard and a literal. -/
def Overruns (q : List RoutePart) (xs : List String) : Prop :=
  EndsInLiteral q ∧ ∃ done x rest, xs = done ++ x :: rest ∧ Fills q done

/-- Parts that a cursor can have ahead after the leader. -/
structure Walkable (q : List RoutePart) : Prop where
  noLeader : .leader ∉ q
  spaced : Spaced q

theorem Pattern.walkable (P : Pattern) : Walkable P.body := ⟨P.noLeader, P.spaced⟩

theorem Walkable.tail {a : RoutePart} {q : List RoutePart} (h : Walkable (a :: q)) : Walkable q :=
  ⟨fun hq => h.noLeader (List.mem_cons_of_mem a hq), h.spaced.tail⟩

theorem Walkable.advance {a : RoutePart} {q : List RoutePart} (h : Walkable (a :: q)) :
    Walkable (advance a q) := by
  refine ⟨?_, h.spaced.advance⟩
  unfold DavisJr.advance
  split
  · exact fun hq => h.noLeader (by rw [List.mem_singleton.mp hq]; exact List.mem_cons_self)
  · exact h.tail.noLeader

section Walk
variable {q : List RoutePart} {xs mid : List String} {m : Params} {v : List String} {l w : String}

theorem lay_leave (h : l ∉ mid) : lay (.wildcard :: .pathComponent l :: q) (w :: (mid ++ l :: xs)) m v =
    lay q xs (m.insert "*" (join (v ++ w :: mid) "/")) (v ++ w :: mid) := by
  rw [lay, if_pos (by simp), before_append h, after_append h]

theorem lay_inside (h : l ∉ mid) : lay (.wildcard :: .pathComponent l :: q) (w :: mid) m v =
    .ok (m.insert "*" (join (v ++ w :: mid) "/")) := by
  rw [lay, if_neg h]

theorem lay_last : lay [.wildcard] (w :: mid) m v = .ok (m.insert "*" (join (v ++ w :: mid) "/")) := by
  rw [lay]; simp

/-! The walk returns params. -/

theorem lay_of_laid (h : Laid q xs) (m : Params) (v : List String) : ∃ m', lay q xs m v = .ok m' := by
  induction h generalizing m v with
  | done => exact ⟨m, by rw [lay]⟩
  | param _ ih => rw [lay]; exact ih _ _
  | literal _ ih => rw [lay, if_pos rfl]; exact ih _ _
  | leave hmid _ ih => rw [lay_leave hmid]; exact ih _ _
  | inside hmid => exact ⟨_, lay_inside hmid⟩
  | last => exact ⟨_, lay_last⟩

theorem laid_of_lay {m' : Params} (hq : Walkable q) (h : lay q xs m v = .ok m') : Laid q xs := by
  fun_induction lay q xs m v with
  | case1 => exact .done
  | case2 => cases h
  | case3 n q x xs m v ih => exact .param (ih hq.advance h)
  | case4 q l xs m v ih => exact .literal (ih hq.advance h)
  | case5 => cases h
  | case6 => exact absurd List.mem_cons_self hq.noLeader
  | case7 l q x xs m v hl ih =>
    rw [eq_before_append_after hl]
    exact .leave (not_mem_before l xs) (ih hq.tail.tail h)
  | case8 l q x xs m v hl => exact .inside hl
  | case9 q x xs m v hlit =>
    rw [hq.spaced.eq_nil hlit]
    exact .last

/-- The walk returns params exactly when the segments can be laid along the parts. -/
theorem lay_eq_ok (hq : Walkable q) : (∃ m', lay q xs m v = .ok m') ↔ Laid q xs :=
  ⟨fun ⟨_, h⟩ => laid_of_lay hq h, fun h => lay_of_laid h m v⟩

/-! The walk panics. -/

theorem EndsInLiteral.cons (h : EndsInLiteral q) (a : RoutePart) : EndsInLiteral (a :: q) := by
  obtain ⟨A, l, rfl⟩ := h
  exact ⟨a :: A, l, rfl⟩

/-- Below its first part the ending is still there, unless it begins at that part. -/
theorem EndsInLiteral.tail {a : RoutePart} (h : EndsInLiteral (a :: q)) :
    EndsInLiteral q ∨ a = .wildcard ∧ ∃ l, q = [.pathComponent l] := by
  obtain ⟨A, l, h⟩ := h
  cases A with
  | nil =>
    obtain ⟨rfl, rfl⟩ := List.cons.inj h
    exact .inr ⟨rfl, l, rfl⟩
  | cons b A =>
    obtain ⟨-, rfl⟩ := List.cons.inj h
    exact .inl ⟨A, l, rfl⟩

theorem not_endsInLiteral_singleton (a : RoutePart) : ¬EndsInLiteral [a] := by
  intro ⟨A, l, h⟩
  have := congrArg List.length h
  simp only [List.length_append, List.length_cons, List.length_nil] at this
  omega

/-- No parts are left, or they end in a wildcard and a literal: where the cursor can run past them. -/
def Open (q : List RoutePart) : Prop := q = [] ∨ EndsInLiteral q

/-- Past a part that is not a wildcard, what is ahead is open only if it was, and the
    cursor did not stay. -/
theorem advance_eq_of_open {a : RoutePart} (ha : a ≠ .wildcard) (h : EndsInLiteral (a :: q)) :
    advance a q = q ∧ EndsInLiteral q := by
  have htail := h.tail.resolve_right fun h => ha h.1
  refine ⟨if_neg ?_, htail⟩
  rintro rfl
  exact not_endsInLiteral_singleton a h

theorem endsInLiteral_of_advance {a : RoutePart} (h : Open (advance a q)) :
    advance a q = q ∧ EndsInLiteral (a :: q) := by
  unfold advance at h ⊢
  split
  · next hq =>
    rw [if_pos hq] at h
    exact absurd (h.resolve_left (by simp)) (not_endsInLiteral_singleton a)
  · next hq =>
    rw [if_neg hq] at h
    exact ⟨rfl, (h.resolve_left hq).cons a⟩

theorem open_of_endsInLiteral {l : String} (h : EndsInLiteral (.wildcard :: .pathComponent l :: q)) :
    Open q := by
  rcases h.tail with h | ⟨-, l', h⟩
  · rcases h.tail with h | ⟨h, -⟩
    · exact .inr h
    · cases h
  · exact .inl (List.cons.inj h).2

theorem endsInLiteral_of_open {l : String} (h : Open q) :
    EndsInLiteral (.wildcard :: .pathComponent l :: q) := by
  rcases h with rfl | h
  · exact ⟨[], l, rfl⟩
  · exact (h.cons _).cons _

/-- Segments that go on after the parts are filled make the walk read past them. -/
theorem lay_of_fills {done rest : List String} {x : String} (h : Fills q done) (hq : Open q)
    (m : Params) (v : List String) : lay q (done ++ x :: rest) m v = .panic := by
  induction h generalizing m v with
  | nil => rw [List.nil_append, lay]
  | param _ ih =>
    obtain ⟨hadv, hend⟩ := advance_eq_of_open (by simp) (hq.resolve_left (by simp))
    rw [List.cons_append, lay, hadv]
    exact ih (.inr hend) _ _
  | literal _ ih =>
    obtain ⟨hadv, hend⟩ := advance_eq_of_open (by simp) (hq.resolve_left (by simp))
    rw [List.cons_append, lay, if_pos rfl, hadv]
    exact ih (.inr hend) _ _
  | wildcard hmid _ ih =>
    rw [List.cons_append, List.append_assoc, List.cons_append, lay_leave hmid]
    exact ih (open_of_endsInLiteral (hq.resolve_left (by simp))) _ _

theorem fills_of_lay (hq : Walkable q) (h : lay q xs m v = .panic) :
    Open q ∧ ∃ done x rest, xs = done ++ x :: rest ∧ Fills q done := by
  fun_induction lay q xs m v with
  | case1 => cases h
  | case2 x xs => exact ⟨.inl rfl, [], x, xs, rfl, .nil⟩
  | case3 n q x xs m v ih =>
    obtain ⟨ho, done, y, rest, rfl, hf⟩ := ih hq.advance h
    obtain ⟨hadv, hend⟩ := endsInLiteral_of_advance ho
    exact ⟨.inr hend, x :: done, y, rest, rfl, .param (hadv ▸ hf)⟩
  | case4 q l xs m v ih =>
    obtain ⟨ho, done, y, rest, rfl, hf⟩ := ih hq.advance h
    obtain ⟨hadv, hend⟩ := endsInLiteral_of_advance ho
    exact ⟨.inr hend, l :: done, y, rest, rfl, .literal (hadv ▸ hf)⟩
  | case5 => cases h
  | case6 => exact absurd List.mem_cons_self hq.noLeader
  | case7 l q x xs m v hl ih =>
    -- what comes after the literal fills the rest, and the cut gives the wildcard its part
    obtain ⟨ho, done, y, rest, hafter, hf⟩ := ih hq.tail.tail h
    refine ⟨.inr (endsInLiteral_of_open ho), x :: (before l xs ++ l :: done), y, rest, ?_,
      .wildcard (not_mem_before l xs) hf⟩
    conv_lhs => rw [eq_before_append_after hl, hafter]
    simp
  | case8 => cases h
  | case9 => cases h

/-- The walk panics exactly when the segments overrun the pattern, or when there is
    nothing ahead of them at all. -/
theorem lay_eq_panic (hq : Walkable q) :
    lay q xs m v = .panic ↔ Open q ∧ ∃ done x rest, xs = done ++ x :: rest ∧ Fills q done := by
  constructor
  · exact fills_of_lay hq
  · rintro ⟨ho, done, x, rest, rfl, hf⟩
    exact lay_of_fills hf ho m v

/-- The walk has one error. -/
theorem lay_eq_err {e : ServerError} (h : lay q xs m v = .err e) :
    e = ⟨"invalid path for parameter extraction"⟩ := by
  fun_induction lay q xs m v with
  | case1 => cases h
  | case2 => cases h
  | case3 n q x xs m v ih => exact ih h
  | case4 q l xs m v ih => exact ih h
  | case5 => cases h; rfl
  | case6 q x xs m v ih => exact ih h
  | case7 l q x xs m v hl ih => exact ih h
  | case8 => cases h
  | case9 => cases h

end Walk

/-! Extraction and its index. -/

/-- The parts after the first. -/
def Path.body (p : Path) : List RoutePart := p.parts.tail

/-- At every part of the request that the loop of `extract` comes to, the index is in range. -/
def Path.IndexInRange (p : Path) (s : String) : Prop :=
  ∀ done part rest st, split (trimEndMatches s '/') '/' = done ++ part :: rest →
    done.foldlM p.extractStep .init = .ok st → st.i < p.parts.length

/-- With a part under the cursor, an iteration cannot panic. -/
theorem extractStep_ne_panic {p : Path} {st : Path.ExtractState} {a : RoutePart} {q : List RoutePart}
    (h : p.parts.drop st.i = a :: q) (part : String) : p.extractStep st part ≠ .panic := by
  obtain ⟨m, v, w, i⟩ := st
  cases w with
  | false =>
    cases a with
    | wildcard => rw [step_wildcard h]; simp
    | param n => rw [step_param h]; simp
    | leader => rw [step_leader h]; simp
    | pathComponent l => rw [step_literal h]; split <;> simp
  | true =>
    simp only [Path.extractStep, Outcome.index_of_drop h, Outcome.ok_bind, if_true]
    cases a with
    | pathComponent l => dsimp only; split <;> simp
    | _ => simp

theorem extractStep_eq_panic {p : Path} {st : Path.ExtractState} {part : String} :
    p.extractStep st part = .panic ↔ p.parts.length ≤ st.i := by
  constructor
  · intro h
    by_contra hlt
    exact extractStep_ne_panic (List.drop_eq_getElem_cons (by omega)) part h
  · intro h
    rw [Path.extractStep, Outcome.index_eq_panic.mpr h]
    rfl

/-- The index stays in range exactly when the loop does not panic. -/
theorem indexInRange_iff {p : Path} {s : String} : p.IndexInRange s ↔
    (split (trimEndMatches s '/') '/').foldlM p.extractStep .init ≠ .panic := by
  rw [ne_eq, Outcome.foldlM_eq_panic]
  constructor
  · intro h ⟨done, part, rest, st, hsplit, hrun, hpanic⟩
    have := h done part rest st hsplit hrun
    rw [extractStep_eq_panic] at hpanic
    omega
  · intro h done part rest st hsplit hrun
    by_contra hlt
    exact h ⟨done, part, rest, st, hsplit, hrun, extractStep_eq_panic.mpr (by omega)⟩

/-- Extraction gives params exactly on the requests that match and can be laid along the pattern. -/
theorem extract_eq_ok {pat : String} {p : Path} (hp : Path.new pat = .ok p) (s : String) :
    (∃ m, p.extract s = .ok m) ↔ p.matches s = .ok true ∧ Laid p.body (rawSegments s '/') := by
  have hnp := matches_ne_panic hp s
  obtain ⟨P, rfl, -⟩ := exists_pattern hp
  by_cases hm : P.path.matches s = .ok true
  · rw [extract_of_matches hm, lay_eq_ok P.walkable]
    simp only [hm, true_and]
    rfl
  · rw [extract_of_not_matches hm hnp]
    simp [hm]

/-- On a request that matches, extraction panics exactly when the request overruns the pattern. -/
theorem extract_eq_panic {P : Pattern} {s : String} (hm : P.path.matches s = .ok true) :
    P.path.extract s = .panic ↔ Overruns P.body (rawSegments s '/') := by
  rw [extract_of_matches hm, lay_eq_panic P.walkable]
  constructor
  · rintro ⟨hbody | hend, done, x, rest, hraw, hf⟩
    · rw [rawSegments_of_matches_root hbody hm] at hraw
      simp at hraw
    · exact ⟨hend, done, x, rest, hraw, hf⟩
  · intro ⟨hend, h⟩
    exact ⟨.inr hend, h⟩

/-- The loop panics exactly when the extraction does. -/
theorem foldlM_eq_panic_iff {P : Pattern} {s : String} (hm : P.path.matches s = .ok true) :
    (split (trimEndMatches s '/') '/').foldlM P.path.extractStep .init = .panic ↔
      P.path.extract s = .panic := by
  obtain ⟨x, hx⟩ := split_eq_cons_rawSegments s '/'
  rw [extract_of_matches_loop hm, hx, ← foldlM_extractStep_init P (x := x), Outcome.bind_eq_panic]
  simp

/-- Extraction has two errors: the other two that its loop can return are out of reach. -/
theorem extract_eq_err {pat : String} {p : Path} (hp : Path.new pat = .ok p) {s : String} {e : ServerError}
    (h : p.extract s = .err e) :
    e = ⟨"route does not match"⟩ ∨ e = ⟨"invalid path for parameter extraction"⟩ := by
  have hnp := matches_ne_panic hp s
  obtain ⟨P, rfl, -⟩ := exists_pattern hp
  by_cases hm : P.path.matches s = .ok true
  · rw [extract_of_matches hm] at h
    exact .inr (lay_eq_err h)
  · rw [extract_of_not_matches hm hnp] at h
    cases h
    exact .inl rfl

theorem ne_panic_iff {p : Path} {s : String} : p.extract s ≠ .panic ↔
    (∃ m, p.extract s = .ok m) ∨ ∃ e, p.extract s = .err e := by
  cases p.extract s <;> simp

/-- **Extraction panics on requests that overrun a wildcard and its literal.** For every
    accepted pattern and every request: `extract` returns params or an error, with
    its index in range at every step of its loop, exactly when it is not the case that
    the comparison admits the request's segments and that the request overruns the
    pattern. -/
theorem extract_returns_iff {pat : String} {p : Path} (hp : Path.new pat = .ok p) (s : String) :
    ((∃ m, p.extract s = .ok m) ∨ ∃ e, p.extract s = .err e) ∧
        (p.matches s = .ok true → p.IndexInRange s) ↔
      ¬(Admits (pathSegments pat) (pathSegments s) ∧ Overruns p.body (rawSegments s '/')) := by
  have hnp := matches_ne_panic hp s
  rw [← matches_eq_true hp]
  obtain ⟨P, rfl, -⟩ := exists_pattern hp
  rw [← ne_panic_iff]
  by_cases hm : P.path.matches s = .ok true
  · rw [indexInRange_iff, ne_eq, ne_eq, foldlM_eq_panic_iff hm, extract_eq_panic hm]
    have hbody : P.path.body = P.body := rfl
    rw [hbody]
    simp only [hm, true_imp_iff, true_and, and_self]
  · rw [extract_of_not_matches hm hnp]
    simp [hm]

/-- `/x/a` fills `/*/a` and stops there. -/
theorem extract_returns_iff_exact_fill :
    (∃ m, Path.extract ⟨[.leader, .wildcard, .pathComponent "a"]⟩ "/x/a" = .ok m) ∨
      ∃ e, Path.extract ⟨[.leader, .wildcard, .pathComponent "a"]⟩ "/x/a" = .err e :=
  ((@extract_returns_iff "/*/a" _ (by decide) "/x/a").mpr fun ⟨_, _, done, x, rest, hraw, hf⟩ => by
    have hlen := congrArg List.length hraw
    rw [show rawSegments "/x/a" '/' = ["x", "a"] by decide] at hlen
    cases hf with
    | wildcard hmid hf =>
      simp only [List.length_cons, List.length_append, List.length_nil] at hlen
      omega).1

/-- `/x/a/b` goes on after it has filled `/*/a`. -/
theorem extract_panics_past_literal :
    Path.new "/*/a" = .ok ⟨[.leader, .wildcard, .pathComponent "a"]⟩ ∧
      Path.extract ⟨[.leader, .wildcard, .pathComponent "a"]⟩ "/x/a/b" = .panic := by
  decide

end DavisJr
