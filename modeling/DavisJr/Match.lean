import DavisJr.Lib.Glob
import DavisJr.Parse

/- What the comparison of a pattern with a request decides. The loop's index is a
   cursor into the pattern: outside a wildcard it moves with the request, and once
   on a wildcard it stays there, since the look-ahead that should leave it is
   guarded by `self.0.len() < i + 1`, which is false for every `i` in range. So
   `eqParts`, a recursion over the two part lists, is what the loop computes
   (`eqLoop_eq`), and the comparison of two parsed paths decides whether the first
   covers the second (`eq_iff_covers`). A wildcard pattern matches every request that
   agrees with the parts before its wildcard, on as many of them as the request has
   (`matches_wildcard`); without a wildcard matching is exact (`matches_plain_exact`). -/
namespace DavisJr
open Lib Lib.Str Lib.Glob

/-- The loop's verdict on one part of the request, outside a wildcard and after the leader. -/
def RoutePart.accepts : RoutePart → RoutePart → Bool
  | .param _, _ => true
  | .pathComponent l, b => b == .pathComponent l
  | .wildcard, _ => true
  | .leader, _ => false

/-- What the comparison computes after the leaders. -/
def eqParts : List RoutePart → List RoutePart → Bool
  | .wildcard :: _, _ => true
  | _, [] => true
  | [], _ :: _ => false
  | a :: q, b :: r => a.accepts b && eqParts q r

theorem eqParts_nil (q : List RoutePart) : eqParts q [] = true := by
  cases q with
  | nil => rfl
  | cons a q => cases a <;> rfl

theorem eqParts_cons {a b : RoutePart} {q r : List RoutePart} (ha : a ≠ .wildcard) :
    eqParts (a :: q) (b :: r) = (a.accepts b && eqParts q r) := by
  cases a with
  | wildcard => exact absurd rfl ha
  | _ => rfl

section Loop
variable {ε : Type} {self : Path} {i : Nat} {q : List RoutePart}

/-- On a wildcard with the flag set, an iteration accepts and changes nothing: the
    look-ahead's guard is false wherever the cursor is in range. -/
theorem eqArm_inside {seen : Bool} (h : self.parts.drop i = .wildcard :: q) (arg : RoutePart) :
    (self.eqArm ⟨i, seen, true⟩ arg : Outcome ε _) = .ok (true, ⟨i, seen, true⟩) := by
  have hlt := Outcome.lt_length_of_drop h
  simp [Path.eqArm, Outcome.index_of_drop h, show ¬self.parts.length < i + 1 by omega]

/-- On a wildcard the cursor stays and every part of the request is accepted. -/
theorem eqLoop_wildcard (h : self.parts.drop i = .wildcard :: q) : ∀ rest : List RoutePart,
    (self.eqLoop ⟨i, true, true⟩ rest : Outcome ε Bool) = .ok true
  | [] => rfl
  | arg :: rest => by
    rw [Path.eqLoop, eqArm_inside h]
    exact eqLoop_wildcard h rest

/-- One step outside a wildcard. -/
theorem eqArm_eq {a : RoutePart} (h : self.parts.drop i = a :: q) (arg : RoutePart) :
    (self.eqArm ⟨i, true, false⟩ arg : Outcome ε _) =
      .ok (a.accepts arg, ⟨i, true, decide (a = .wildcard)⟩) := by
  cases a with
  | pathComponent l =>
    simp only [Path.eqArm, Outcome.index_of_drop h, Outcome.ok_bind, RoutePart.accepts]
    rw [BEq.comm]
    rfl
  | wildcard => simp [Path.eqArm, Outcome.index_of_drop h, RoutePart.accepts]
  | param n => simp [Path.eqArm, Outcome.index_of_drop h, RoutePart.accepts]
  | leader => simp [Path.eqArm, Outcome.index_of_drop h, RoutePart.accepts]

/-- After the leaders, the loop over the request's parts is `eqParts`. Without a
    wildcard ahead, the request must not be longer than what the pattern has left. -/
theorem eqLoop_eq : ∀ (rest : List RoutePart) {i : Nat} {q : List RoutePart},
    self.parts.drop i = q → (.wildcard ∈ q ∨ rest.length ≤ q.length) →
    (self.eqLoop ⟨i, true, false⟩ rest : Outcome ε Bool) = .ok (eqParts q rest)
  | [], i, q, _, _ => by rw [eqParts_nil]; rfl
  | arg :: rest, i, [], _, hw => by simp at hw
  | arg :: rest, i, a :: q, h, hw => by
    rw [Path.eqLoop, eqArm_eq h, Outcome.ok_bind]
    by_cases ha : a = .wildcard
    · subst ha
      simp only [RoutePart.accepts, Bool.not_true, Bool.false_eq_true, if_false, decide_true, eqParts]
      exact eqLoop_wildcard h rest
    · have hrest : .wildcard ∈ q ∨ rest.length ≤ q.length := by
        rcases hw with hw | hw
        · exact .inl ((List.mem_cons.mp hw).resolve_left (Ne.symm ha))
        · exact .inr (by simpa using hw)
      have ih := eqLoop_eq rest (Outcome.drop_succ_of_drop h) hrest
      rw [eqParts_cons ha]
      simp only [ha, decide_false, Bool.not_false, if_true, ih]
      cases a.accepts arg <;> rfl

end Loop

/-- The comparison of two parsed paths: it never panics. -/
theorem eq_path {ε : Type} (P O : Pattern) : (P.path.eq O.path : Outcome ε Bool) =
    .ok (decide (.wildcard ∈ P.body ∨ O.body.length = P.body.length) && eqParts P.body O.body) := by
  have hmem : .wildcard ∈ P.path.parts ↔ .wildcard ∈ P.body := by simp [Pattern.path]
  have hlen : O.path.parts.length ≠ P.path.parts.length ↔ O.body.length ≠ P.body.length := by
    simp [Pattern.path]
  by_cases hw : .wildcard ∈ P.body ∨ O.body.length = P.body.length
  · have hloop : (P.path.eqLoop ⟨0, false, false⟩ O.path.parts : Outcome ε Bool) =
        P.path.eqLoop ⟨1, true, false⟩ O.body := rfl
    have hdrop : P.path.parts.drop 1 = P.body := rfl
    rw [Path.eq, if_neg (by rw [hlen, hmem]; tauto), hloop,
      eqLoop_eq O.body hdrop (hw.imp_right Nat.le_of_eq), decide_eq_true hw]
    rfl
  · rw [Path.eq, if_pos (by rw [hlen, hmem]; tauto), decide_eq_false hw]
    rfl

/-! The comparison in terms of parts. -/

/-- A param agrees with any part, any other part with itself. -/
def PartAgrees : RoutePart → RoutePart → Prop
  | .param _, _ => True
  | .pathComponent l, b => b = .pathComponent l
  | .wildcard, b => b = .wildcard
  | .leader, b => b = .leader

instance : DecidableRel PartAgrees
  | .param _, _ => inferInstanceAs (Decidable True)
  | .pathComponent l, b => inferInstanceAs (Decidable (b = .pathComponent l))
  | .wildcard, b => inferInstanceAs (Decidable (b = .wildcard))
  | .leader, b => inferInstanceAs (Decidable (b = .leader))

/-- The second path is one for the first as a pattern: up to the pattern's first
    wildcard their parts agree at every position that both have, and without a wildcard
    they have as many. -/
structure Covers (p q : Path) : Prop where
  agree : AgreeOn PartAgrees (before .wildcard p.parts) q.parts
  length : .wildcard ∉ p.parts → p.parts.length = q.parts.length

theorem accepts_eq_true {a b : RoutePart} (hw : a ≠ .wildcard) (hl : a ≠ .leader) :
    a.accepts b = true ↔ PartAgrees a b := by
  cases a with
  | wildcard => exact absurd rfl hw
  | leader => exact absurd rfl hl
  | param n => simp [RoutePart.accepts, PartAgrees]
  | pathComponent l => simp [RoutePart.accepts, PartAgrees]

/-- After the leaders the comparison is agreement up to the first wildcard. -/
theorem eqParts_eq_true : ∀ {q r : List RoutePart}, .leader ∉ q → (.wildcard ∈ q ∨ r.length = q.length) →
    (eqParts q r = true ↔ AgreeOn PartAgrees (before .wildcard q) r)
  | q, [], _, _ => by simp [eqParts_nil]
  | [], b :: r, _, h => by simp at h
  | a :: q, b :: r, hq, h => by
    by_cases ha : a = .wildcard
    · subst ha
      simp [eqParts]
    · have hleader : a ≠ .leader := fun he => hq (he ▸ List.mem_cons_self)
      have hrest : .wildcard ∈ q ∨ r.length = q.length := by
        apply h.imp
        · exact fun hw => (List.mem_cons.mp hw).resolve_left (Ne.symm ha)
        · exact fun hl => by simpa using hl
      rw [eqParts_cons ha, Bool.and_eq_true, accepts_eq_true ha hleader,
        eqParts_eq_true (fun hl => hq (List.mem_cons_of_mem a hl)) hrest, before_cons_of_ne ha, agreeOn_cons]

theorem covers_path {P O : Pattern} : Covers P.path O.path ↔
    (.wildcard ∈ P.body ∨ O.body.length = P.body.length) ∧
      AgreeOn PartAgrees (before .wildcard P.body) O.body := by
  have hagree : AgreeOn PartAgrees (before .wildcard P.path.parts) O.path.parts ↔
      AgreeOn PartAgrees (before .wildcard P.body) O.body := by
    rw [Pattern.path, Pattern.path, before_cons_of_ne (by simp), agreeOn_cons]
    exact and_iff_right rfl
  have hlength : (.wildcard ∉ P.path.parts → P.path.parts.length = O.path.parts.length) ↔
      .wildcard ∈ P.body ∨ O.body.length = P.body.length := by
    simp [Pattern.path, or_iff_not_imp_left, eq_comm]
  rw [← hagree, ← hlength]
  exact ⟨fun h => ⟨h.length, h.agree⟩, fun h => ⟨h.2, h.1⟩⟩

/-- The comparison of parsed paths decides whether the first covers the second. -/
theorem eq_iff_covers {ε : Type} {s t : String} {p q : Path} (hp : Path.new s = .ok p)
    (hq : Path.new t = .ok q) : (p.eq q : Outcome ε Bool) = .ok true ↔ Covers p q := by
  obtain ⟨P, rfl, -⟩ := exists_pattern hp
  obtain ⟨O, rfl, -⟩ := exists_pattern hq
  rw [eq_path, covers_path, Outcome.ok.injEq, Bool.and_eq_true, decide_eq_true_eq]
  exact and_congr_right fun h => eqParts_eq_true P.noLeader h

/-! Matching in terms of segments. -/

/-- A pattern segment that is not `*` agrees with a request segment: a `:name` with
    any, a literal with an equal one. -/
def SegAgrees (p x : String) : Prop := startsWith p ':' = true ∨ p = x

instance : DecidableRel SegAgrees := fun p x =>
  inferInstanceAs (Decidable (startsWith p ':' = true ∨ p = x))

/-- The request's own segment is classified too, but no literal is made of a `*` or a
    `:name`, so comparing parts is comparing text. -/
theorem partAgrees_classify {p x : String} (hp : p ≠ "*") :
    PartAgrees (classify p) (classify x) ↔ SegAgrees p x := by
  unfold SegAgrees
  by_cases hc : startsWith p ':' = true
  · rw [classify_eq_param.mpr ⟨hc, rfl⟩]
    simp [PartAgrees, hc]
  · have hf : startsWith p ':' = false := by simpa using hc
    rw [classify_eq_pathComponent.mpr ⟨rfl, hp, hf⟩]
    show classify x = .pathComponent p ↔ _
    rw [classify_eq_pathComponent, or_iff_right hc]
    exact ⟨fun h => h.1.symm, fun h => ⟨h.symm, hp, hf⟩⟩

theorem wildcard_mem_classify {segs : List String} : .wildcard ∈ segs.map classify ↔ "*" ∈ segs := by
  simp [classify_eq_wildcard]

theorem before_wildcard_classify : ∀ segs : List String,
    before .wildcard (segs.map classify) = (before "*" segs).map classify
  | [] => rfl
  | x :: segs => by
    by_cases hx : x = "*"
    · rw [hx, List.map_cons, classify_eq_wildcard.mpr rfl, before_cons_self, before_cons_self]
      rfl
    · rw [List.map_cons, before_cons_of_ne (mt classify_eq_wildcard.mp hx), before_cons_of_ne hx,
        before_wildcard_classify segs, List.map_cons]

/-- The comparison of the parts that segments become. -/
theorem eqParts_classify {ps xs : List String} (h : "*" ∈ ps ∨ xs.length = ps.length) :
    eqParts (ps.map classify) (xs.map classify) = true ↔ AgreeOn SegAgrees (before "*" ps) xs := by
  rw [eqParts_eq_true (leader_not_mem_classify _) (by simpa [wildcard_mem_classify] using h),
    before_wildcard_classify]
  apply agreeOn_map
  intro p hp x
  exact partAgrees_classify fun he => not_mem_before "*" ps (he ▸ hp)

section Matches
variable {pat s : String} {p o : Path}

/-- `matches` on two accepted texts: without `*` they have as many segments, and the
    pattern's agree with the request's up to the first `*`. -/
theorem matches_of_new (hp : Path.new pat = .ok p) (ho : Path.new s = .ok o) : p.matches s =
    .ok (decide (("*" ∈ pathSegments pat ∨ (pathSegments s).length = (pathSegments pat).length) ∧
      AgreeOn SegAgrees (before "*" (pathSegments pat)) (pathSegments s))) := by
  obtain ⟨P, rfl, hP⟩ := exists_pattern hp
  obtain ⟨O, rfl, hO⟩ := exists_pattern ho
  rw [Path.matches, ho]
  simp only [Outcome.ofExcept_ok, Outcome.mapErr_ok, Outcome.ok_bind]
  rw [eq_path, hP, hO, List.length_map, List.length_map, Outcome.ok.injEq, Bool.eq_iff_iff, Bool.and_eq_true,
    decide_eq_true_eq, decide_eq_true_eq, wildcard_mem_classify]
  exact and_congr_right eqParts_classify

/-- A request that the parser refuses is an error for every pattern. -/
theorem matches_of_error {e : ServerError} (ho : Path.new s = .error e) :
    p.matches s = .err (.ofServerError e) := by
  rw [Path.matches, ho]; rfl

/-- `matches` never panics. -/
theorem matches_ne_panic (hp : Path.new pat = .ok p) (s : String) : p.matches s ≠ .panic := by
  cases ho : Path.new s with
  | ok o => rw [matches_of_new hp ho]; simp
  | error e => rw [matches_of_error ho]; simp

/-- A wildcard pattern is compared up to its first `*` only, and only as far as the
    request goes. -/
theorem matches_wildcard {pre post : List String} (hp : Path.new pat = .ok p)
    (ho : Path.new s = .ok o) (hseg : pathSegments pat = pre ++ "*" :: post) (hpre : "*" ∉ pre) :
    p.matches s = .ok (decide (AgreeOn SegAgrees pre (pathSegments s))) := by
  have hstar : "*" ∈ pathSegments pat := by rw [hseg]; simp
  simp only [matches_of_new hp ho, hstar, true_or, true_and]
  rw [hseg, before_append hpre]

/-- A pattern without wildcard is compared position by position. -/
theorem matches_plain (hp : Path.new pat = .ok p) (ho : Path.new s = .ok o)
    (hpat : "*" ∉ pathSegments pat) : p.matches s =
    .ok (decide (List.Forall₂ SegAgrees (pathSegments pat) (pathSegments s))) := by
  rw [matches_of_new hp ho, Outcome.ok.injEq, decide_eq_decide, forall₂_iff_agreeOn,
    before_eq_self hpat, or_iff_right hpat, eq_comm]

/-- The requests that the comparison lets in, by their segments `xs` and those of the
    pattern: the parser accepts them too, they agree with the pattern's up to its first
    `*` at every position that both have, and without `*` they are as many. -/
structure Admits (ps xs : List String) : Prop where
  follows : xs.IsChain Follows
  agree : AgreeOn SegAgrees (before "*" ps) xs
  length : "*" ∉ ps → ps.length = xs.length

/-- Without `*` the segments agree with the pattern's one to one. -/
theorem Admits.forall₂ {ps xs : List String} (h : Admits ps xs) (hps : "*" ∉ ps) :
    List.Forall₂ SegAgrees ps xs := by
  rw [forall₂_iff_agreeOn]
  exact ⟨h.length hps, before_eq_self hps ▸ h.agree⟩

theorem matches_eq_true (hp : Path.new pat = .ok p) :
    p.matches s = .ok true ↔ Admits (pathSegments pat) (pathSegments s) := by
  by_cases hch : (pathSegments s).IsChain Follows
  · rw [matches_of_new hp (new_of_isChain hch), Outcome.ok.injEq, decide_eq_true_eq]
    constructor
    · intro ⟨hlen, ha⟩
      exact ⟨hch, ha, fun hstar => (hlen.resolve_left hstar).symm⟩
    · intro h
      exact ⟨or_iff_not_imp_left.mpr fun hstar => (h.length hstar).symm, h.agree⟩
  · obtain ⟨e, he⟩ := new_of_not_isChain hch
    rw [matches_of_error he]
    exact iff_of_false (by simp) fun h => hch h.follows

end Matches

/-! Wildcard matching against its meaning. -/

/-- **Wildcard matching is not exact.** A pattern with one `*` should match the
    requests that split into a text for what precedes the `*`, one or more segments
    for the `*`, and a text for what follows it. The comparison decides this right
    exactly on the requests that disagree with the pattern before the `*`, and on
    those that are long enough and end in a text for what follows it. -/
theorem matches_wildcard_exact_iff {pat s : String} {p o : Path} {pre post : List String}
    (hpat : startsWith pat '/' = true) (hp : Path.new pat = .ok p)
    (hseg : segments pat '/' = pre ++ "*" :: post) (hpre : "*" ∉ pre)
    (hs : startsWith s '/' = true) (ho : Path.new s = .ok o) :
    (p.matches s = .ok true ↔ Splits SegAgrees pre post (segments s '/')) ↔
      ¬AgreeOn SegAgrees pre (segments s '/') ∨
        pre.length + 1 + post.length ≤ (segments s '/').length ∧
        List.Forall₂ SegAgrees post
          ((segments s '/').drop ((segments s '/').length - post.length)) := by
  rw [← pathSegments_of_startsWith hpat] at hseg
  rw [matches_wildcard hp ho hseg hpre, pathSegments_of_startsWith hs, splits_iff, Outcome.ok.injEq,
    decide_eq_true_eq, iff_self_and, imp_iff_not_or]

/-- A request on which the comparison is right: `/abc/x/y/a` fits `/abc/*/a`. -/
theorem matches_wildcard_exact_iff_fitting :
    Path.matches ⟨[.leader, .pathComponent "abc", .wildcard, .pathComponent "a"]⟩ "/abc/x/y/a" = .ok true ↔
      Splits SegAgrees ["abc"] ["a"] (segments "/abc/x/y/a" '/') :=
  (@matches_wildcard_exact_iff "/abc/*/a" "/abc/x/y/a" _
    ⟨[.leader, .pathComponent "abc", .pathComponent "x", .pathComponent "y", .pathComponent "a"]⟩ _ _
    (by decide) (by decide) (by decide) (by decide) (by decide) (by decide)).mpr (by decide)

/-- `/abc/x/b` matches `/abc/*/a`: what follows the `*` is not compared. -/
theorem matches_ignores_suffix :
    Path.new "/abc/*/a" = .ok ⟨[.leader, .pathComponent "abc", .wildcard, .pathComponent "a"]⟩ ∧
      Path.new "/abc/x/b" = .ok ⟨[.leader, .pathComponent "abc", .pathComponent "x", .pathComponent "b"]⟩ ∧
      segments "/abc/*/a" '/' = ["abc"] ++ "*" :: ["a"] ∧
      Path.matches ⟨[.leader, .pathComponent "abc", .wildcard, .pathComponent "a"]⟩ "/abc/x/b" = .ok true ∧
      ¬Splits SegAgrees ["abc"] ["a"] (segments "/abc/x/b" '/') := by
  rw [splits_iff]
  decide

/-! Matching without a wildcard. -/

/-- **Matching is exact without a wildcard.** A pattern without `*` matches a request that
    the parser accepts exactly when both have the same number of segments and every
    segment of the pattern that is no `:name` equals the request's at its position. -/
theorem matches_plain_exact {pat s : String} {p o : Path} (hpat : startsWith pat '/' = true)
    (hp : Path.new pat = .ok p) (hstar : "*" ∉ segments pat '/') (hs : startsWith s '/' = true)
    (ho : Path.new s = .ok o) : p.matches s = .ok true ↔
      (segments pat '/').length = (segments s '/').length ∧
        ∀ (i : Nat) (y x : String), (segments pat '/')[i]? = some y → (segments s '/')[i]? = some x →
          startsWith y ':' = false → y = x := by
  have hps := pathSegments_of_startsWith hpat
  rw [← hps] at hstar ⊢
  rw [← pathSegments_of_startsWith hs, matches_plain hp ho hstar, Outcome.ok.injEq, decide_eq_true_eq,
    forall₂_iff_agreeOn, agreeOn_iff_getElem?]
  have hagrees : ∀ y x, SegAgrees y x ↔ (startsWith y ':' = false → y = x) := by
    intro y x
    rw [SegAgrees, or_iff_not_imp_left, Bool.not_eq_true]
  simp only [hagrees]

/-- The request's own `:x` is a text like any other: it is one for `:y`. -/
theorem matches_plain_exact_text :
    Path.matches ⟨[.leader, .pathComponent "abc", .param "y"]⟩ "/abc/:x" = .ok true := by
  refine (@matches_plain_exact "/abc/:y" "/abc/:x" _ ⟨[.leader, .pathComponent "abc", .param "x"]⟩
    (by decide) (by decide) (by decide) (by decide) (by decide)).mpr ⟨by decide, ?_⟩
  rw [show segments "/abc/:y" '/' = ["abc", ":y"] by decide, show segments "/abc/:x" '/' = ["abc", ":x"] by decide]
  intro i y x hy hx hc
  rcases i with _ | _ | i
  · cases hy
    cases hx
    rfl
  · cases hy
    exact absurd hc (by decide)
  · cases hy

end DavisJr
