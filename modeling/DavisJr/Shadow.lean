import DavisJr.Lib.First
import DavisJr.Lib.Mask
import DavisJr.Dispatch
import DavisJr.Fill

/- The table of routes as a whole. What the comparison looks at in a pattern is a mask
   (`Path.mask`), and the requests that a pattern lets in are the chains of segments
   that its mask accepts (`matches_iff_accepts`). So it can be read off the patterns
   whether one lets in all that another does (`subsumes_iff_covers`), whether a route can
   ever be reached behind those registered before it (`dead_route_iff`), and whether the
   order of the registrations counts (`order_irrelevant_iff`). Requests are those with a
   path that a URI can have, so the patterns are written in its characters (`InUri`). -/
namespace DavisJr
open Lib Lib.Str Lib.Glob Lib.Mask

/-- The text that a part asks for, if it asks for one. -/
def RoutePart.cell : RoutePart → Option String
  | .pathComponent l => some l
  | _ => none

theorem RoutePart.cell_eq_some {a : RoutePart} {l : String} : a.cell = some l ↔ a = .pathComponent l := by
  cases a <;> simp [RoutePart.cell]

/-- What the comparison looks at: the parts between the leader and the first wildcard. -/
def Path.mask (p : Path) : Mask String :=
  ⟨(before .wildcard p.parts.tail).map RoutePart.cell, decide (.wildcard ∈ p.parts)⟩

section Mask
variable {pat s : String} {p q : Path}

/-- The mask of an accepted pattern, read off its segments. -/
theorem mask_of_new (hp : Path.new pat = .ok p) :
    p.mask = ⟨(before "*" (pathSegments pat)).map fun x => (classify x).cell, decide ("*" ∈ pathSegments pat)⟩ := by
  obtain ⟨P, rfl, hP⟩ := exists_pattern hp
  have hcells : before .wildcard P.path.parts.tail = (before "*" (pathSegments pat)).map classify := by
    rw [Pattern.path, List.tail_cons, hP, before_wildcard_classify]
  have hmem : .wildcard ∈ P.path.parts ↔ "*" ∈ pathSegments pat := by
    rw [Pattern.path, List.mem_cons, or_iff_right (by simp), hP, wildcard_mem_classify]
  rw [Path.mask, hcells, List.map_map, decide_eq_decide.mpr hmem]
  rfl

/-- What a segment's cell takes is what agrees with the segment. -/
theorem fits_cell {x y : String} (hx : x ≠ "*") : Fits (classify x).cell y ↔ SegAgrees x y := by
  unfold Fits SegAgrees
  by_cases hc : startsWith x ':' = true
  · rw [classify_eq_param.mpr ⟨hc, rfl⟩]
    simp [RoutePart.cell, hc]
  · rw [classify_eq_pathComponent.mpr ⟨rfl, hx, by simpa using hc⟩]
    simp [RoutePart.cell, hc]

theorem cells_of_new (hp : Path.new pat = .ok p) :
    p.mask.cells = (before "*" (pathSegments pat)).map fun x => (classify x).cell := by
  rw [mask_of_new hp]

/-- The segments that agree with the cells of a pattern's mask. -/
theorem agreeOn_mask {xs : List String} (hp : Path.new pat = .ok p) :
    AgreeOn Fits p.mask.cells xs ↔ AgreeOn SegAgrees (before "*" (pathSegments pat)) xs := by
  rw [cells_of_new hp]
  have hcell : ∀ x ∈ before "*" (pathSegments pat), ∀ y, Fits (classify x).cell (id y) ↔ SegAgrees x y :=
    fun x hx y => fits_cell fun he => not_mem_before "*" _ (he ▸ hx)
  have hmap := @agreeOn_map _ _ _ _ _ _ _ id _ xs hcell
  rwa [List.map_id] at hmap

/-- The requests that a pattern lets in are those whose segments its mask accepts,
    if the parser takes them for a path at all. -/
theorem matches_iff_accepts (hp : Path.new pat = .ok p) : p.matches s = .ok true ↔
    (pathSegments s).IsChain Follows ∧ p.mask.Accepts (pathSegments s) := by
  have hlength : (p.mask.isOpen = false → p.mask.cells.length = (pathSegments s).length) ↔
      ("*" ∉ pathSegments pat → (pathSegments pat).length = (pathSegments s).length) := by
    rw [mask_of_new hp, decide_eq_false_iff_not]
    apply forall_congr'
    intro hstar
    rw [List.length_map, before_eq_self hstar]
  rw [matches_eq_true hp]
  constructor
  · intro h
    exact ⟨h.follows, (agreeOn_mask hp).mpr h.agree, hlength.mpr h.length⟩
  · intro ⟨hch, h⟩
    exact ⟨hch, (agreeOn_mask hp).mp h.agree, hlength.mp h.length⟩

/-- Extraction from a request that matches is the walk along the pattern. -/
theorem extract_eq_lay (hp : Path.new pat = .ok p) (hm : p.matches s = .ok true) :
    p.extract s = lay p.body (rawSegments s '/') ∅ [] := by
  obtain ⟨P, rfl, -⟩ := exists_pattern hp
  exact extract_of_matches hm

/-- The literals of an accepted pattern are values. -/
theorem isValue_of_mem_body {x : String} (hp : Path.new pat = .ok p)
    (hx : .pathComponent x ∈ p.body) : IsValue x := by
  obtain ⟨P, rfl, hP⟩ := exists_pattern hp
  have hbody : P.path.body = (pathSegments pat).map classify := hP
  rw [hbody] at hx
  obtain ⟨y, hy, hc⟩ := List.mem_map.mp hx
  obtain ⟨rfl, hne, -⟩ := classify_eq_pathComponent.mp hc
  exact ⟨mem_pathSegments hy, hne⟩

/-- The literals of a pattern can stand in the path of a request. -/
def Path.InUri (uri : UriPaths) (p : Path) : Prop := ∀ l ∈ p.parts.filterMap RoutePart.cell, uri.Holds l

instance (p : Path) : Decidable (p.InUri .pathChars) :=
  decidable_of_iff ((p.parts.filterMap RoutePart.cell).all (fun l => decide (UriPaths.pathChars.Holds l)) = true) <| by
    simp only [List.all_eq_true, decide_eq_true_eq]
    rfl

theorem Path.inUri_any (p : Path) : p.InUri .any := fun _ _ _ _ => trivial

theorem Path.InUri.holds {uri : UriPaths} (h : p.InUri uri) {l : String} (hl : .pathComponent l ∈ p.parts) :
    uri.Holds l := h l (List.mem_filterMap.mpr ⟨_, hl, rfl⟩)

/-- A value that can stand in the path of a request. -/
def IsUriValue (uri : UriPaths) (x : String) : Prop := IsValue x ∧ uri.Holds x

variable {uri : UriPaths}

theorem isUriValue_of_mem_body {x : String} (hp : Path.new pat = .ok p) (hin : p.InUri uri)
    (hx : .pathComponent x ∈ p.body) : IsUriValue uri x :=
  ⟨isValue_of_mem_body hp hx, hin.holds (List.mem_of_mem_tail hx)⟩

theorem isUriValue_of_mem_mask {y : String} (hp : Path.new pat = .ok p) (hin : p.InUri uri)
    (hy : some y ∈ p.mask.cells) : IsUriValue uri y := by
  obtain ⟨a, ha, hcell⟩ := List.mem_map.mp hy
  have hbody : a ∈ p.body := (List.takeWhile_prefix _).subset ha
  rw [RoutePart.cell_eq_some.mp hcell] at hbody
  exact isUriValue_of_mem_body hp hin hbody

/-- There are such values without end. -/
theorem infinite_isUriValue (uri : UriPaths) : {x : String | IsUriValue uri x}.Infinite := by
  apply Set.infinite_of_injective_forall_mem (f := fun n : Nat => String.ofList (List.replicate (n + 1) 'a'))
  · intro m n h
    have hlen := congrArg (fun s : String => s.toList.length) h
    simpa using hlen
  · intro n
    have hne : String.ofList (List.replicate (n + 1) 'a') ≠ "*" := by
      intro h
      have hlist := congrArg String.toList h
      rw [String.toList_ofList, List.replicate_succ] at hlist
      exact absurd (List.cons.inj hlist).1 (by decide)
    refine ⟨⟨⟨fun h => ?_, ?_⟩, hne⟩, fun c hc => ?_⟩
    · rw [String.ofList_eq_empty_iff] at h
      cases h
    · rw [String.toList_ofList, List.mem_replicate]
      rintro ⟨-, h⟩
      cases h
    · rw [String.toList_ofList] at hc
      rw [List.eq_of_mem_replicate hc]
      exact uri.letter 'a' (by decide)

/-- They are the segments of a request, which also has no others. -/
theorem exists_request {xs : List String} (h : ∀ x ∈ xs, IsUriValue uri x) :
    ∃ s, uri.IsPath s ∧ pathSegments s = xs ∧ rawSegments s '/' = xs :=
  ⟨slashed xs '/' 0, UriPaths.isPath_slashed fun x hx => (h x hx).2,
    (request_of_values fun x hx => (h x hx).1).2⟩

/-- The segments that requests are made of: those of such values are among them. -/
def IsRequest (uri : UriPaths) (xs : List String) : Prop :=
  xs.IsChain Follows ∧ ∃ s, uri.IsPath s ∧ pathSegments s = xs

theorem isRequest_of_values {xs : List String} (h : ∀ x ∈ xs, IsUriValue uri x) : IsRequest uri xs := by
  obtain ⟨s, hs, hseg, -⟩ := exists_request h
  exact ⟨isChain_of_values fun x hx => (h x hx).1, s, hs, hseg⟩

/-- Several patterns let in all that one does only if one of them does. -/
theorem covered_by_iff {ps : List Path} (hps : ∀ p ∈ ps, ∃ pat, Path.new pat = .ok p) (hq : Path.new pat = .ok q)
    (hin : q.InUri uri) : (∀ s, uri.IsPath s → q.matches s = .ok true → ∃ p ∈ ps, p.matches s = .ok true) ↔
      ∃ p ∈ ps, Subsumes p.mask q.mask := by
  have hcov := @covered_iff String q.mask _ (IsRequest uri) (infinite_isUriValue uri) (fun _ => isRequest_of_values)
    (fun y hy => isUriValue_of_mem_mask hq hin hy) (ps.map Path.mask)
  simp only [List.mem_map, exists_exists_and_eq_and] at hcov
  rw [← hcov]
  constructor
  · rintro h xs ⟨hch, s, hs, rfl⟩ hacc
    obtain ⟨p, hp, hm⟩ := h s hs ((matches_iff_accepts hq).mpr ⟨hch, hacc⟩)
    obtain ⟨pat, hpat⟩ := hps p hp
    exact ⟨p, hp, ((matches_iff_accepts hpat).mp hm).2⟩
  · intro h s hs hm
    obtain ⟨hch, hacc⟩ := (matches_iff_accepts hq).mp hm
    obtain ⟨p, hp, hacc⟩ := h _ ⟨hch, s, hs, rfl⟩ hacc
    obtain ⟨pat, hpat⟩ := hps p hp
    exact ⟨p, hp, (matches_iff_accepts hpat).mpr ⟨hch, hacc⟩⟩

/-- Two patterns let in a request in common exactly when their masks overlap. -/
theorem both_match_iff {pat' : String} (hp : Path.new pat = .ok p) (hq : Path.new pat' = .ok q)
    (hpin : p.InUri uri) (hqin : q.InUri uri) :
    (∃ s, uri.IsPath s ∧ p.matches s = .ok true ∧ q.matches s = .ok true) ↔ Overlaps p.mask q.mask := by
  rw [← overlaps_iff (infinite_isUriValue uri).nonempty (fun _ => isRequest_of_values)
    (fun y hy => isUriValue_of_mem_mask hp hpin hy) (fun y hy => isUriValue_of_mem_mask hq hqin hy)]
  constructor
  · intro ⟨s, hs, hps, hqs⟩
    obtain ⟨hch, hacc⟩ := (matches_iff_accepts hp).mp hps
    exact ⟨_, ⟨hch, s, hs, rfl⟩, hacc, ((matches_iff_accepts hq).mp hqs).2⟩
  · rintro ⟨xs, ⟨hch, s, hs, rfl⟩, hpx, hqx⟩
    exact ⟨s, hs, (matches_iff_accepts hp).mpr ⟨hch, hpx⟩, (matches_iff_accepts hq).mpr ⟨hch, hqx⟩⟩

end Mask

/-! `==` on patterns. -/

/-- The comparison of parts is that of what they ask for. -/
theorem partAgrees_iff_looser {a b : RoutePart} (hw : a ≠ .wildcard) (hl : a ≠ .leader) :
    PartAgrees a b ↔ Looser a.cell b.cell := by
  cases a with
  | wildcard => exact absurd rfl hw
  | leader => exact absurd rfl hl
  | param n => exact iff_of_true trivial (.inl rfl)
  | pathComponent l =>
    cases b <;> simp [PartAgrees, Looser, RoutePart.cell, eq_comm]

theorem mask_path (P : Pattern) :
    P.path.mask = ⟨(before .wildcard P.body).map RoutePart.cell, decide (.wildcard ∈ P.body)⟩ := by
  have hmem : .wildcard ∈ P.path.parts ↔ .wildcard ∈ P.body := by simp [Pattern.path]
  rw [Path.mask, decide_eq_decide.mpr hmem]
  rfl

/-- One pattern covers another exactly when its mask is looser than all parts of the other. -/
theorem covers_iff_looser {P O : Pattern} : Covers P.path O.path ↔
    (.wildcard ∈ P.body ∨ O.body.length = P.body.length) ∧
      AgreeOn Looser P.path.mask.cells (O.body.map RoutePart.cell) := by
  rw [covers_path, mask_path]
  apply and_congr_right
  intro _
  refine (agreeOn_map ?_).symm
  intro a ha b
  have hw : a ≠ .wildcard := fun h => not_mem_before _ _ (h ▸ ha)
  have hl : a ≠ .leader := fun h => P.noLeader (h ▸ (List.takeWhile_prefix _).subset ha)
  exact (partAgrees_iff_looser hw hl).symm

/-- Up to its first wildcard a pattern's cells are those of its parts. -/
theorem getElem?_cells {O : Pattern} {i : Nat} (hi : i < O.path.mask.cells.length) :
    (O.body.map RoutePart.cell)[i]? = O.path.mask.cells[i]? := by
  rw [mask_path] at hi ⊢
  obtain ⟨rest, hrest⟩ := List.takeWhile_prefix (p := (· ≠ RoutePart.wildcard)) (l := O.body)
  have hsplit : O.body.map RoutePart.cell =
      (before .wildcard O.body).map RoutePart.cell ++ rest.map RoutePart.cell := by
    rw [← List.map_append]
    exact congrArg _ hrest.symm
  rw [hsplit, List.getElem?_append_left hi]

/-- Without a wildcard they are all of them. -/
theorem length_cells {O : Pattern} (h : .wildcard ∉ O.body) : O.path.mask.cells.length = O.body.length := by
  rw [mask_path, List.length_map, before_eq_self h]

/-- What `==` leaves out: it compares with the other pattern's wildcard, and with what
    comes after it, as with any part. -/
theorem subsumes_iff_covers {P O : Pattern} : Subsumes P.path.mask O.path.mask ↔
    Covers P.path O.path ∧ (.wildcard ∈ O.body → .wildcard ∈ P.body ∧
      ∀ c ∈ P.path.mask.cells.drop O.path.mask.cells.length, c = none) := by
  have hopen : ∀ Q : Pattern, Q.path.mask.isOpen = decide (.wildcard ∈ Q.body) := fun Q => by rw [mask_path]
  rw [covers_iff_looser]
  constructor
  · intro h
    have hclosed : .wildcard ∉ P.body → .wildcard ∉ O.body ∧ O.body.length = P.body.length := by
      intro hP
      obtain ⟨hO, hlen⟩ := h.length (by rw [hopen, decide_eq_false hP])
      rw [hopen, decide_eq_false_iff_not] at hO
      rw [length_cells hP, length_cells hO] at hlen
      exact ⟨hO, hlen.symm⟩
    refine ⟨⟨or_iff_not_imp_left.mpr fun hP => (hclosed hP).2, agreeOn_iff_getElem?.mpr ?_⟩, fun hO => ⟨?_, ?_⟩⟩
    · intro i c d hc hd
      by_cases hi : i < O.path.mask.cells.length
      · rw [getElem?_cells hi] at hd
        exact agreeOn_iff_getElem?.mp h.agree i c d hc hd
      · -- from the other's wildcard on the mask asks for nothing
        have hO : .wildcard ∈ O.body := by
          by_contra hO
          have := (List.getElem?_eq_some_iff.mp hd).1
          rw [List.length_map, ← length_cells hO] at this
          exact hi this
        refine .inl (h.beyond (by rw [hopen, decide_eq_true hO]) c ?_)
        apply List.mem_of_getElem? (i := i - O.path.mask.cells.length)
        rw [List.getElem?_drop, Nat.add_sub_cancel' (by omega), hc]
    · by_contra hP
      exact (hclosed hP).1 hO
    · exact h.beyond (by rw [hopen, decide_eq_true hO])
  · intro ⟨⟨hlen, hagree⟩, hbeyond⟩
    refine ⟨agreeOn_iff_getElem?.mpr ?_, fun hO => ?_, fun hP => ?_⟩
    · intro i c d hc hd
      rw [← getElem?_cells (List.getElem?_eq_some_iff.mp hd).1] at hd
      exact agreeOn_iff_getElem?.mp hagree i c d hc hd
    · rw [hopen, decide_eq_true_eq] at hO
      exact (hbeyond hO).2
    · rw [hopen, decide_eq_false_iff_not] at hP
      have hO : .wildcard ∉ O.body := fun hO => hP (hbeyond hO).1
      refine ⟨by rw [hopen, decide_eq_false hO], ?_⟩
      rw [length_cells hP, length_cells hO]
      exact (hlen.resolve_left hP).symm

/-- **`==` against its meaning.** For all accepted patterns: the first lets in every request
    that the second does exactly when the two are equal by `==` and, where the second has
    a wildcard, so has the first, with nothing but params between the place of the
    second's and its own. -/
theorem eq_lets_in_iff {pat pat' : String} {p q : Path} (hp : Path.new pat = .ok p) (hq : Path.new pat' = .ok q) :
    (∀ s, q.matches s = .ok true → p.matches s = .ok true) ↔
      (p.eq q : Outcome Error Bool) = .ok true ∧ (.wildcard ∈ q.parts → .wildcard ∈ p.parts ∧
        ∀ c ∈ p.mask.cells.drop q.mask.cells.length, c = none) := by
  have hcov := @covered_by_iff pat' q .any [p] (by simpa using ⟨pat, hp⟩) hq q.inUri_any
  simp only [List.mem_singleton, exists_eq_left] at hcov
  have hany : (∀ s, q.matches s = .ok true → p.matches s = .ok true) ↔
      ∀ s, UriPaths.any.IsPath s → q.matches s = .ok true → p.matches s = .ok true :=
    ⟨fun h s _ => h s, fun h s => h s trivial⟩
  rw [hany, hcov, eq_iff_covers hp hq]
  obtain ⟨P, rfl, -⟩ := exists_pattern hp
  obtain ⟨O, rfl, -⟩ := exists_pattern hq
  rw [subsumes_iff_covers]
  simp [Pattern.path]

/-- `/a/*` is equal to `/a/b`, and lets in what it does; so the two sides hold. -/
theorem eq_lets_in_iff_literal : (∀ s, Path.matches ⟨[.leader, .pathComponent "a", .pathComponent "b"]⟩ s = .ok true →
      Path.matches ⟨[.leader, .pathComponent "a", .wildcard]⟩ s = .ok true) ↔
    (Path.eq ⟨[.leader, .pathComponent "a", .wildcard]⟩ ⟨[.leader, .pathComponent "a", .pathComponent "b"]⟩ :
        Outcome Error Bool) = .ok true ∧ (.wildcard ∈ [RoutePart.leader, .pathComponent "a", .pathComponent "b"] →
      .wildcard ∈ [RoutePart.leader, .pathComponent "a", .wildcard] ∧
        ∀ c ∈ (Path.mask ⟨[.leader, .pathComponent "a", .wildcard]⟩).cells.drop
          (Path.mask ⟨[.leader, .pathComponent "a", .pathComponent "b"]⟩).cells.length, c = none) :=
  @eq_lets_in_iff "/a/*" "/a/b" _ _ (by decide) (by decide)

/-! Routes that are never reached. -/

section Table
variable {F B A S T : Type} {routes pre post : List (Route F)} {r : Route F}

/-- The routes of a run of registrations have parsed paths. -/
def ParsedRoutes (routes : List (Route F)) : Prop := ∀ r ∈ routes, ∃ pat, Path.new pat = .ok r.path

theorem parsed_registered (rs : List (Registration F)) : ParsedRoutes (rs.filterMap Registration.route?) :=
  fun _ hr => path_of_mem_routes hr

/-- The route at a place of the table, and those before it. -/
theorem parsed_append {post : List (Route F)} (h : ParsedRoutes (pre ++ r :: post)) :
    (∃ pat, Path.new pat = .ok r.path) ∧ ParsedRoutes pre :=
  ⟨h r (by simp), fun r' hr' => h r' (List.mem_append_left _ hr')⟩

/-- A request with the method and the path. -/
def Request.of [Inhabited B] (method : Method) (path : String) : Request B := ⟨method, path, .empty, default⟩

/-- No request comes past others to a route exactly when one of them has its method and a
    mask that subsumes its own. -/
theorem dead_iff [Inhabited B] {uri : UriPaths} (hpre : ParsedRoutes pre) {pat : String}
    (hr : Path.new pat = .ok r.path) (hin : r.path.InUri uri) :
    (∀ req : Request B, uri.IsPath req.path → r.Selects req → ∃ r' ∈ pre, r'.Selects req) ↔
      ∃ r' ∈ pre, r'.method = r.method ∧ Subsumes r'.path.mask r.path.mask := by
  have hcov := @covered_by_iff pat r.path uri ((pre.filter (·.method = r.method)).map Route.path) ?_ hr hin
  · simp only [List.mem_map, List.mem_filter, decide_eq_true_eq, exists_exists_and_eq_and] at hcov
    constructor
    · intro h
      obtain ⟨r', ⟨hmem, hmethod⟩, hsub⟩ := hcov.mp fun s hs hm => by
        obtain ⟨r', hmem, hm', hmethod⟩ := h (Request.of r.method s) hs ⟨hm, rfl⟩
        exact ⟨r', ⟨hmem, hmethod⟩, hm'⟩
      exact ⟨r', hmem, hmethod, hsub⟩
    · intro ⟨r', hmem, hmethod, hsub⟩ req hs ⟨hm, hreq⟩
      obtain ⟨r'', ⟨hmem, hmethod⟩, hm⟩ := hcov.mpr ⟨r', ⟨hmem, hmethod⟩, hsub⟩ req.path hs hm
      exact ⟨r'', hmem, hm, hmethod.trans hreq⟩
  · intro p hp
    obtain ⟨r', hr', rfl⟩ := List.mem_map.mp hp
    exact hpre r' (List.mem_filter.mp hr').1

/-- The order does not matter to a request that one route at most selects. -/
theorem find?_selects_of_perm {routes' : List (Route F)} {req : Request B} (hp : routes.Perm routes')
    (huniq : ∀ r ∈ routes, ∀ r' ∈ routes, r.Selects req → r'.Selects req → r = r') :
    (routes'.find? fun r => r.Selects req) = routes.find? fun r => r.Selects req := by
  apply @First.find?_eq_of_perm (Route F) (Request B) (fun req r => decide (r.Selects req)) routes routes' req hp
  intro r hr r' hr' hsel hsel'
  exact huniq r hr r' hr' (of_decide_eq_true hsel) (of_decide_eq_true hsel')

variable [TransientState T] (call : F → HandlerFunc B A T) (req : Request B) (app : A)

/-- A request path that the parser refuses fails at the first route. -/
theorem dispatch_of_error {e : ServerError} (he : Path.new req.path = .error e) (r : Route F)
    (routes : List (Route F)) :
    Router.dispatch call ⟨r :: routes⟩ req app = Traced.lift (.err (.ofServerError e)) := by
  rw [Router.dispatch, Router.dispatchLoop, matches_of_error he, Traced.lift_err_bind]

/-- Two tables of parsed routes, both with routes or both without, that find the same
    first route for a request answer it alike. -/
theorem dispatch_congr {routes' : List (Route F)} (h : ParsedRoutes routes) (h' : ParsedRoutes routes')
    (hnil : routes = [] ↔ routes' = [])
    (hfind : (routes.find? fun r => r.Selects req) = routes'.find? fun r => r.Selects req) :
    Router.dispatch call ⟨routes⟩ req app = Router.dispatch call ⟨routes'⟩ req app := by
  have hok : ∀ {o : Path} {l : List (Route F)}, Path.new req.path = .ok o → ParsedRoutes l →
      ∀ r ∈ l, ∃ b, r.path.matches req.path = .ok b := by
    intro o l ho hl r hr
    obtain ⟨pat, hpat⟩ := hl r hr
    exact ⟨_, matches_of_new hpat ho⟩
  cases ho : Path.new req.path with
  | ok o =>
    rw [Router.dispatch, Router.dispatch, dispatchLoop_eq (hok ho h), dispatchLoop_eq (hok ho h'), hfind]
  | error e =>
    cases routes with
    | nil => rw [hnil.mp rfl]
    | cons r routes =>
      obtain ⟨r', routes', rfl⟩ := List.exists_cons_of_ne_nil fun hn => List.cons_ne_nil r routes (hnil.mpr hn)
      rw [dispatch_of_error call req app ho, dispatch_of_error call req app ho]

end Table

/-! The dispatch of an app, by the route that is selected first. -/

section Dispatch
variable {F B S T : Type} [TransientState T] (call : F → HandlerFunc B (App F S) T) (start : Option S)
  {rs : List (Registration F)} {pre post : List (Route F)} {r : Route F}

/-- The router's answer comes from the parser, or is 405, or is that of the first route selected. -/
theorem dispatch_cases (rs : List (Registration F)) (req : Request B) :
    let app := (App.start start).registerAll rs
    (∃ e, Path.new req.path = .error e ∧ app.router.dispatch call req app = Traced.lift (.err (.ofServerError e))) ∨
      app.router.dispatch call req app = Traced.lift (.err (.statusCode .methodNotAllowed "")) ∨
      ∃ pre r post, app.router.routes = pre ++ r :: post ∧ r.Selects req ∧ (∀ r' ∈ pre, ¬r'.Selects req) ∧
        app.router.dispatch call req app = r.dispatch call req.path req app TransientState.initial >>=
          fun t => Traced.lift (respond t) := by
  intro app
  have hroutes : app.router.routes = rs.filterMap Registration.route? := routes_registered start rs
  cases ho : Path.new req.path with
  | error e =>
    rw [Router.dispatch, hroutes]
    cases hl : rs.filterMap Registration.route? with
    | nil => exact .inr (.inl rfl)
    | cons r routes => exact .inl ⟨e, rfl, dispatch_of_error call req app ho r routes⟩
  | ok o =>
    cases hfind : (rs.filterMap Registration.route?).find? fun r => r.Selects req with
    | none => exact .inr (.inl (dispatch_registered_none call start ho hfind))
    | some r =>
      obtain ⟨hsel, pre, post, hsplit, hbefore⟩ := List.find?_eq_some_iff_append.mp hfind
      refine .inr (.inr ⟨pre, r, post, hroutes.trans hsplit, of_decide_eq_true hsel, fun r' hr' hsel' => ?_,
        dispatch_registered call start ho hfind⟩)
      simpa [hsel'] using hbefore r' hr'

/-- A request that gets past the routes before is answered by the route that selects it. -/
theorem dispatch_of_past {req : Request B} (hsplit : rs.filterMap Registration.route? = pre ++ r :: post)
    (hsel : r.Selects req) (hbefore : ∀ r' ∈ pre, ¬r'.Selects req) :
    ((App.start start).registerAll rs).router.dispatch call req ((App.start start).registerAll rs) =
      r.dispatch call req.path req ((App.start start).registerAll rs) TransientState.initial >>=
        fun t => Traced.lift (respond t) := by
  have hfind : ((rs.filterMap Registration.route?).find? fun r => r.Selects req) = some r := by
    rw [List.find?_eq_some_iff_append]
    exact ⟨decide_eq_true hsel, pre, post, hsplit, fun r' hr' => by simpa using hbefore r' hr'⟩
  cases ho : Path.new req.path with
  | error e =>
    have hm := hsel.1
    rw [matches_of_error ho] at hm
    cases hm
  | ok o => exact dispatch_registered call start ho hfind

end Dispatch

/-! Apps that nobody can tell apart. -/

section Routing
variable {F B S T : Type}

/-- The apps have the same state and send every request to the same route. -/
structure App.SameRouting (B : Type) (app app' : App F S) : Prop where
  state : app.globalState = app'.globalState
  /-- Without any route a path that the parser refuses is no error. -/
  empty : app.router.routes = [] ↔ app'.router.routes = []
  first : ∀ req : Request B, (app.router.routes.find? fun r => r.Selects req) =
    app'.router.routes.find? fun r => r.Selects req

/-- The handlers make no difference between such apps: the router is private, and what is public
    of an app is its state and what it answers. -/
def RespectsRouting (call : F → HandlerFunc B (App F S) T) : Prop :=
  ∀ app app', App.SameRouting B app app' → ∀ f req response params state,
    call f req response params app state = call f req response params app' state

/-- Then they are called alike, and the answer is the same. -/
theorem dispatch_congr_routing [HttpBody B] [TransientState T] {call : F → HandlerFunc B (App F S) T}
    (hcall : RespectsRouting call) {app app' : App F S} (h : App.SameRouting B app app')
    (hparsed : ParsedRoutes app.router.routes) (hparsed' : ParsedRoutes app'.router.routes) (req : Request B) :
    (app.dispatch call req).mapLog Call.withoutApp = (app'.dispatch call req).mapLog Call.withoutApp := by
  have hrouter : app.router.dispatch call req app = app'.router.dispatch call req app :=
    dispatch_congr call req app hparsed hparsed' h.empty (h.first req)
  have happ : (app'.router.dispatch call req app).mapLog Call.withoutApp =
      (app'.router.dispatch call req app').mapLog Call.withoutApp :=
    dispatchLoop_congr_app (hcall app app' h) app'.router.routes
  rw [App.dispatch, App.dispatch, Traced.mapLog_recover, Traced.mapLog_recover, hrouter, happ]

theorem parsed_registerAll (start : Option S) (rs : List (Registration F)) :
    ParsedRoutes ((App.start start : App F S).registerAll rs).router.routes := by
  rw [routes_registered]
  exact parsed_registered rs

/-- Runs of registrations from one state leave apps that nobody tells apart, if their routes are
    selected alike. -/
theorem dispatch_congr_registered [HttpBody B] [TransientState T] {call : F → HandlerFunc B (App F S) T}
    (hcall : RespectsRouting call) (start : Option S) {rs rs' : List (Registration F)}
    (hempty : rs.filterMap Registration.route? = [] ↔ rs'.filterMap Registration.route? = [])
    (hfirst : ∀ req : Request B, ((rs.filterMap Registration.route?).find? fun r => r.Selects req) =
      (rs'.filterMap Registration.route?).find? fun r => r.Selects req) (req : Request B) :
    (((App.start start).registerAll rs).dispatch call req).mapLog Call.withoutApp =
      (((App.start start).registerAll rs').dispatch call req).mapLog Call.withoutApp := by
  apply dispatch_congr_routing hcall _ (parsed_registerAll start rs) (parsed_registerAll start rs') req
  refine ⟨?_, ?_, fun req => ?_⟩
  · rw [globalState_registerAll, globalState_registerAll]
  · rw [routes_registered, routes_registered, hempty]
  · rw [routes_registered, routes_registered, hfirst req]

end Routing

/-- **Shadowed routes.** For every run of registrations and an accepted call after it, whose
    pattern has no literal that a URI cannot have: the new route answers no request at all
    exactly when one single route before it has its method and a pattern whose mask subsumes
    its own; and then the call might as well not be made, whatever is registered after it. -/
theorem dead_route_iff {F B S : Type} [Inhabited B] (uri : UriPaths) (start : Option S) (rs : List (Registration F))
    {reg : Registration F} {r : Route F} (hr : reg.route? = some r) (hin : r.path.InUri uri) :
    let routes := ((App.start start : App F S).registerAll rs).router.routes
    ((∀ req : Request B, uri.IsPath req.path → r.Selects req → ∃ r' ∈ routes, r'.Selects req) ↔
      ∃ r' ∈ routes, r'.method = r.method ∧ Subsumes r'.path.mask r.path.mask) ∧
    ((∃ r' ∈ routes, r'.method = r.method ∧ Subsumes r'.path.mask r.path.mask) →
      ∀ (rs' : List (Registration F)) (T : Type) [HttpBody B] [TransientState T]
        (call : F → HandlerFunc B (App F S) T), RespectsRouting call → ∀ req : Request B,
          (((App.start start).registerAll (rs ++ reg :: rs')).dispatch call req).mapLog Call.withoutApp =
            (((App.start start).registerAll (rs ++ rs')).dispatch call req).mapLog Call.withoutApp) := by
  intro routes
  have hroutes : routes = rs.filterMap Registration.route? := routes_registered start rs
  have hparsed : ParsedRoutes routes := parsed_registerAll start rs
  obtain ⟨path, hpath, rfl⟩ := Registration.route?_eq_some.mp hr
  refine ⟨dead_iff hparsed hpath hin, fun hsub rs' T _ _ call hcall req => ?_⟩
  have hdead : First.Dead (fun (req : Request B) (r : Route F) => decide (r.Selects req)) routes
      ⟨.std reg.method, path, reg.handler⟩ := by
    intro req hsel
    obtain ⟨r', hr', hsel'⟩ := (dead_iff hparsed hpath path.inUri_any).mpr hsub req trivial (of_decide_eq_true hsel)
    exact ⟨r', hr', decide_eq_true hsel'⟩
  have hwith : (rs ++ reg :: rs').filterMap Registration.route? =
      routes ++ ⟨.std reg.method, path, reg.handler⟩ :: rs'.filterMap Registration.route? := by
    rw [List.filterMap_append, List.filterMap_cons_some hr, ← hroutes]
  have hwithout : (rs ++ rs').filterMap Registration.route? = routes ++ rs'.filterMap Registration.route? := by
    rw [List.filterMap_append, ← hroutes]
  have hnil : routes ≠ [] := by
    obtain ⟨r', hr', -⟩ := hsub
    exact List.ne_nil_of_mem hr'
  refine dispatch_congr_registered hcall start ?_ ?_ req
  · rw [hwith, hwithout]
    simp [hnil]
  · intro req
    rw [hwith, hwithout]
    exact hdead.find?_eq req

/-- `/a/b` after `/a/*` and `/:x/b`: the first of them shadows it, and it can be left out. -/
theorem dead_route_iff_wildcard :
    let rs : List (Registration Nat) := [⟨.get, "/a/*", .new 1 none⟩, ⟨.get, "/:x/b", .new 2 none⟩]
    let call : Nat → HandlerFunc String (App Nat Unit) NoState := fun n req _ _ _ state =>
      .ok (req, some ⟨.ok, .empty, toString n⟩, state)
    (∀ req : Request String, UriPaths.pathChars.IsPath req.path →
      (⟨.std .get, ⟨[.leader, .pathComponent "a", .pathComponent "b"]⟩, .new 3 none⟩ : Route Nat).Selects req →
        ∃ r' ∈ ((App.start none : App Nat Unit).registerAll rs).router.routes, r'.Selects req) ∧
    ∀ req : Request String, (((App.start none : App Nat Unit).registerAll
        (rs ++ [⟨.get, "/a/b", .new 3 none⟩, ⟨.post, "/a/b", .new 4 none⟩])).dispatch call req).mapLog Call.withoutApp =
      (((App.start none : App Nat Unit).registerAll
        (rs ++ [⟨.post, "/a/b", .new 4 none⟩])).dispatch call req).mapLog Call.withoutApp := by
  intro rs call
  have hsub : ∃ r' ∈ ((App.start none : App Nat Unit).registerAll rs).router.routes, r'.method = .std .get ∧
      Subsumes r'.path.mask (Path.mask ⟨[.leader, .pathComponent "a", .pathComponent "b"]⟩) :=
    ⟨⟨.std .get, ⟨[.leader, .pathComponent "a", .wildcard]⟩, .new 1 none⟩, List.mem_cons_self, rfl, by decide⟩
  obtain ⟨hiff, hout⟩ :=
    @dead_route_iff Nat String Unit _ .pathChars none rs ⟨.get, "/a/b", .new 3 none⟩ _ rfl (by decide)
  exact ⟨hiff.mpr hsub, hout hsub _ NoState call fun _ _ _ _ _ _ _ _ => rfl⟩

/-- **When the order of registration counts.** For every run of registrations with patterns of
    literals that a URI can have: every order of its routes selects the same route for every
    request exactly when no two different routes of one method have patterns whose masks
    overlap; and then, of any literals, the calls made in any other order leave an app that
    answers every request alike. -/
theorem order_irrelevant_iff {F B S : Type} [Inhabited B] (uri : UriPaths) (start : Option S)
    (rs : List (Registration F)) :
    let routes := ((App.start start : App F S).registerAll rs).router.routes
    let Apart := ∀ r ∈ routes, ∀ r' ∈ routes, r.method = r'.method → Overlaps r.path.mask r'.path.mask → r = r'
    ((∀ r ∈ routes, r.path.InUri uri) → ((∀ routes', routes.Perm routes' → ∀ req : Request B, uri.IsPath req.path →
      (routes'.find? fun r => r.Selects req) = routes.find? fun r => r.Selects req) ↔ Apart)) ∧
    (Apart → ∀ rs', rs.Perm rs' → ∀ (T : Type) [HttpBody B] [TransientState T]
      (call : F → HandlerFunc B (App F S) T), RespectsRouting call → ∀ req : Request B,
        (((App.start start).registerAll rs').dispatch call req).mapLog Call.withoutApp =
          (((App.start start).registerAll rs).dispatch call req).mapLog Call.withoutApp) := by
  intro routes Apart
  have hroutes : routes = rs.filterMap Registration.route? := routes_registered start rs
  have hparsed : ParsedRoutes routes := parsed_registerAll start rs
  -- routes that are apart never select a text in common, whether it is the path of a URI or not
  have hselects : Apart → ∀ r ∈ routes, ∀ r' ∈ routes, ∀ req : Request B, r.Selects req → r'.Selects req → r = r' := by
    intro hapart r hr r' hr' req hsel hsel'
    obtain ⟨pat, hpat⟩ := hparsed r hr
    obtain ⟨pat', hpat'⟩ := hparsed r' hr'
    apply hapart r hr r' hr' (hsel.2.trans hsel'.2.symm)
    exact (both_match_iff hpat hpat' r.path.inUri_any r'.path.inUri_any).mp ⟨req.path, trivial, hsel.1, hsel'.1⟩
  refine ⟨fun hin => ?_, fun hapart rs' hperm T _ _ call hcall req => ?_⟩
  · have hiff := @First.find?_perm_iff (Route F) {req : Request B // uri.IsPath req.path}
      (fun req r => decide (r.Selects req.1)) routes
    simp only [Subtype.forall, decide_eq_true_eq] at hiff
    rw [hiff]
    constructor
    · intro h r hr r' hr' hmethod hover
      obtain ⟨pat, hpat⟩ := hparsed r hr
      obtain ⟨pat', hpat'⟩ := hparsed r' hr'
      obtain ⟨s, hs, hm, hm'⟩ := (both_match_iff hpat hpat' (hin r hr) (hin r' hr')).mpr hover
      exact h r hr r' hr' (Request.of r.method s) hs ⟨hm, rfl⟩ ⟨hm', hmethod.symm⟩
    · exact fun hapart r hr r' hr' req _ => hselects hapart r hr r' hr' req
  · have hperm' : routes.Perm (rs'.filterMap Registration.route?) := hroutes ▸ hperm.filterMap _
    refine dispatch_congr_registered hcall start ?_ ?_ req
    · rw [← hroutes]
      exact ⟨fun h => List.perm_nil.mp (h ▸ hperm'), fun h => List.nil_perm.mp (h ▸ hperm')⟩
    · intro req
      rw [← hroutes]
      exact find?_selects_of_perm hperm' fun r hr r' hr' => hselects hapart r hr r' hr' req

/-- Two patterns that have no request in common, in either order. -/
theorem order_irrelevant_iff_apart :
    let rs : List (Registration Nat) := [⟨.get, "/a/:x", .new 1 none⟩, ⟨.get, "/b/*", .new 2 none⟩,
      ⟨.post, "/a/:x", .new 3 none⟩]
    let call : Nat → HandlerFunc String (App Nat Unit) NoState := fun n req _ _ _ state =>
      .ok (req, some ⟨.ok, .empty, toString n⟩, state)
    ∀ req : Request String, (((App.start none : App Nat Unit).registerAll rs.reverse).dispatch call req).mapLog
        Call.withoutApp = (((App.start none).registerAll rs).dispatch call req).mapLog Call.withoutApp := by
  intro rs call
  have hroutes : ((App.start none : App Nat Unit).registerAll rs).router.routes =
      [⟨.std .get, ⟨[.leader, .pathComponent "a", .param "x"]⟩, .new 1 none⟩,
        ⟨.std .get, ⟨[.leader, .pathComponent "b", .wildcard]⟩, .new 2 none⟩,
        ⟨.std .post, ⟨[.leader, .pathComponent "a", .param "x"]⟩, .new 3 none⟩] := rfl
  refine (@order_irrelevant_iff Nat String Unit _ .pathChars none rs).2 ?_ _ (List.reverse_perm rs).symm NoState call
    fun _ _ _ _ _ _ _ _ => rfl
  rw [hroutes]
  intro r hr r' hr' hmethod hover
  simp only [List.mem_cons, List.not_mem_nil, or_false] at hr hr'
  rcases hr with rfl | rfl | rfl <;> rcases hr' with rfl | rfl | rfl <;>
    first | rfl | exact absurd hmethod (by decide) | exact absurd hover (by decide)

end DavisJr
