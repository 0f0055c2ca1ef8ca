import DavisJr.Shadow

/- Links: the requests that a pattern is filled in to, the other way round from routing. A
   link gives back what it was made of (`Link.extract_text`), if it comes to its route at
   all: that depends on the routes before it, and can be read off their patterns. Every
   link that a URI can have comes to its own route exactly when no mask before meets that
   of the route (`links_arrive_iff`). -/
namespace DavisJr
open Lib Lib.Str Lib.Glob Lib.Mask

/-- What a pattern is filled with: a value for each of its names, the segments for its
    wildcard, and a number of slashes for the end. -/
structure Link (pat : String) where
  value : String → String
  rest : List String
  slashes : Nat
  isValue : ∀ n ∈ names ((pathSegments pat).map classify), IsValue (value n)
  isRest : "*" ∈ pathSegments pat → rest ≠ [] ∧ ∀ x ∈ rest, IsValue x

namespace Link
variable {pat : String} {p : Path}

def text (l : Link pat) : String := fill (pathSegments pat) l.value l.rest l.slashes

def segments (l : Link pat) : List String := (pathSegments pat).flatMap (fillSegment l.value l.rest)

/-- What it was made of, as the params of a request. -/
def params (l : Link pat) : Params :=
  let m := assigned l.value (names ((pathSegments pat).map classify))
  if "*" ∈ pathSegments pat then m.insert "*" (join l.rest "/") else m

/-- The segments of a pattern without a wildcard, or of one with it at the end. -/
theorem segments_cases (hlast : "*" ∉ (pathSegments pat).dropLast) :
    "*" ∉ pathSegments pat ∨ ∃ pre, "*" ∉ pre ∧ pathSegments pat = pre ++ ["*"] := by
  by_cases hmem : "*" ∈ pathSegments pat
  · exact .inr ⟨_, hlast, eq_append_wildcard hmem hlast⟩
  · exact .inl hmem

/-- **A link gives back what it was made of.** -/
theorem extract_text (hp : Path.new pat = .ok p) (hlast : "*" ∉ (pathSegments pat).dropLast) (l : Link pat) :
    p.extract l.text = .ok l.params := by
  obtain ⟨value, rest, slashes, hvalue, hrest⟩ := l
  unfold text params
  dsimp only
  rcases segments_cases hlast with hstar | ⟨pre, hpre, hps⟩
  · rw [extract_fill_plain hp rfl hstar hvalue, if_neg hstar]
  · have hmem : "*" ∈ pathSegments pat := by rw [hps]; simp
    obtain ⟨hne, hrest⟩ := hrest hmem
    obtain ⟨x, mid, rfl⟩ := List.exists_cons_of_ne_nil hne
    rw [hps] at hvalue
    rw [if_pos hmem, hps, extract_fill_wildcard hp hps hpre List.not_mem_nil hvalue hrest]
    rw [List.map_nil, List.map_nil, List.append_nil, lay_last, names_wildcard]
    simp [names]

/-! The segments of a link. -/

theorem segments_plain (l : Link pat) (hstar : "*" ∉ pathSegments pat) :
    l.segments = (pathSegments pat).map (fillOne l.value) := flatMap_fillSegment hstar

theorem segments_wildcard (l : Link pat) {pre : List String} (hpre : "*" ∉ pre)
    (hps : pathSegments pat = pre ++ ["*"]) : l.segments = pre.map (fillOne l.value) ++ l.rest := by
  rw [segments, hps, flatMap_fillSegment_wildcard hpre List.not_mem_nil, List.map_nil, List.append_nil]

theorem isValue_segments (l : Link pat) (hlast : "*" ∉ (pathSegments pat).dropLast) : ∀ x ∈ l.segments, IsValue x := by
  have hfield : ∀ x ∈ pathSegments pat, IsField '/' x := isField_of_pathSegments rfl
  rcases segments_cases hlast with hstar | ⟨pre, hpre, hps⟩
  · rw [l.segments_plain hstar]
    exact isValue_fillOne hstar hfield l.isValue
  · have hvalue := l.isValue
    rw [hps, names_wildcard, List.forall_mem_append] at hvalue
    rw [l.segments_wildcard hpre hps, List.forall_mem_append]
    refine ⟨isValue_fillOne hpre (fun x hx => hfield x ?_) hvalue.1, (l.isRest ?_).2⟩
    · rw [hps]
      exact List.mem_append_left _ hx
    · rw [hps]
      exact List.mem_append_right _ List.mem_cons_self

theorem pathSegments_text (l : Link pat) (hlast : "*" ∉ (pathSegments pat).dropLast) :
    pathSegments l.text = l.segments :=
  (request_of_values (l.isValue_segments hlast)).2.1

/-- A full text of a pattern's mask has a segment for each of the pattern's, the wildcard included. -/
theorem full_iff {xs : List String} (hp : Path.new pat = .ok p) : p.mask.Full xs ↔
    AgreeOn SegAgrees (before "*" (pathSegments pat)) xs ∧
      ("*" ∉ pathSegments pat → (pathSegments pat).length = xs.length) ∧
      ("*" ∈ pathSegments pat → (before "*" (pathSegments pat)).length < xs.length) := by
  have hcells : p.mask.cells.length = (before "*" (pathSegments pat)).length := by
    rw [cells_of_new hp, List.length_map]
  have hopen : p.mask.isOpen = decide ("*" ∈ pathSegments pat) := by rw [mask_of_new hp]
  rw [← agreeOn_mask hp]
  constructor
  · intro ⟨hagree, hclosed, hopened⟩
    rw [hcells, hopen] at hclosed hopened
    refine ⟨hagree, fun hstar => ?_, fun hstar => hopened (decide_eq_true hstar)⟩
    rw [← hclosed (decide_eq_false hstar), before_eq_self hstar]
  · intro ⟨hagree, hclosed, hopened⟩
    refine ⟨hagree, fun ho => ?_, fun ho => ?_⟩
    · rw [hopen, decide_eq_false_iff_not] at ho
      rw [hcells, before_eq_self ho, hclosed ho]
    · rw [hopen, decide_eq_true_eq] at ho
      rw [hcells]
      exact hopened ho

theorem full_plain {xs : List String} (hp : Path.new pat = .ok p) (hstar : "*" ∉ pathSegments pat) :
    p.mask.Full xs ↔ List.Forall₂ SegAgrees (pathSegments pat) xs := by
  rw [full_iff hp, before_eq_self hstar, forall₂_iff_agreeOn]
  simp [hstar, and_comm]

theorem full_wildcard {xs pre : List String} (hp : Path.new pat = .ok p) (hpre : "*" ∉ pre)
    (hps : pathSegments pat = pre ++ ["*"]) :
    p.mask.Full xs ↔ ∃ a w, xs = a ++ w ∧ List.Forall₂ SegAgrees pre a ∧ w ≠ [] := by
  rw [full_iff hp, hps, before_append hpre]
  constructor
  · intro ⟨hagree, _, hopened⟩
    have hlen : pre.length < xs.length := hopened (by simp)
    refine ⟨xs.take pre.length, xs.drop pre.length, (List.take_append_drop _ _).symm, ?_, ?_⟩
    · have htake : pre.length = (xs.take pre.length).length := by rw [List.length_take]; omega
      rw [← List.take_append_drop pre.length xs, agreeOn_append_right htake] at hagree
      exact forall₂_iff_agreeOn.mpr ⟨htake, hagree⟩
    · rw [Ne, List.drop_eq_nil_iff]
      omega
  · rintro ⟨a, w, rfl, ha, hw⟩
    refine ⟨(agreeOn_append_right ha.length_eq).mpr (forall₂_iff_agreeOn.mp ha).2, by simp, fun _ => ?_⟩
    have hlen := ha.length_eq
    have hpos := List.length_pos_iff.mpr hw
    rw [List.length_append]
    omega

theorem full_segments (l : Link pat) (hp : Path.new pat = .ok p) (hlast : "*" ∉ (pathSegments pat).dropLast) :
    p.mask.Full l.segments := by
  rcases segments_cases hlast with hstar | ⟨pre, hpre, hps⟩
  · rw [full_plain hp hstar, l.segments_plain hstar]
    exact forall₂_segAgrees_fill _
  · rw [full_wildcard hp hpre hps, l.segments_wildcard hpre hps]
    refine ⟨_, _, rfl, forall₂_segAgrees_fill pre, (l.isRest ?_).1⟩
    rw [hps]
    exact List.mem_append_right _ List.mem_cons_self

/-! Every full text of values is that of a link, if no name comes twice. -/

/-- Segments that agree with those of a pattern fill it. -/
theorem exists_value {ps xs : List String} (hstar : "*" ∉ ps) (hnodup : (names (ps.map classify)).Nodup)
    (h : List.Forall₂ SegAgrees ps xs) : ∃ σ, ps.map (fillOne σ) = xs := by
  induction h with
  | nil => exact ⟨id, rfl⟩
  | @cons p x ps xs hx hxs ih =>
    rw [List.mem_cons, not_or] at hstar
    by_cases hc : startsWith p ':' = true
    · have hclass : classify p = .param (trimStartMatches p ':') := classify_eq_param.mpr ⟨hc, rfl⟩
      have hnames : names ((p :: ps).map classify) = trimStartMatches p ':' :: names (ps.map classify) := by
        rw [List.map_cons, hclass]
        rfl
      rw [hnames, List.nodup_cons] at hnodup
      obtain ⟨σ, rfl⟩ := ih hstar.2 hnodup.2
      refine ⟨Function.update σ (trimStartMatches p ':') x, ?_⟩
      rw [List.map_cons, fillOne, if_pos hc, Function.update_self]
      refine congrArg _ (List.map_congr_left fun y hy => ?_)
      -- no other param has the name
      unfold fillOne
      split
      · next hy' =>
        apply Function.update_of_ne
        intro he
        exact hnodup.1 (mem_names_classify.mpr ⟨y, hy, hy', he⟩)
      · rfl
    · have hclass : classify p = .pathComponent p :=
        classify_eq_pathComponent.mpr ⟨rfl, Ne.symm hstar.1, by simpa using hc⟩
      have hnames : names ((p :: ps).map classify) = names (ps.map classify) := by
        rw [List.map_cons, hclass]
        rfl
      rw [hnames] at hnodup
      obtain ⟨σ, rfl⟩ := ih hstar.2 hnodup
      refine ⟨σ, ?_⟩
      rw [List.map_cons, fillOne, if_neg hc, hx.resolve_left hc]

/-- A pattern's params have for values segments that fill it. -/
theorem isValue_of_fillOne {ps : List String} {σ : String → String} (h : ∀ x ∈ ps.map (fillOne σ), IsValue x) :
    ∀ n ∈ names (ps.map classify), IsValue (σ n) := by
  intro n hn
  obtain ⟨y, hy, hc, rfl⟩ := mem_names_classify.mp hn
  have hv := h _ (List.mem_map_of_mem hy)
  rwa [fillOne, if_pos hc] at hv

theorem exists_link {xs : List String} (hp : Path.new pat = .ok p) (hlast : "*" ∉ (pathSegments pat).dropLast)
    (hnodup : (names ((pathSegments pat).map classify)).Nodup) (hxs : ∀ x ∈ xs, IsValue x) (hfull : p.mask.Full xs) :
    ∃ l : Link pat, l.segments = xs := by
  rcases segments_cases hlast with hstar | ⟨pre, hpre, hps⟩
  · obtain ⟨σ, rfl⟩ := exists_value hstar hnodup ((full_plain hp hstar).mp hfull)
    exact ⟨⟨σ, [], 0, isValue_of_fillOne hxs, fun h => absurd h hstar⟩, flatMap_fillSegment hstar⟩
  · obtain ⟨a, w, rfl, ha, hw⟩ := (full_wildcard hp hpre hps).mp hfull
    have hnames : names ((pathSegments pat).map classify) = names (pre.map classify) := by
      rw [hps, names_wildcard]
      exact List.append_nil _
    rw [hnames] at hnodup
    obtain ⟨σ, rfl⟩ := exists_value hpre hnodup ha
    rw [List.forall_mem_append] at hxs
    have hvalue : ∀ n ∈ names ((pathSegments pat).map classify), IsValue (σ n) := by
      rw [hnames]
      exact isValue_of_fillOne hxs.1
    exact ⟨⟨σ, w, 0, hvalue, fun _ => ⟨hw, hxs.2⟩⟩, segments_wildcard _ hpre hps⟩

end Link

/-! Links among other routes. -/

section Table
variable {F B : Type} {pre : List (Route F)} {r : Route F} {pat : String}

/-- A link to a route is let in by it. -/
theorem Link.selects (hr : Path.new pat = .ok r.path) (hlast : "*" ∉ (pathSegments pat).dropLast) (l : Link pat)
    {req : Request B} (hmethod : req.method = r.method) (hpath : req.path = l.text) : r.Selects req := by
  refine ⟨?_, hmethod.symm⟩
  rw [hpath, matches_iff_accepts hr, l.pathSegments_text hlast]
  exact ⟨isChain_of_values (l.isValue_segments hlast), (l.full_segments hr hlast).accepts⟩

/-- A link gets past the routes whose masks do not meet that of its own. -/
theorem Link.past (hr : Path.new pat = .ok r.path) (hpre : ParsedRoutes pre)
    (hlast : "*" ∉ (pathSegments pat).dropLast) (l : Link pat) {req : Request B}
    (hapart : ∀ r' ∈ pre, r'.method = r.method → ¬Meets r'.path.mask r.path.mask)
    (hmethod : req.method = r.method) (hpath : req.path = l.text) : ∀ r' ∈ pre, ¬r'.Selects req := by
  intro r' hr' hsel
  obtain ⟨pat', hpat'⟩ := hpre r' hr'
  apply hapart r' hr' (hsel.2.trans hmethod)
  have hacc := ((matches_iff_accepts hpat').mp hsel.1).2
  rw [hpath, l.pathSegments_text hlast] at hacc
  exact meets_of_full hacc (l.full_segments hr hlast)

/-- No link that a URI can have is let in by a route before exactly when their masks do not meet. -/
theorem links_arrive [Inhabited B] {uri : UriPaths} (hr : Path.new pat = .ok r.path) (hpre : ParsedRoutes pre)
    (hin : r.path.InUri uri) (hprein : ∀ r' ∈ pre, r'.path.InUri uri)
    (hlast : "*" ∉ (pathSegments pat).dropLast) (hnodup : (names ((pathSegments pat).map classify)).Nodup) :
    (∀ (l : Link pat) (req : Request B), uri.IsPath req.path → req.method = r.method → req.path = l.text →
      ∀ r' ∈ pre, ¬r'.Selects req) ↔
      ∀ r' ∈ pre, r'.method = r.method → ¬Meets r'.path.mask r.path.mask := by
  constructor
  · intro h r' hr' hmethod hmeets
    obtain ⟨pat', hpat'⟩ := hpre r' hr'
    obtain ⟨z, hz⟩ := (infinite_isUriValue uri).nonempty
    obtain ⟨xs, hxs, hacc, hfull⟩ := hmeets.exists_full hz
      (fun y hy => isUriValue_of_mem_mask hpat' (hprein r' hr') hy) (fun y hy => isUriValue_of_mem_mask hr hin hy)
    have hvalues : ∀ x ∈ xs, IsValue x := fun x hx => (hxs x hx).1
    obtain ⟨l, rfl⟩ := Link.exists_link hr hlast hnodup hvalues hfull
    have htext : uri.IsPath l.text := UriPaths.isPath_slashed fun x hx => (hxs x hx).2
    apply h l (Request.of r.method l.text) htext rfl rfl r' hr'
    refine ⟨(matches_iff_accepts hpat').mpr ?_, hmethod⟩
    show (pathSegments l.text).IsChain Follows ∧ r'.path.mask.Accepts (pathSegments l.text)
    rw [l.pathSegments_text hlast]
    exact ⟨isChain_of_values hvalues, hacc⟩
  · intro h l req _ hmethod hpath
    exact l.past hr hpre hlast h hmethod hpath

end Table

/-- **Links come to their route.** For every run of registrations and an accepted call in it,
    with no `*` but at the end of its pattern and no name twice: if no pattern so far has a
    literal that a URI cannot have, every link to the new route that a URI can have gets past
    all routes before it exactly when no mask of one with the method meets its own; and then,
    of any literals, the app answers each link by performing the route's handler with just
    what the link was made of, whatever is registered after it. -/
theorem links_arrive_iff {F B S : Type} [Inhabited B] (uri : UriPaths) (start : Option S)
    (rs rs' : List (Registration F)) {reg : Registration F} {r : Route F} (hr : reg.route? = some r)
    (hlast : "*" ∉ (pathSegments reg.path).dropLast) (hnodup : r.path.params.Nodup) :
    let routes := ((App.start start : App F S).registerAll rs).router.routes
    let Apart := ∀ r' ∈ routes, r'.method = .std reg.method → ¬Meets r'.path.mask r.path.mask
    (r.path.InUri uri → (∀ r' ∈ routes, r'.path.InUri uri) → ((∀ (l : Link reg.path) (req : Request B),
      uri.IsPath req.path → req.method = .std reg.method → req.path = l.text → ∀ r' ∈ routes, ¬r'.Selects req) ↔
        Apart)) ∧
    (Apart → ∀ (T : Type) [HttpBody B] [TransientState T] (call : F → HandlerFunc B (App F S) T)
      (l : Link reg.path) (req : Request B), req.method = .std reg.method → req.path = l.text →
        let app := (App.start start).registerAll (rs ++ reg :: rs')
        app.dispatch call req = (reg.handler.perform call req none l.params app TransientState.initial >>=
          fun t => Traced.lift (respond t)).recover App.errorResponse) := by
  intro routes Apart
  have hroutes : routes = rs.filterMap Registration.route? := routes_registered start rs
  have hparsed : ParsedRoutes routes := parsed_registerAll start rs
  obtain ⟨path, hpath, rfl⟩ := Registration.route?_eq_some.mp hr
  rw [params_of_new hpath] at hnodup
  refine ⟨fun hin hprein => ?_, fun hapart T _ _ call l req hmethod htext => ?_⟩
  · exact @links_arrive _ B routes ⟨.std reg.method, path, reg.handler⟩ _ _ _ hpath hparsed hin hprein hlast hnodup
  · have hsel := l.selects (r := ⟨.std reg.method, path, reg.handler⟩) hpath hlast hmethod htext
    have hbefore := l.past (r := ⟨.std reg.method, path, reg.handler⟩) hpath hparsed hlast hapart hmethod htext
    have hsplit : (rs ++ reg :: rs').filterMap Registration.route? =
        routes ++ ⟨.std reg.method, path, reg.handler⟩ :: rs'.filterMap Registration.route? := by
      rw [List.filterMap_append, List.filterMap_cons_some hr, ← hroutes]
    have hext : path.extract req.path = .ok l.params := by
      rw [htext]
      exact l.extract_text hpath hlast
    dsimp only
    rw [App.dispatch, dispatch_of_past call start hsplit hsel hbefore, Route.dispatch, hext, Outcome.mapErr_ok,
      Traced.lift_ok_bind, if_neg]
    exact not_not_intro hsel.2

/-- `/user/new` is before `/user/:name/*`, but has no segment for the `*`: every link arrives. -/
theorem links_arrive_iff_new :
    let rs : List (Registration Nat) := [⟨.get, "/user/new", .new 1 none⟩]
    let reg : Registration Nat := ⟨.get, "/user/:name/*", .new 2 none⟩
    let call : Nat → HandlerFunc String (App Nat Unit) NoState := fun _ req _ params _ state =>
      .ok (req, some ⟨.ok, .empty, (params["name"]?).getD ""⟩, state)
    ∀ (l : Link reg.path) (req : Request String), req.method = .std .get → req.path = l.text →
      (UriPaths.pathChars.IsPath req.path →
        ∀ r' ∈ ((App.start none : App Nat Unit).registerAll rs).router.routes, ¬r'.Selects req) ∧
      let app := (App.start none).registerAll (rs ++ [reg])
      app.dispatch call req = (reg.handler.perform call req none l.params app TransientState.initial >>=
        fun t => Traced.lift (respond t)).recover App.errorResponse := by
  intro rs reg call l req hmethod hpath
  have hapart : ∀ r' ∈ ((App.start none : App Nat Unit).registerAll rs).router.routes, r'.method = .std .get →
      ¬Meets r'.path.mask (Path.mask ⟨[.leader, .pathComponent "user", .param "name", .wildcard]⟩) := by decide
  have hpat : Path.new "/user/:name/*" =
      .ok ⟨[.leader, .pathComponent "user", .param "name", .wildcard]⟩ := by decide
  have hroute := Registration.route?_eq_some (r := reg).mpr ⟨_, hpat, rfl⟩
  obtain ⟨hiff, harrive⟩ :=
    @links_arrive_iff Nat String Unit _ .pathChars none rs [] reg _ hroute (by decide) (by decide)
  exact ⟨fun huri => (hiff (by decide) (by decide)).mpr hapart l req huri hmethod hpath,
    harrive hapart NoState call l req hmethod hpath⟩

end DavisJr
