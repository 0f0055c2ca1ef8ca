import DavisJr.Shadow

/- What a request can do to an app behind the match. Extraction panics on a request that
   overruns a pattern ending in a wildcard and a literal, and fails on one that has a
   second slash where a literal is asked for. Whether such a request ever comes to a
   route with such a pattern depends on the routes before it: it does exactly when none
   of them shadows the route (`dispatch_panics_iff`, `dispatch_fails_iff`). The request
   that has every wildcard go on longer than any pattern before it is long gets past
   all the others (`exists_filler`). -/
namespace DavisJr
open Lib Lib.Str Lib.Glob Lib.Mask

/-- Segments that fill the parts hold their literals. -/
theorem Fills.mem {q : List RoutePart} {xs : List String} (h : Fills q xs) {l : String} :
    .pathComponent l ∈ q → l ∈ xs := by
  induction h with
  | nil => exact fun hl => by cases hl
  | param _ ih => exact fun hl => List.mem_cons_of_mem _ (ih (by simpa using hl))
  | literal _ ih =>
    intro hl
    rcases List.mem_cons.mp hl with hl | hl
    · cases hl
      exact List.mem_cons_self
    · exact List.mem_cons_of_mem _ (ih hl)
  | wildcard _ _ ih =>
    intro hl
    simp only [List.mem_cons, reduceCtorEq, false_or, RoutePart.pathComponent.injEq] at hl
    rcases hl with rfl | hl
    · simp
    · simp [ih hl]

/-- Segments that fill the parts, `n` more than needed for each wildcard. -/
def filler (z : String) (n : Nat) : List RoutePart → List String
  | [] => []
  | [.wildcard] => z :: List.replicate n z
  | .wildcard :: .pathComponent l :: q => z :: (List.replicate n z ++ l :: filler z n q)
  | .pathComponent l :: q => l :: filler z n q
  | _ :: q => z :: filler z n q

section Filler
variable {z : String} {n : Nat} {q : List RoutePart}

/-- The parts below those that a cursor can run past. -/
theorem Open.tail {a : RoutePart} (ha : a ≠ .wildcard) (h : Open (a :: q)) : Open q :=
  .inr (advance_eq_of_open ha (h.resolve_left (by simp))).2

theorem fills_filler (hq : Walkable q) (ho : Open q) (hz : .pathComponent z ∉ q) : Fills q (filler z n q) := by
  fun_induction filler z n q with
  | case1 => exact .nil
  | case2 => exact absurd (ho.resolve_left (by simp)) (not_endsInLiteral_singleton _)
  | case3 l q ih =>
    have hne : l ≠ z := fun h => hz (by simp [h])
    have hmid : l ∉ List.replicate n z := fun h => hne (List.eq_of_mem_replicate h)
    exact .wildcard hmid (ih hq.tail.tail (open_of_endsInLiteral (ho.resolve_left (by simp)))
      fun h => hz (by simp [h]))
  | case4 l q ih =>
    exact .literal (ih hq.tail (ho.tail (by simp)) fun h => hz (List.mem_cons_of_mem _ h))
  | case5 a q hlast hwild hlit ih =>
    cases a with
    | wildcard => exact absurd (hq.spaced.eq_nil fun l q' h => hwild l q' rfl h) (hlast rfl)
    | param n => exact .param (ih hq.tail (ho.tail (by simp)) fun h => hz (List.mem_cons_of_mem _ h))
    | pathComponent l => exact absurd rfl (hlit l)
    | leader => exact absurd List.mem_cons_self hq.noLeader

/-- Up to the first wildcard, and for `n` segments after it, they are the text that stands
    for all that the comparison lets in. -/
theorem filler_eq_append (hq : Walkable q) : ∃ rest, filler z n q =
    (before .wildcard q).map (fun a => a.cell.getD z) ++ (if .wildcard ∈ q then List.replicate n z else []) ++ rest ∧
      (.wildcard ∉ q → rest = []) := by
  fun_induction filler z n q with
  | case1 => exact ⟨[], by simp [before], fun _ => rfl⟩
  | case2 =>
    refine ⟨[z], ?_, fun h => absurd List.mem_cons_self h⟩
    rw [before_cons_self, List.map_nil, List.nil_append, if_pos List.mem_cons_self, ← List.replicate_succ,
      List.replicate_succ']
  | case3 l q ih =>
    refine ⟨z :: l :: filler z n q, ?_, fun h => absurd List.mem_cons_self h⟩
    rw [before_cons_self, List.map_nil, List.nil_append, if_pos List.mem_cons_self, ← List.cons_append,
      ← List.replicate_succ, List.replicate_succ', List.append_assoc]
    rfl
  | case4 l q ih =>
    obtain ⟨rest, hrest, hnil⟩ := ih hq.tail
    refine ⟨rest, ?_, fun h => hnil fun hmem => h (List.mem_cons_of_mem _ hmem)⟩
    rw [hrest, before_cons_of_ne (by simp)]
    simp [RoutePart.cell]
  | case5 a q hlast hwild hlit ih =>
    have ha : a ≠ .wildcard := by
      rintro rfl
      exact hlast rfl (hq.spaced.eq_nil fun l q' h => hwild l q' rfl h)
    obtain ⟨rest, hrest, hnil⟩ := ih hq.tail
    refine ⟨rest, ?_, fun h => hnil fun hmem => h (List.mem_cons_of_mem _ hmem)⟩
    have hcell : a.cell.getD z = z := by
      cases a with
      | pathComponent l => exact absurd rfl (hlit l)
      | _ => rfl
    rw [hrest, before_cons_of_ne ha, List.map_cons, hcell]
    simp [Ne.symm ha]

theorem mem_filler {x : String} (hx : x ∈ filler z n q) : x = z ∨ .pathComponent x ∈ q := by
  fun_induction filler z n q with
  | case1 => cases hx
  | case2 =>
    rw [← List.replicate_succ] at hx
    exact .inl (List.eq_of_mem_replicate hx)
  | case3 l q ih =>
    simp only [List.mem_cons, List.mem_append, List.mem_replicate] at hx
    rcases hx with hx | ⟨-, hx⟩ | hx | hx
    · exact .inl hx
    · exact .inl hx
    · exact .inr (by simp [hx])
    · exact (ih hx).imp_right fun h => by simp [h]
  | case4 l q ih =>
    rcases List.mem_cons.mp hx with hx | hx
    · exact .inr (by simp [hx])
    · exact (ih hx).imp_right (List.mem_cons_of_mem _)
  | case5 a q hlast hwild hlit ih =>
    rcases List.mem_cons.mp hx with hx | hx
    · exact .inl hx
    · exact (ih hx).imp_right (List.mem_cons_of_mem _)

end Filler

theorem walkable_of_new {pat : String} {p : Path} (hp : Path.new pat = .ok p) : Walkable p.body := by
  obtain ⟨P, rfl, -⟩ := exists_pattern hp
  exact P.walkable

/-! One route. -/

section Route
variable {F B A T : Type} {call : F → HandlerFunc B A T} {req : Request B} {app : A}

/-- A selected route panics where its extraction does: what it performs returns. -/
theorem Route.dispatch_eq_panic {r : Route F} {state : T} :
    (r.dispatch call req.path req app state >>= fun t => Traced.lift (respond t)).outcome = .panic ↔
      r.path.extract req.path = .panic := by
  rw [Traced.outcome_bind, Route.dispatch]
  cases hext : r.path.extract req.path with
  | panic => exact iff_of_true rfl rfl
  | err e => exact iff_of_false (fun h => by cases h) (by simp)
  | ok m =>
    refine iff_of_false ?_ (by simp)
    rw [Outcome.mapErr_ok, Traced.lift_ok_bind]
    split
    · exact fun h => by cases h
    · rw [outcome_perform call m app r.handler (req, none, state)]
      cases chain call m app r.handler.funcs (req, none, state) with
      | error e => exact fun h => by cases h
      | ok t =>
        show respond t ≠ .panic
        unfold respond
        split <;> simp

theorem log_perform_ne_nil (m : Params) : ∀ (h : Handler F) (req : Request B) (response : Option (Response B))
    (state : T), (h.perform call req response m app state).log ≠ []
  | .mk f next, req, response, state => by
    rw [Handler.perform]
    cases call f req response m app state with
    | error e => exact List.cons_ne_nil _ _
    | ok t => exact List.cons_ne_nil _ _

/-- What a selected route fails with before it calls anything is the error of its extraction. -/
theorem Route.dispatch_eq_err {r : Route F} {state : T} {e : Error} (hmethod : r.method = req.method) :
    (r.dispatch call req.path req app state >>= fun t => Traced.lift (respond t)) = Traced.lift (.err e) ↔
      ∃ e', r.path.extract req.path = .err e' ∧ e = .ofServerError e' := by
  rw [Route.dispatch]
  cases hext : r.path.extract req.path with
  | panic => exact iff_of_false (fun h => by cases h) (by simp)
  | err e' =>
    rw [Outcome.mapErr_err, Traced.lift_err_bind, Traced.lift_err_bind]
    constructor
    · intro h
      cases h
      exact ⟨e', rfl, rfl⟩
    · rintro ⟨_, h, rfl⟩
      cases h
      rfl
  | ok m =>
    refine iff_of_false (fun h => ?_) (by simp)
    rw [Outcome.mapErr_ok, Traced.lift_ok_bind, if_neg (not_not_intro hmethod)] at h
    have hlog := congrArg Traced.log h
    rw [Traced.log_bind_lift] at hlog
    exact log_perform_ne_nil m r.handler req none state hlog

end Route

/-! Requests for one route among others. -/

section Past
variable {F B : Type} {pre : List (Route F)} {r : Route F} {pat : String}

/-- Behind a route that is selected first, no route before it shadows it. -/
theorem not_shadowed (hr : Path.new pat = .ok r.path) (hpre : ParsedRoutes pre) {req : Request B} (hsel : r.Selects req)
    (hbefore : ∀ r' ∈ pre, ¬r'.Selects req) :
    ∀ r' ∈ pre, r'.method = r.method → ¬Subsumes r'.path.mask r.path.mask := by
  intro r' hr' hmethod hsub
  obtain ⟨pat', hpat'⟩ := hpre r' hr'
  obtain ⟨hch, hacc⟩ := (matches_iff_accepts hr).mp hsel.1
  exact hbefore r' hr' ⟨(matches_iff_accepts hpat').mpr ⟨hch, hsub.accepts hacc⟩, hmethod.trans hsel.2⟩

variable {uri : UriPaths}

/-- A request that overruns a pattern has all the literals of the pattern. -/
theorem inUri_of_panic (hr : Path.new pat = .ok r.path) {req : Request B} (huri : uri.IsPath req.path)
    (hsel : r.Selects req) (hpanic : r.path.extract req.path = .panic) :
    EndsInLiteral r.path.body ∧ r.path.InUri uri := by
  obtain ⟨P, hP, -⟩ := exists_pattern hr
  have hm := hsel.1
  rw [hP] at hpanic hm ⊢
  obtain ⟨hend, done, x, rest, hraw, hfills⟩ := (extract_eq_panic hm).mp hpanic
  refine ⟨hend, fun l hl => ?_⟩
  obtain ⟨a, ha, hcell⟩ := List.mem_filterMap.mp hl
  obtain rfl := RoutePart.cell_eq_some.mp hcell
  have hbody : .pathComponent l ∈ P.body := (List.mem_cons.mp ha).resolve_left (by simp)
  apply UriPaths.holds_of_mem_rawSegments huri
  rw [hraw]
  exact List.mem_append_left _ (hfills.mem hbody)

variable [Inhabited B]

/-- Before a route that none before it shadows: a value that its pattern does not hold, and a
    length, such that any request whose segments are the pattern's filler with them, and
    then any values where the pattern has a wildcard, is for the route. -/
theorem exists_filler (hr : Path.new pat = .ok r.path) (hin : r.path.InUri uri) (hpre : ParsedRoutes pre)
    (hlive : ∀ r' ∈ pre, r'.method = r.method → ¬Subsumes r'.path.mask r.path.mask) :
    ∃ z n, IsUriValue uri z ∧ .pathComponent z ∉ r.path.body ∧ (∀ x ∈ filler z n r.path.body, IsUriValue uri x) ∧
      ∀ s ys, pathSegments s = filler z n r.path.body ++ ys → (∀ y ∈ ys, IsValue y) →
        (.wildcard ∉ r.path.body → ys = []) →
          r.Selects (Request.of r.method s : Request B) ∧
            ∀ r' ∈ pre, ¬r'.Selects (Request.of r.method s : Request B) := by
  have hvalue := fun x => isUriValue_of_mem_body (x := x) hr hin
  have hmatches := fun s => matches_iff_accepts (s := s) hr
  obtain ⟨P, hP, -⟩ := exists_pattern hr
  rw [hP] at hlive hmatches hvalue ⊢
  -- a value that no mask before fixes, and that is no literal of the pattern either
  obtain ⟨z, hz, hfree⟩ := exists_free (infinite_isUriValue uri)
    (⟨P.body.map RoutePart.cell, false⟩ :: pre.map (·.path.mask))
  obtain ⟨n, hlong⟩ := exists_longer (pre.map (·.path.mask))
  have hvalues : ∀ x ∈ filler z n P.body, IsUriValue uri x := by
    intro x hx
    rcases mem_filler hx with rfl | hx
    · exact hz
    · exact hvalue x hx
  refine ⟨z, n, hz, fun h => hfree _ List.mem_cons_self (List.mem_map.mpr ⟨_, h, rfl⟩), hvalues, ?_⟩
  intro s ys hseg hys hclosed
  obtain ⟨rest, hrest, hnil⟩ := filler_eq_append (z := z) (n := n) P.walkable
  have hfill : filler z n P.path.body ++ ys = Mask.fill z n P.path.mask ++ (rest ++ ys) := by
    show filler z n P.body ++ ys = _
    rw [hrest, List.append_assoc, Mask.fill, mask_path, List.map_map]
    simp only [decide_eq_true_eq]
    rfl
  have hend : P.path.mask.isOpen = false → rest ++ ys = [] := by
    intro h
    rw [mask_path, decide_eq_false_iff_not] at h
    rw [hnil h, hclosed h, List.append_nil]
  constructor
  · refine ⟨hP ▸ ?_, rfl⟩
    show P.path.matches s = .ok true
    rw [hmatches, hseg]
    refine ⟨isChain_of_values (List.forall_mem_append.mpr ⟨fun x hx => (hvalues x hx).1, hys⟩), ?_⟩
    rw [hfill]
    exact accepts_fill_append hend
  · intro r' hr' hsel'
    obtain ⟨pat', hpat'⟩ := hpre r' hr'
    have hmask : r'.path.mask ∈ pre.map (·.path.mask) := List.mem_map_of_mem hr'
    have hacc : r'.path.mask.Accepts (pathSegments s) := ((matches_iff_accepts hpat').mp hsel'.1).2
    rw [hseg, hfill] at hacc
    exact hlive r' hr' hsel'.2 (subsumes_of_accepts_append hend
      (hfree _ (List.mem_cons_of_mem _ hmask)) (hlong _ hmask) hacc)

/-- A route that no other shadows, with a pattern that a request can overrun, is overrun
    by a request that the others do not select. -/
theorem exists_overrun (hr : Path.new pat = .ok r.path) (hin : r.path.InUri uri) (hpre : ParsedRoutes pre)
    (hend : EndsInLiteral r.path.body)
    (hlive : ∀ r' ∈ pre, r'.method = r.method → ¬Subsumes r'.path.mask r.path.mask) :
    ∃ req : Request B, uri.IsPath req.path ∧ r.Selects req ∧ r.path.extract req.path = .panic ∧
      ∀ r' ∈ pre, ¬r'.Selects req := by
  obtain ⟨z, n, hz, hzbody, hvalues, hpast⟩ := exists_filler (B := B) hr hin hpre hlive
  have hmem : .wildcard ∈ r.path.body := by
    obtain ⟨A, l, hA⟩ := hend
    rw [hA]
    simp
  have hall : ∀ x ∈ filler z n r.path.body ++ [z], IsUriValue uri x :=
    List.forall_mem_append.mpr ⟨hvalues, List.forall_mem_singleton.mpr hz⟩
  obtain ⟨s, hs, hseg, hraw⟩ := exists_request hall
  obtain ⟨hsel, hbefore⟩ := hpast s [z] hseg (List.forall_mem_singleton.mpr hz.1) fun h => absurd hmem h
  refine ⟨Request.of r.method s, hs, hsel, ?_, hbefore⟩
  obtain ⟨P, hP, -⟩ := exists_pattern hr
  have hm : P.path.matches s = .ok true := hP ▸ hsel.1
  show r.path.extract s = .panic
  rw [hP] at hend hraw hzbody ⊢
  exact (extract_eq_panic hm).mpr ⟨hend, _, z, [], hraw, fills_filler P.walkable (.inr hend) hzbody⟩

end Past

/-- **Which apps a request can crash.** For every run of registrations and whatever the
    handlers do: some request makes the dispatch panic exactly when there is a route whose
    pattern ends in a wildcard and a literal, of literals that a URI can have, and that no
    route before it, with its method, shadows. -/
theorem dispatch_panics_iff {F B S T : Type} [Inhabited B] [TransientState T] [HttpBody B] (uri : UriPaths)
    (call : F → HandlerFunc B (App F S) T) (start : Option S) (rs : List (Registration F)) :
    let app := (App.start start).registerAll rs
    (∃ req : Request B, uri.IsPath req.path ∧ (app.dispatch call req).outcome = .panic) ↔
      ∃ pre r post, app.router.routes = pre ++ r :: post ∧ EndsInLiteral r.path.body ∧ r.path.InUri uri ∧
        ∀ r' ∈ pre, r'.method = r.method → ¬Subsumes r'.path.mask r.path.mask := by
  intro app
  have hroutes : app.router.routes = rs.filterMap Registration.route? := routes_registered start rs
  have hparsed : ParsedRoutes app.router.routes := parsed_registerAll start rs
  have hrecover : ∀ req : Request B, (app.dispatch call req).outcome = .panic ↔
      (app.router.dispatch call req app).outcome = .panic := by
    intro req
    rw [App.dispatch, Traced.recover]
    cases (app.router.dispatch call req app).outcome <;> simp [Outcome.recover]
  constructor
  · intro h
    obtain ⟨req, huri, hpanic⟩ := h
    rw [hrecover] at hpanic
    rcases dispatch_cases call start rs req with ⟨e, -, he⟩ | he | ⟨pre, r, post, hsplit, hsel, hbefore, he⟩
    · rw [he] at hpanic
      cases hpanic
    · rw [he] at hpanic
      cases hpanic
    · rw [he, Route.dispatch_eq_panic] at hpanic
      obtain ⟨⟨pat, hpat⟩, hpre⟩ := parsed_append (hsplit ▸ hparsed)
      obtain ⟨hend, hin⟩ := inUri_of_panic hpat huri hsel hpanic
      exact ⟨pre, r, post, hsplit, hend, hin, not_shadowed hpat hpre hsel hbefore⟩
  · intro h
    obtain ⟨pre, r, post, hsplit, hend, hin, hlive⟩ := h
    obtain ⟨⟨pat, hpat⟩, hpre⟩ := parsed_append (hsplit ▸ hparsed)
    obtain ⟨req, huri, hsel, hpanic, hbefore⟩ := exists_overrun (B := B) hpat hin hpre hend hlive
    refine ⟨req, huri, ?_⟩
    rw [hrecover, dispatch_of_past call start (hroutes.symm.trans hsplit) hsel hbefore, Route.dispatch_eq_panic]
    exact hpanic

/-! Which apps fail a request that they match. -/

/-- The pattern has a literal that is not right after a wildcard. -/
def AsksFor (q : List RoutePart) : Prop := ∃ A l B, q = A ++ .pathComponent l :: B ∧ A.getLast? ≠ some .wildcard

section AsksFor
variable {q : List RoutePart} {z : String} {n : Nat} {e : ServerError}

theorem asksFor_literal (l : String) (q : List RoutePart) : AsksFor (.pathComponent l :: q) := ⟨[], l, q, rfl, by simp⟩

theorem AsksFor.cons (h : AsksFor q) {a : RoutePart} (ha : a ≠ .wildcard) : AsksFor (a :: q) := by
  obtain ⟨A, l, B, rfl, hA⟩ := h
  refine ⟨a :: A, l, B, rfl, ?_⟩
  cases A with
  | nil => simpa using ha
  | cons b A => rwa [List.getLast?_cons_cons]

theorem AsksFor.past (h : AsksFor q) (l : String) : AsksFor (.wildcard :: .pathComponent l :: q) := by
  obtain ⟨A, l', B, rfl, hA⟩ := h
  refine ⟨.wildcard :: .pathComponent l :: A, l', B, rfl, ?_⟩
  rw [List.getLast?_cons_cons]
  cases A with
  | nil => simp
  | cons b A => rwa [List.getLast?_cons_cons]

theorem not_asksFor_nil : ¬AsksFor [] := by
  intro ⟨A, l, B, h, _⟩
  cases A <;> cases h

theorem AsksFor.of_param {m : String} (h : AsksFor (.param m :: q)) : AsksFor q := by
  obtain ⟨A, l, B, h, hA⟩ := h
  cases A with
  | nil => cases h
  | cons a A =>
    obtain ⟨rfl, rfl⟩ := List.cons.inj h
    refine ⟨A, l, B, rfl, fun hA' => hA ?_⟩
    rw [List.getLast?_cons, hA']
    rfl

theorem AsksFor.of_past {l : String} (h : AsksFor (.wildcard :: .pathComponent l :: q)) : AsksFor q := by
  obtain ⟨A, l', B, h, hA⟩ := h
  cases A with
  | nil => cases h
  | cons a A =>
    obtain ⟨rfl, htail⟩ := List.cons.inj h
    cases A with
    | nil => exact absurd rfl hA
    | cons b A =>
      obtain ⟨rfl, rfl⟩ := List.cons.inj htail
      refine ⟨A, l', B, rfl, fun hA' => hA ?_⟩
      rw [List.getLast?_cons, List.getLast?_cons, hA']
      rfl

theorem not_asksFor_wildcard : ¬AsksFor [.wildcard] := by
  intro ⟨A, l, B, h, _⟩
  cases A with
  | nil => cases h
  | cons a A =>
    obtain ⟨-, h⟩ := List.cons.inj h
    cases A <;> cases h

/-- Where the walk fails, it asks for a literal. -/
theorem asksFor_of_lay {xs v : List String} {m : Params} (hq : Walkable q) (h : lay q xs m v = .err e) : AsksFor q := by
  fun_induction lay q xs m v with
  | case1 => cases h
  | case2 => cases h
  | case3 n q x xs m v ih =>
    by_cases hnil : q = []
    · -- the cursor stays at the param
      subst hnil
      exact absurd (ih hq.advance h).of_param not_asksFor_nil
    · have hadv : advance (.param n) q = q := if_neg hnil
      rw [hadv] at ih h
      exact (ih hq.tail h).cons (by simp)
  | case4 q l xs m v ih => exact asksFor_literal l q
  | case5 q x xs m v l hne => exact asksFor_literal _ _
  | case6 => exact absurd List.mem_cons_self hq.noLeader
  | case7 l q x xs m v hl ih => exact (ih hq.tail.tail h).past l
  | case8 => cases h
  | case9 => cases h

/-- Where the parts ask for a literal, an empty segment in its place makes the walk fail,
    on segments that are otherwise the filler of the parts. -/
theorem exists_fault (hq : Walkable q) (h : AsksFor q) (hne : ∀ x ∈ filler z n q, x ≠ "") (hz : .pathComponent z ∉ q) :
    ∃ raw, raw.filter (· ≠ "") = filler z n q ∧ raw ≠ [] ∧ raw.getLast? ≠ some "" ∧
      ∀ m v, lay q raw m v = .err ⟨"invalid path for parameter extraction"⟩ := by
  fun_induction filler z n q with
  | case1 => exact absurd h not_asksFor_nil
  | case2 => exact absurd h not_asksFor_wildcard
  | case3 l q ih =>
    -- the literal that the wildcard ends at is not one that is asked for
    obtain ⟨raw, hfilter, hnil, hlast, hlay⟩ := ih hq.tail.tail h.of_past (fun x hx => hne x (by simp [hx]))
      fun h => hz (by simp [h])
    have hz0 : z ≠ "" := hne z (by simp)
    have hl0 : l ≠ "" := hne l (by simp)
    have hmid : l ∉ List.replicate n z := fun h => hz (by simp [List.eq_of_mem_replicate h])
    refine ⟨z :: (List.replicate n z ++ l :: raw), ?_, by simp, ?_, fun m v => ?_⟩
    · rw [List.filter_cons_of_pos (by simpa using hz0), List.filter_append,
        List.filter_cons_of_pos (by simpa using hl0), hfilter,
        filter_eq_self_of_not_mem fun h => hz0 (List.eq_of_mem_replicate h).symm]
    · rw [← List.cons_append, List.append_cons, List.getLast?_append_of_ne_nil _ hnil]
      exact hlast
    · rw [lay_leave hmid, hlay]
  | case4 l q ih =>
    have hl0 : l ≠ "" := hne l (by simp)
    have hall : "" ∉ l :: filler z n q := fun h => hne "" h rfl
    refine ⟨"" :: l :: filler z n q, ?_, by simp, ?_, fun m v => ?_⟩
    · rw [List.filter_cons_of_neg (by simp), filter_eq_self_of_not_mem hall]
    · rw [List.getLast?_cons_cons]
      exact fun h => hall (List.mem_of_getLast? h)
    · rw [lay, if_neg (Ne.symm hl0)]
  | case5 a q hlast hwild hlit ih =>
    cases a with
    | wildcard => exact absurd (hq.spaced.eq_nil fun l q' h => hwild l q' rfl h) (hlast rfl)
    | pathComponent l => exact absurd rfl (hlit l)
    | leader => exact absurd List.mem_cons_self hq.noLeader
    | param m =>
      obtain ⟨raw, hfilter, hnil, hend, hlay⟩ := ih hq.tail h.of_param (fun x hx => hne x (by simp [hx]))
        fun h => hz (by simp [h])
      have hz0 : z ≠ "" := hne z (by simp)
      have hadv : advance (.param m) q = q := by
        apply if_neg
        rintro rfl
        exact not_asksFor_nil h.of_param
      refine ⟨z :: raw, ?_, by simp, ?_, fun m v => ?_⟩
      · rw [List.filter_cons_of_pos (by simpa using hz0), hfilter]
      · rwa [List.getLast?_cons_of_ne_nil hnil]
      · rw [lay, hadv, hlay]

end AsksFor

/-- The parser's errors are not the walk's. -/
theorem newStep_error_ne {st : Path.NewState} {arg : String} {e : ServerError} (h : Path.newStep st arg = .error e) :
    e ≠ ⟨"invalid path for parameter extraction"⟩ := by
  unfold Path.newStep at h
  split at h
  · split at h
    · cases h
      decide
    · cases h
  · split at h
    · split at h
      · cases h
        decide
      · cases h
    · split at h <;> cases h

theorem foldlM_newStep_error_ne {e : ServerError} : ∀ {args : List String} {st : Path.NewState},
    args.foldlM Path.newStep st = .error e → e ≠ ⟨"invalid path for parameter extraction"⟩
  | [], _, h => by cases h
  | arg :: args, st, h => by
    rw [List.foldlM_cons] at h
    cases hstep : Path.newStep st arg with
    | error e' =>
      rw [hstep] at h
      cases h
      exact newStep_error_ne hstep
    | ok st' =>
      rw [hstep] at h
      exact foldlM_newStep_error_ne h

theorem new_error_ne {s : String} {e : ServerError} (h : Path.new s = .error e) :
    e ≠ ⟨"invalid path for parameter extraction"⟩ := by
  unfold Path.new at h
  dsimp only at h
  split at h
  · cases hrun : (split (trimEndMatches s '/') '/').foldlM Path.newStep ⟨Path.default, false⟩ with
    | error e' =>
      rw [hrun] at h
      cases h
      exact foldlM_newStep_error_ne hrun
    | ok st =>
      rw [hrun] at h
      cases h
  · cases h

/-- A route that no other shadows, with a pattern that asks for a literal, fails on a request
    that it matches and the others do not select. -/
theorem exists_failing {F B : Type} [Inhabited B] {uri : UriPaths} {pre : List (Route F)} {r : Route F} {pat : String}
    (hr : Path.new pat = .ok r.path) (hin : r.path.InUri uri) (hpre : ParsedRoutes pre) (hasks : AsksFor r.path.body)
    (hlive : ∀ r' ∈ pre, r'.method = r.method → ¬Subsumes r'.path.mask r.path.mask) :
    ∃ req : Request B, uri.IsPath req.path ∧ r.Selects req ∧
      r.path.extract req.path = .err ⟨"invalid path for parameter extraction"⟩ ∧ ∀ r' ∈ pre, ¬r'.Selects req := by
  obtain ⟨z, n, hz, hzbody, hvalues, hpast⟩ := exists_filler (B := B) hr hin hpre hlive
  have hne : ∀ x ∈ filler z n r.path.body, x ≠ "" := fun x hx => (hvalues x hx).1.1.1
  obtain ⟨raw, hfilter, hnil, hlast, hlay⟩ := exists_fault (walkable_of_new hr) hasks hne hzbody
  have hmem : ∀ x ∈ raw, x = "" ∨ IsUriValue uri x := by
    intro x hx
    refine or_iff_not_imp_left.mpr fun hx0 => hvalues x ?_
    rw [← hfilter]
    exact List.mem_filter.mpr ⟨hx, by simpa using hx0⟩
  have hslash : ∀ x ∈ raw, '/' ∉ x.toList := by
    intro x hx
    rcases hmem x hx with rfl | hx
    · simp
    · exact hx.1.1.2
  have huri : uri.IsPath (slashed raw '/' 0) := by
    refine UriPaths.isPath_slashed fun x hx => ?_
    rcases hmem x hx with rfl | hx
    · exact fun c hc => by simp at hc
    · exact hx.2
  have hraw : rawSegments (slashed raw '/' 0) '/' = raw := rawSegments_slashed_of_getLast? hslash hlast
  have hseg : pathSegments (slashed raw '/' 0) = filler z n r.path.body ++ [] := by
    rw [pathSegments_of_startsWith (startsWith_slashed _ _ _), ← filter_rawSegments (startsWith_slashed _ _ _), hraw,
      hfilter, List.append_nil]
  obtain ⟨hsel, hbefore⟩ := hpast _ [] hseg (by simp) fun _ => rfl
  refine ⟨Request.of r.method (slashed raw '/' 0), huri, hsel, ?_, hbefore⟩
  have hm : r.path.matches (slashed raw '/' 0) = .ok true := hsel.1
  show r.path.extract (slashed raw '/' 0) = _
  rw [extract_eq_lay hr hm, hraw]
  exact hlay _ _

/-- **Which apps fail a request that they match.** For every run of registrations with patterns
    of literals that a URI can have, and whatever the handlers do: some request is answered
    with the error of the extraction, and no handler called, exactly when there is a route
    whose pattern has a literal that is not right after a wildcard and that no route before
    it, with its method, shadows. -/
theorem dispatch_fails_iff {F B S T : Type} [Inhabited B] [TransientState T] (uri : UriPaths)
    (call : F → HandlerFunc B (App F S) T) (start : Option S) (rs : List (Registration F))
    (hin : ∀ r ∈ ((App.start start : App F S).registerAll rs).router.routes, r.path.InUri uri) :
    let app := (App.start start).registerAll rs
    (∃ req : Request B, uri.IsPath req.path ∧ app.router.dispatch call req app =
      Traced.lift (.err (.internalServerError "invalid path for parameter extraction"))) ↔
        ∃ pre r post, app.router.routes = pre ++ r :: post ∧ AsksFor r.path.body ∧
          ∀ r' ∈ pre, r'.method = r.method → ¬Subsumes r'.path.mask r.path.mask := by
  intro app
  have hroutes : app.router.routes = rs.filterMap Registration.route? := routes_registered start rs
  have hparsed : ParsedRoutes app.router.routes := parsed_registerAll start rs
  constructor
  · intro h
    obtain ⟨req, -, h⟩ := h
    rcases dispatch_cases call start rs req with ⟨e, ho, he⟩ | he | ⟨pre, r, post, hsplit, hsel, hbefore, he⟩
    · rw [he] at h
      obtain ⟨msg⟩ := e
      cases h
      exact absurd rfl (new_error_ne ho)
    · rw [he] at h
      cases h
    · rw [he, Route.dispatch_eq_err hsel.2] at h
      obtain ⟨⟨pat, hpat⟩, hpre⟩ := parsed_append (hsplit ▸ hparsed)
      refine ⟨pre, r, post, hsplit, ?_, not_shadowed hpat hpre hsel hbefore⟩
      obtain ⟨e', hext, -⟩ := h
      rw [extract_eq_lay hpat hsel.1] at hext
      exact asksFor_of_lay (walkable_of_new hpat) hext
  · intro h
    obtain ⟨pre, r, post, hsplit, hasks, hlive⟩ := h
    have hr : r ∈ app.router.routes := by
      rw [hsplit]
      exact List.mem_append_right _ List.mem_cons_self
    obtain ⟨⟨pat, hpat⟩, hpre⟩ := parsed_append (hsplit ▸ hparsed)
    obtain ⟨req, huri, hsel, hext, hbefore⟩ := exists_failing (B := B) hpat (hin r hr) hpre hasks hlive
    refine ⟨req, huri, ?_⟩
    rw [dispatch_of_past call start (hroutes.symm.trans hsplit) hsel hbefore, Route.dispatch_eq_err hsel.2]
    exact ⟨_, hext, rfl⟩

/-- `/:x/b` asks for `b`, and the route before it does not take all that it matches. -/
theorem dispatch_fails_iff_literal : ∃ app : App Nat Unit,
    app = (App.start none).registerAll [⟨.get, "/a/*", .new 1 none⟩, ⟨.get, "/:x/b", .new 2 none⟩] ∧
    ∃ req : Request String, UriPaths.pathChars.IsPath req.path ∧ app.router.dispatch
      (fun _ req _ _ _ (state : NoState) => .ok (req, some ⟨.ok, .empty, "found"⟩, state)) req app =
        Traced.lift (.err (.internalServerError "invalid path for parameter extraction")) := by
  refine ⟨_, rfl, (@dispatch_fails_iff Nat String Unit NoState _ _ .pathChars
    (fun _ req _ _ _ state => .ok (req, some ⟨.ok, .empty, "found"⟩, state)) none
    [⟨.get, "/a/*", .new 1 none⟩, ⟨.get, "/:x/b", .new 2 none⟩] ?_).mpr ?_⟩
  · intro r hr
    have hmem : r ∈ [(⟨.std .get, ⟨[.leader, .pathComponent "a", .wildcard]⟩, .new 1 none⟩ : Route Nat),
      ⟨.std .get, ⟨[.leader, .param "x", .pathComponent "b"]⟩, .new 2 none⟩] := hr
    simp only [List.mem_cons, List.not_mem_nil, or_false] at hmem
    rcases hmem with rfl | rfl <;> decide
  · refine ⟨[⟨.std .get, ⟨[.leader, .pathComponent "a", .wildcard]⟩, .new 1 none⟩],
      ⟨.std .get, ⟨[.leader, .param "x", .pathComponent "b"]⟩, .new 2 none⟩, [], rfl,
      ⟨[.param "x"], "b", [], rfl, by decide⟩, ?_⟩
    simp only [List.forall_mem_singleton]
    decide

end DavisJr
