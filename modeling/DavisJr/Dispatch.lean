import DavisJr.App

/- What an app answers after a run of registrations. A request path that the parser
   accepts is routed to the first route that selects it (`dispatch_first_match`); one
   that it does not accept fails for every route, before the loop can come to its 405
   (`matches_total_iff`). The answer is what the chain of the selected route ends in,
   as the error mapping turns it into a response; a chain that ends without a
   response is answered 404 where the documentation says 500
   (`dispatch_documented_iff`). -/
namespace DavisJr
open Lib Lib.Str

section Dispatch
variable {F B S T : Type} [TransientState T] (call : F → HandlerFunc B (App F S) T) (start : Option S)
  (rs : List (Registration F))

/-- The routes of an app after a run of registrations. -/
theorem routes_registered : ((App.start start : App F S).registerAll rs).router.routes =
    rs.filterMap Registration.route? := by
  rw [registerAll_routes, routes_start, List.nil_append]

variable {rs}

/-- A request path that the parser accepts is no error for any registered route. -/
theorem matches_registered {req : Request B} {o : Path} (ho : Path.new req.path = .ok o) :
    ∀ r ∈ rs.filterMap Registration.route?, ∃ b, r.path.matches req.path = .ok b := by
  intro r hr
  obtain ⟨pat, hpat⟩ := path_of_mem_routes hr
  exact ⟨_, matches_of_new hpat ho⟩

/-- The answer of the route that a request path selects, if the parser accepts it. -/
theorem dispatch_registered {req : Request B} {o : Path} {r : Route F} (ho : Path.new req.path = .ok o)
    (hfind : (rs.filterMap Registration.route?).find? (fun r => r.Selects req) = some r) :
    ((App.start start).registerAll rs).router.dispatch call req ((App.start start).registerAll rs) =
      r.dispatch call req.path req ((App.start start).registerAll rs) TransientState.initial >>=
        fun t => Traced.lift (respond t) := by
  rw [Router.dispatch, routes_registered, dispatchLoop_eq (matches_registered ho), hfind]

theorem dispatch_registered_none {req : Request B} {o : Path} (ho : Path.new req.path = .ok o)
    (hfind : (rs.filterMap Registration.route?).find? (fun r => r.Selects req) = none) :
    ((App.start start).registerAll rs).router.dispatch call req ((App.start start).registerAll rs) =
      Traced.lift (.err (.statusCode .methodNotAllowed "")) := by
  rw [Router.dispatch, routes_registered, dispatchLoop_eq (matches_registered ho), hfind]

end Dispatch

/-- **First-match routing.** After any run of registrations the app holds the routes of the
    calls whose paths the parser accepts, with their methods and handlers and in the order of
    the calls, and calls that failed might as well not have been made. A request path that
    the parser accepts goes to the first route with the request's method and a pattern that
    matches: when extraction succeeds exactly that route's handler is performed, from no
    response, the params extracted and the initial state; when it fails nothing is called,
    and its error is the answer; and without such a route nothing is called, and the answer
    is 405. -/
theorem dispatch_first_match {F B S T : Type} [TransientState T] (call : F → HandlerFunc B (App F S) T)
    (start : Option S) (rs : List (Registration F)) :
    let accepted : List (Route F) := rs.filterMap fun r =>
      (Path.new r.path).toOption.map fun path => ⟨.std r.method, path, r.handler⟩
    ((App.start start : App F S).registerAll rs).router.routes = accepted ∧
    (∀ (pre post : List (Registration F)) (r : Registration F) (e : ServerError), rs = pre ++ r :: post →
      (r.apply ((App.start start : App F S).registerAll pre)).1 = .error e →
      (App.start start : App F S).registerAll rs = (App.start start).registerAll (pre ++ post)) ∧
    ∀ (req : Request B) (o : Path), Path.new req.path = .ok o →
      let app := (App.start start).registerAll rs
      let first := accepted.find? fun r => r.Selects req
      (∀ r, first = some r →
        (∀ m, r.path.extract req.path = .ok m →
          let run := r.handler.perform call req none m app TransientState.initial
          (app.router.dispatch call req app).log = run.log ∧
            (app.router.dispatch call req app).outcome = run.outcome >>= respond) ∧
        ∀ e, r.path.extract req.path = .err e →
          app.router.dispatch call req app = Traced.lift (.err (.internalServerError e.msg))) ∧
      (first = none →
        app.router.dispatch call req app = Traced.lift (.err (.statusCode .methodNotAllowed ""))) := by
  intro accepted
  have haccepted : accepted = rs.filterMap Registration.route? := rfl
  rw [haccepted]
  refine ⟨routes_registered start rs, ?_, ?_⟩
  · rintro pre post r e rfl he
    -- the app after the call is the app before it
    have hsame : (r.apply ((App.start start : App F S).registerAll pre)).2 =
        (App.start start).registerAll pre := by
      cases hr : Path.new r.path with
      | ok path => rw [r.apply_of_ok hr] at he; cases he
      | error e => rw [r.apply_of_error hr]
    rw [registerAll_append, registerAll_append, App.registerAll, List.foldl_cons, hsame]
    rfl
  · intro req o ho app first
    refine ⟨fun r hfind => ?_, dispatch_registered_none call start ho⟩
    have hdispatch := dispatch_registered call start ho hfind
    have hsel : r.Selects req := by simpa using List.find?_some hfind
    refine ⟨fun m hm => ?_, fun e he => ?_⟩
    · rw [hdispatch, Route.dispatch_of_ok hm hsel.2]
      exact ⟨Traced.log_bind_lift _ _, Traced.outcome_bind _ _⟩
    · rw [hdispatch, Route.dispatch_of_err he]
      rfl

/-- A POST goes past a call that was refused and a GET of the same path to the first of two
    routes that match, whose two functions are called in order. -/
theorem dispatch_first_match_refused : ∃ app : App Nat Unit,
    app = (App.start none).registerAll [⟨.post, "/*/*", .new 1 none⟩, ⟨.get, "/a/b", .new 2 none⟩,
      ⟨.post, "/a/:x", .new 3 (some (.new 4 none))⟩, ⟨.post, "/a/b", .new 5 none⟩] ∧
    let run := app.router.dispatch (fun n req response _ _ (state : NoState) =>
      .ok (req, some ⟨.ok, .empty, n :: (response.map Response.body).getD []⟩, state))
      ⟨.std .post, "/a/b", .empty, []⟩ app
    run.log.map Call.handler = [3, 4] ∧ run.outcome = .ok ⟨.ok, .empty, [4, 3]⟩ := by
  refine ⟨_, rfl, ?_⟩
  have h := (dispatch_first_match (fun n req response _ _ (state : NoState) =>
      .ok (req, some ⟨.ok, .empty, n :: (response.map Response.body).getD []⟩, state)) (none : Option Unit)
    [⟨.post, "/*/*", .new 1 none⟩, ⟨.get, "/a/b", .new 2 none⟩, ⟨.post, "/a/:x", .new 3 (some (.new 4 none))⟩,
      ⟨.post, "/a/b", .new 5 none⟩]).2.2 (⟨.std .post, "/a/b", .empty, []⟩ : Request (List Nat))
    ⟨[.leader, .pathComponent "a", .pathComponent "b"]⟩ (by decide)
  have hm : Path.extract ⟨[.leader, .pathComponent "a", .param "x"]⟩ "/a/b" =
      .ok ((∅ : Params).insert "x" "b") := by decide
  obtain ⟨hlog, houtcome⟩ := (h.1 ⟨.std .post, ⟨[.leader, .pathComponent "a", .param "x"]⟩,
    .new 3 (some (.new 4 none))⟩ rfl).1 _ hm
  exact ⟨congrArg _ hlog, houtcome⟩

/-- **A request path is parsed as a pattern.** After any run of registrations and for every
    request path that starts with a slash: the match is no error for any route, the
    answer is 405 where no route is selected, and never an error of the parser, exactly
    when there is no route at all or no `*` of the path comes right before another
    `*` or a segment that starts with a colon. -/
theorem matches_total_iff {F B S T : Type} [TransientState T] (call : F → HandlerFunc B (App F S) T)
    (start : Option S) (rs : List (Registration F)) {req : Request B} (hreq : startsWith req.path '/' = true) :
    let app := (App.start start).registerAll rs
    ((∀ r ∈ app.router.routes, ∃ b, r.path.matches req.path = .ok b) ∧
      ((∀ r ∈ app.router.routes, ¬r.Selects req) →
        app.router.dispatch call req app = Traced.lift (.err (.statusCode .methodNotAllowed ""))) ∧
      ∀ e, Path.new req.path = .error e →
        (app.router.dispatch call req app).outcome ≠ .err (.internalServerError e.msg)) ↔
    app.router.routes = [] ∨ (segments req.path '/').IsChain Follows := by
  intro app
  have hroutes : app.router.routes = rs.filterMap Registration.route? := routes_registered start rs
  have hpath := pathSegments_of_startsWith hreq
  constructor
  · intro ⟨hmatch, _, _⟩
    refine or_iff_not_imp_right.mpr fun hch => ?_
    obtain ⟨e, he⟩ := new_of_not_isChain (hpath ▸ hch)
    -- every route, if there is one, fails with the parser's error
    apply List.eq_nil_iff_forall_not_mem.mpr
    intro r hr
    obtain ⟨b, hb⟩ := hmatch r hr
    rw [matches_of_error he] at hb
    cases hb
  · rintro (hnil | hch)
    · have hdispatch : app.router.dispatch call req app =
          Traced.lift (.err (.statusCode .methodNotAllowed "")) := by
        rw [Router.dispatch, hnil]
        rfl
      rw [hdispatch, hnil]
      exact ⟨by simp, fun _ => rfl, fun e _ h => by cases h⟩
    · have ho := new_of_isChain (hpath.symm ▸ hch)
      refine ⟨hroutes ▸ matches_registered ho, fun hsel => ?_, fun e he => ?_⟩
      · apply dispatch_registered_none call start ho
        rw [List.find?_eq_none, ← hroutes]
        simpa using hsel
      · rw [ho] at he
        cases he

/-- A `*` at the end of the request path is no error. -/
theorem matches_total_iff_star : ∃ app : App Nat Unit,
    app = (App.start none).registerAll [⟨.get, "/a", .new 1 none⟩] ∧
    app.router.dispatch (fun _ req response _ _ (state : NoState) => .ok (req, response, state))
      ⟨.std .get, "/b/*", .empty, ()⟩ app = Traced.lift (.err (.statusCode .methodNotAllowed "")) := by
  refine ⟨_, rfl, ?_⟩
  have h := (matches_total_iff
    (fun _ req response _ _ (state : NoState) => .ok (req, response, state)) (none : Option Unit)
    [⟨.get, "/a", .new 1 none⟩] (by decide : startsWith (⟨.std .get, "/b/*", .empty, ()⟩ : Request Unit).path '/' = true)).mpr
    (.inr (by decide))
  refine h.2.1 fun r hr => ?_
  have hroutes : ((App.start none : App Nat Unit).registerAll [⟨.get, "/a", .new 1 none⟩]).router.routes =
      [⟨.std .get, ⟨[.leader, .pathComponent "a"]⟩, .new 1 none⟩] := rfl
  rw [hroutes, List.mem_singleton] at hr
  subst hr
  decide

/-- The request path `/*/*` is no pattern: instead of 405, the answer is the parser's error. -/
theorem matches_fails_on_path : ∃ app : App Nat Unit,
    app = (App.start none).registerAll [⟨.get, "/a", .new 1 none⟩] ∧
    Path.matches ⟨[.leader, .pathComponent "a"]⟩ "/*/*" =
      .err (.internalServerError "no more than one wildcard may be used in a path") ∧
    (app.router.dispatch (fun _ req response _ _ (state : NoState) => .ok (req, response, state))
      ⟨.std .get, "/*/*", .empty, ()⟩ app).outcome =
        .err (.internalServerError "no more than one wildcard may be used in a path") :=
  ⟨_, rfl, by decide, by decide⟩

/-! The answer. -/

/-- What the documentation says about the response to what a chain ends in. -/
def Documented {B T : Type} [HttpBody B] (result : HTTPResult B T) (response : Response B) : Prop :=
  match result with
  | .ok (_, some r, _) => response = r
  | .ok (_, none, _) => response.status = .internalServerError
  | .error (.statusCode sc msg) => response.status = sc ∧ response.body = HttpBody.ofString (msg ++ "\n")
  | .error (.internalServerError s) =>
    response.status = .internalServerError ∧ response.body = HttpBody.ofString (s ++ "\n")

section Answer
variable {F B S T : Type} [TransientState T] [HttpBody B]

/-- The response of an app to a request whose route is selected and whose params are extracted. -/
theorem outcome_dispatch (call : F → HandlerFunc B (App F S) T) (start : Option S)
    (rs : List (Registration F)) {req : Request B} {r : Route F} {m : Params}
    (hfind : (rs.filterMap Registration.route?).find? (fun r => r.Selects req) = some r)
    (hm : r.path.extract req.path = .ok m) :
    (((App.start start).registerAll rs).dispatch call req).outcome =
      (Outcome.ofExcept (chain call m ((App.start start).registerAll rs) r.handler.funcs
        (req, none, TransientState.initial)) >>= respond).recover App.errorResponse := by
  have hsel : r.Selects req := by simpa using List.find?_some hfind
  cases ho : Path.new req.path with
  | error e =>
    have hmatch := hsel.1
    rw [matches_of_error ho] at hmatch
    cases hmatch
  | ok o =>
    have hdispatch := dispatch_registered call start ho hfind
    rw [Route.dispatch_of_ok hm hsel.2] at hdispatch
    rw [App.dispatch, hdispatch, Traced.recover, Traced.outcome_bind,
      outcome_perform call m _ r.handler (req, none, TransientState.initial)]
    rfl

end Answer

/-- **A chain that ends without a response is answered 404.** After any run of
    registrations, for every request with a route that selects it and params that are
    extracted, and every chain on that route: the response is the documented one
    exactly when the chain does not end in success without a response. -/
theorem dispatch_documented_iff {F B S T : Type} [TransientState T] [HttpBody B]
    (call : F → HandlerFunc B (App F S) T) (start : Option S) (rs : List (Registration F))
    {req : Request B} {r : Route F} {m : Params}
    (hfind : (rs.filterMap Registration.route?).find? (fun r => r.Selects req) = some r)
    (hm : r.path.extract req.path = .ok m) :
    let app := (App.start start).registerAll rs
    let result := chain call m app r.handler.funcs (req, none, TransientState.initial)
    (∃ response, (app.dispatch call req).outcome = .ok response ∧ Documented result response) ↔
      ¬∃ req' state, result = .ok (req', none, state) := by
  intro app result
  have houtcome : (app.dispatch call req).outcome =
      (Outcome.ofExcept result >>= respond).recover App.errorResponse :=
    outcome_dispatch call start rs hfind hm
  rw [houtcome]
  cases result with
  | error e =>
    refine iff_of_true ⟨App.errorResponse e, rfl, ?_⟩ fun ⟨_, _, h⟩ => by cases h
    cases e <;> exact ⟨rfl, rfl⟩
  | ok t =>
    obtain ⟨req', response, state⟩ := t
    cases response with
    | some response => exact iff_of_true ⟨response, rfl, rfl⟩ fun ⟨_, _, h⟩ => by cases h
    | none =>
      -- the router answers 404 here, where the documentation says 500
      refine iff_of_false ?_ fun h => h ⟨req', state, rfl⟩
      intro ⟨response, h, hdoc⟩
      cases h
      exact absurd hdoc (by decide : StatusCode.notFound ≠ .internalServerError)

/-- The first function of a chain fails with a status. -/
theorem dispatch_documented_iff_status : ∃ app : App Nat Unit,
    app = (App.start none).registerAll [⟨.get, "/a", .new 1 (some (.new 2 none))⟩] ∧
    ∃ response : Response String,
      (app.dispatch (fun _ _ _ _ _ (_ : NoState) => .error (.statusCode .methodNotAllowed "no"))
        ⟨.std .get, "/a", .empty, ""⟩).outcome = .ok response ∧
      response.status = .methodNotAllowed ∧ response.body = "no\n" := by
  refine ⟨_, rfl, ?_⟩
  have hm : Path.extract ⟨[.leader, .pathComponent "a"]⟩ "/a" = .ok ∅ := by decide
  exact (@dispatch_documented_iff Nat String Unit NoState _ _
    (fun _ _ _ _ _ _ => .error (.statusCode .methodNotAllowed "no")) none
    [⟨.get, "/a", .new 1 (some (.new 2 none))⟩] ⟨.std .get, "/a", .empty, ""⟩
    ⟨.std .get, ⟨[.leader, .pathComponent "a"]⟩, .new 1 (some (.new 2 none))⟩ ∅ rfl hm).mpr
    fun ⟨_, _, h⟩ => by cases h

/-- A chain that ends without a response is answered 404, not the documented 500. -/
theorem dispatch_answers_not_found : ∃ app : App Nat Unit,
    app = (App.start none).registerAll [⟨.get, "/a", .new 1 none⟩] ∧
    (app.dispatch (fun _ req response _ _ (state : NoState) => .ok (req, response, state))
      ⟨.std .get, "/a", .empty, ""⟩).outcome = .ok ⟨.notFound, .empty, "\n"⟩ ∧
    chain (fun _ req response _ _ (state : NoState) => .ok (req, response, state)) ∅ app
      (Handler.new 1 none).funcs (⟨.std .get, "/a", .empty, ""⟩, none, TransientState.initial) =
        .ok (⟨.std .get, "/a", .empty, ""⟩, none, TransientState.initial) ∧
    ¬Documented (T := NoState) (.ok (⟨.std .get, "/a", .empty, ""⟩, none, TransientState.initial))
      (⟨.notFound, .empty, "\n"⟩ : Response String) :=
  ⟨_, rfl, by decide, rfl, fun h => absurd h (by decide : StatusCode.notFound ≠ .internalServerError)⟩

end DavisJr
