import DavisJr.Handler
import DavisJr.Verdict

/- `router.rs`: routes and their dispatch. The loop of `Router::dispatch` tries the
   routes in order; it parses the request path again for each of them and leaves with
   the parser's error, if there is one, before it tries the next. A route once
   selected extracts the params with a walk of its own, which fails or panics on
   requests that cannot be laid along the pattern (`extract_agrees_iff`). -/
namespace DavisJr
open Lib Lib.Str

structure Route (F : Type) where
  method : Method
  path : Path
  handler : Handler F

/-- The routes in the order they were added. -/
structure Router (F : Type) where
  routes : List (Route F)

section Model
variable {F B A T : Type}

/-- `Route::new`. -/
def Route.new (method : Method) (path : String) (handler : Handler F) : Except ServerError (Route F) := do
  return { method, handler, path := ← Path.new path }

def Route.dispatch (call : F → HandlerFunc B A T) (self : Route F) (provided : String) (req : Request B)
    (app : A) (state : T) : Traced (Call F B A T) Error (Request B × Option (Response B) × T) := do
  let params ← Traced.lift (Outcome.mapErr Error.ofServerError (self.path.extract provided))
  if self.method ≠ req.method then
    Traced.lift (.err (.statusCode .notFound ""))
  else
    self.handler.perform call req none params app state

/-- `PartialEq for Route`. -/
def Route.eq {ε : Type} (self other : Route F) : Outcome ε Bool :=
  if self.method.toString = other.method.toString then self.path.eq other.path else .ok false

/-- `Ord for Route`. -/
def Route.cmp (self other : Route F) : Ordering :=
  let left := self.method.toString ++ " " ++ self.path.toString
  let right := other.method.toString ++ " " ++ other.path.toString
  compare left right

/-- `Router::new`. -/
def Router.new : Router F := ⟨[]⟩

/-- `Router::add`: its result, and the router after it. -/
def Router.add (self : Router F) (method : Method) (path : String) (ch : Handler F) :
    Except ServerError (Router F) × Router F :=
  match Route.new method path ch with
  | .ok route => (.ok ⟨self.routes ++ [route]⟩, ⟨self.routes ++ [route]⟩)
  | .error e => (.error e, self)

/-- `for route in self.0.clone()`. -/
def Router.dispatchLoop [TransientState T] (call : F → HandlerFunc B A T) (path : String) (req : Request B)
    (app : A) : List (Route F) → Traced (Call F B A T) Error (Response B)
  | [] => Traced.lift (.err (.statusCode .methodNotAllowed ""))
  | route :: routes => do
    -- an error of `matches` leaves the loop, whatever routes come after
    if (← Traced.lift (route.path.matches path)) && route.method = req.method then
      let (_, response, _) ← route.dispatch call path req app TransientState.initial
      match response with
      | none => Traced.lift (.err (.statusCode .notFound ""))
      | some response => return response
    else
      dispatchLoop call path req app routes

def Router.dispatch [TransientState T] (call : F → HandlerFunc B A T) (self : Router F) (req : Request B)
    (app : A) : Traced (Call F B A T) Error (Response B) :=
  Router.dispatchLoop call req.path req app self.routes

end Model

/-! One route. -/

section Route
variable {F B A T : Type} {call : F → HandlerFunc B A T} {route : Route F} {s : String} {req : Request B}
  {app : A} {state : T}

theorem Route.dispatch_of_ok {m : Params} (hm : route.path.extract s = .ok m)
    (hmethod : route.method = req.method) :
    route.dispatch call s req app state = route.handler.perform call req none m app state := by
  rw [Route.dispatch, hm, Outcome.mapErr_ok, Traced.lift_ok_bind, if_neg (not_not_intro hmethod)]

/-- A route whose extraction fails calls nothing. -/
theorem Route.dispatch_of_err {e : ServerError} (he : route.path.extract s = .err e) :
    route.dispatch call s req app state = Traced.lift (.err (.internalServerError e.msg)) := by
  rw [Route.dispatch, he, Outcome.mapErr_err, Traced.lift_err_bind]
  rfl

end Route

/-- **Matching and extraction disagree on requests that cannot be laid along the pattern.**
    For every accepted pattern and every request: extraction succeeds exactly when the
    match does, and a route of that pattern, once selected, goes on to perform its
    handler, exactly when the request, if the comparison admits its segments, can also
    be laid, raw segment by raw segment, along the pattern. -/
theorem extract_agrees_iff {F B A T : Type} (call : F → HandlerFunc B A T) {pat : String} {p : Path}
    (hp : Path.new pat = .ok p) (s : String) :
    (((∃ m, p.extract s = .ok m) ↔ p.matches s = .ok true) ∧
      ∀ (route : Route F) (req : Request B) (app : A) (state : T), route.path = p →
        p.matches s = .ok true → route.method = req.method →
        ∃ m, route.dispatch call s req app state = route.handler.perform call req none m app state) ↔
    (Admits (pathSegments pat) (pathSegments s) → Laid p.body (rawSegments s '/')) := by
  have hext := extract_eq_ok hp s
  rw [← matches_eq_true hp]
  constructor
  · intro ⟨hagree, _⟩ hm
    exact (hext.mp (hagree.mpr hm)).2
  · intro h
    have hok : p.matches s = .ok true → ∃ m, p.extract s = .ok m :=
      fun hm => hext.mpr ⟨hm, h hm⟩
    refine ⟨⟨fun hm => (hext.mp hm).1, hok⟩, ?_⟩
    intro route req app state hpath hm hmethod
    obtain ⟨m, hm⟩ := hok hm
    exact ⟨m, Route.dispatch_of_ok (hpath ▸ hm) hmethod⟩

/-- `/abc/def/` can be laid along `/abc/def`. -/
theorem extract_agrees_iff_trailing_slash :
    (∃ m, Path.extract ⟨[.leader, .pathComponent "abc", .pathComponent "def"]⟩ "/abc/def/" = .ok m) ↔
      Path.matches ⟨[.leader, .pathComponent "abc", .pathComponent "def"]⟩ "/abc/def/" = .ok true :=
  ((@extract_agrees_iff Unit Unit Unit Unit (fun _ req response _ _ state => .ok (req, response, state))
    "/abc/def" ⟨[.leader, .pathComponent "abc", .pathComponent "def"]⟩ (by decide) "/abc/def/").mpr
      fun _ => .literal (.literal .done)).1

/-- `/x/a/c` matches `/*/a/b`, as nothing after the wildcard is compared, and `//abc/def`
    matches `/abc/def`, as the parser drops empty segments; the walk stops on both. -/
theorem matches_without_extract :
    Path.new "/*/a/b" = .ok ⟨[.leader, .wildcard, .pathComponent "a", .pathComponent "b"]⟩ ∧
      Path.matches ⟨[.leader, .wildcard, .pathComponent "a", .pathComponent "b"]⟩ "/x/a/c" = .ok true ∧
      Path.extract ⟨[.leader, .wildcard, .pathComponent "a", .pathComponent "b"]⟩ "/x/a/c" =
        .err ⟨"invalid path for parameter extraction"⟩ ∧
      Path.new "/abc/def" = .ok ⟨[.leader, .pathComponent "abc", .pathComponent "def"]⟩ ∧
      Path.matches ⟨[.leader, .pathComponent "abc", .pathComponent "def"]⟩ "//abc/def" = .ok true ∧
      Path.extract ⟨[.leader, .pathComponent "abc", .pathComponent "def"]⟩ "//abc/def" =
        .err ⟨"invalid path for parameter extraction"⟩ := by
  decide

/-! The loop over the routes. -/

/-- The tests that select a route. -/
def Route.Selects {F B : Type} (route : Route F) (req : Request B) : Prop :=
  route.path.matches req.path = .ok true ∧ route.method = req.method

instance {F B : Type} (route : Route F) (req : Request B) : Decidable (route.Selects req) :=
  inferInstanceAs (Decidable (_ ∧ _))

/-- What becomes of the triple that a selected route ends with. -/
def respond {B T : Type} (t : Request B × Option (Response B) × T) : Outcome Error (Response B) :=
  match t.2.1 with
  | none => .err (.statusCode .notFound "")
  | some response => .ok response

section Loop
variable {F B A T : Type} [TransientState T] {call : F → HandlerFunc B A T} {req : Request B} {app : A}

theorem dispatchLoop_cons {route : Route F} {routes : List (Route F)} {b : Bool}
    (h : route.path.matches req.path = .ok b) :
    Router.dispatchLoop call req.path req app (route :: routes) =
      if route.Selects req then
        route.dispatch call req.path req app TransientState.initial >>= fun t => Traced.lift (respond t)
      else Router.dispatchLoop call req.path req app routes := by
  have hb : route.Selects req ↔ (b && decide (route.method = req.method)) = true := by
    rw [Route.Selects, h, Outcome.ok.injEq, Bool.and_eq_true, decide_eq_true_eq]
  rw [Router.dispatchLoop, h, Traced.lift_ok_bind]
  by_cases hsel : route.Selects req
  · rw [if_pos hsel, if_pos (hb.mp hsel)]
    apply congrArg
    funext ⟨_, response, _⟩
    cases response <;> rfl
  · rw [if_neg hsel, if_neg (mt hb.mpr hsel)]

/-- Where the request path is no error for any route, the first route that selects the
    request answers it, and 405 is the answer when there is none. -/
theorem dispatchLoop_eq {routes : List (Route F)}
    (h : ∀ r ∈ routes, ∃ b, r.path.matches req.path = .ok b) :
    Router.dispatchLoop call req.path req app routes =
      match routes.find? fun r => r.Selects req with
      | some r => r.dispatch call req.path req app TransientState.initial >>= fun t => Traced.lift (respond t)
      | none => Traced.lift (.err (.statusCode .methodNotAllowed "")) := by
  induction routes with
  | nil => rfl
  | cons r routes ih =>
    obtain ⟨b, hb⟩ := h r List.mem_cons_self
    rw [dispatchLoop_cons hb, List.find?_cons]
    by_cases hsel : r.Selects req
    · rw [if_pos hsel, decide_eq_true hsel]
    · rw [if_neg hsel, decide_eq_false hsel]
      exact ih fun r hr => h r (List.mem_cons_of_mem _ hr)

/-- What the handlers do not see of an app does not matter to the router. -/
theorem dispatchLoop_congr_app {app' : A} (happ : ∀ f req response params state,
      call f req response params app state = call f req response params app' state) :
    ∀ routes : List (Route F), (Router.dispatchLoop call req.path req app routes).mapLog Call.withoutApp =
      (Router.dispatchLoop call req.path req app' routes).mapLog Call.withoutApp
  | [] => rfl
  | route :: routes => by
    have hroute : ∀ state, (route.dispatch call req.path req app state).mapLog Call.withoutApp =
        (route.dispatch call req.path req app' state).mapLog Call.withoutApp := by
      intro state
      rw [Route.dispatch, Route.dispatch, Traced.mapLog_bind, Traced.mapLog_bind]
      refine congrArg _ (funext fun m => ?_)
      split
      · rfl
      · exact perform_congr_app call m app happ route.handler req none state
    rw [Router.dispatchLoop, Router.dispatchLoop, Traced.mapLog_bind, Traced.mapLog_bind]
    refine congrArg _ (funext fun b => ?_)
    split
    · rw [Traced.mapLog_bind, Traced.mapLog_bind, hroute]
    · exact dispatchLoop_congr_app happ routes

end Loop
end DavisJr
