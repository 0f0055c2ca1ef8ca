import DavisJr.Lib.Prog
import DavisJr.Cursor
import DavisJr.Shadow

/- Dispatch with handlers that are programs: they may lock the state of the app, write to
   the log, panic, and wait in between. The functions are those of the source once more,
   in the monad of such programs; what they do before and after the handlers is as
   before, so a dispatch is one handler's program, or none, between two lines of the log
   (`dispatchAsync_cases`, `dispatchAsync_of_performs`). With handlers that only compute it
   is the dispatch of the app as before (`run_dispatchAsync_compute`). -/
namespace DavisJr
open Lib Lib.Str

/-- What an `async fn` returns with a `Result`; the state is there where the app has one. -/
abbrev Async (S ε α : Type) := ExceptT ε (Prog (Option S) String) α

/-- `HandlerFunc`, with the future that it returns. -/
abbrev AsyncFunc (B A S T : Type) :=
  Request B → Option (Response B) → Params → A → T → Async S Error (Request B × Option (Response B) × T)

/-- What the `http` crate prints: the URI of a request, and a status with its reason. -/
class HttpDisplay (B : Type) where
  uri : Request B → String
  status : StatusCode → String

/-- `Display for Error`. -/
def Error.toString (status : StatusCode → String) : Error → String
  | .statusCode code message => status code ++ ": " ++ message
  | .internalServerError ise => "Error: " ++ ise

section Model
variable {F B A S T : Type}

/-- Code that does not wait. -/
def ofOutcome {ε α : Type} : Outcome ε α → Async S ε α
  | .ok a => ExceptT.mk (.ret (.ok a))
  | .err e => ExceptT.mk (.ret (.error e))
  | .panic => ExceptT.mk .panic

def Handler.performAsync (call : F → AsyncFunc B A S T) : Handler F → Request B → Option (Response B) → Params →
    A → T → Async S Error (Request B × Option (Response B) × T)
  | .mk handler next, req, response, params, app, state => do
    let (req, response, state) ← call handler req response params app state
    match next with
    | some next => next.performAsync call req response params app state
    | none => return (req, response, state)

def Route.dispatchAsync (call : F → AsyncFunc B A S T) (self : Route F) (provided : String) (req : Request B)
    (app : A) (state : T) : Async S Error (Request B × Option (Response B) × T) := do
  let params ← ofOutcome (Outcome.mapErr Error.ofServerError (self.path.extract provided))
  if self.method ≠ req.method then
    ofOutcome (.err (.statusCode .notFound ""))
  else
    self.handler.performAsync call req none params app state

/-- `for route in self.0.clone()`. -/
def Router.dispatchLoopAsync [TransientState T] (call : F → AsyncFunc B A S T) (path : String) (req : Request B)
    (app : A) : List (Route F) → Async S Error (Response B)
  | [] => ofOutcome (.err (.statusCode .methodNotAllowed ""))
  | route :: routes => do
    if (← ofOutcome (route.path.matches path)) && route.method = req.method then
      let (_, response, _) ← route.dispatchAsync call path req app TransientState.initial
      match response with
      | none => ofOutcome (.err (.statusCode .notFound ""))
      | some response => return response
    else
      dispatchLoopAsync call path req app routes

def Router.dispatchAsync [TransientState T] (call : F → AsyncFunc B A S T) (self : Router F) (req : Request B)
    (app : A) : Async S Error (Response B) :=
  Router.dispatchLoopAsync call req.path req app self.routes

/-- `App::log`, at whatever level. -/
def log (msg : String) : Prog (Option S) String Unit := .emit msg (.ret ())

/-- `App::dispatch`. -/
def App.dispatchAsync [HttpBody B] [HttpDisplay B] [TransientState T] (call : F → AsyncFunc B (App F S) S T)
    (self : App F S) (req : Request B) : Prog (Option S) String (Response B) := do
  let uri := HttpDisplay.uri req
  let method := req.method.toString
  log (method ++ " request to " ++ uri)
  match ← (self.router.dispatchAsync call req self).run with
  | .ok resp =>
    let status := HttpDisplay.status B resp.status
    log (method ++ " request to " ++ uri ++ ": responding with status " ++ status)
    return resp
  | .error e =>
    log (method ++ " request to " ++ uri ++ ": responding with status " ++ e.toString (HttpDisplay.status B))
    return App.errorResponse e

end Model

/-! Code that does not wait. -/

section OfOutcome
variable {S ε α β : Type}

@[simp] theorem ofOutcome_ok_bind (a : α) (f : α → Async S ε β) : (ofOutcome (.ok a) >>= f) = f a := rfl

@[simp] theorem ofOutcome_err_bind (e : ε) (f : α → Async S ε β) :
    (ofOutcome (.err e) >>= f) = ofOutcome (.err e) := rfl

@[simp] theorem ofOutcome_panic_bind (f : α → Async S ε β) :
    (ofOutcome (.panic : Outcome ε α) >>= f) = ofOutcome .panic := rfl

theorem ofOutcome_bind (x : Outcome ε α) (f : α → Outcome ε β) :
    (ofOutcome (x >>= f) : Async S ε β) = ofOutcome x >>= fun a => ofOutcome (f a) := by
  cases x <;> rfl

theorem free_ofOutcome (x : Outcome ε α) : (ofOutcome x : Async S ε α).run.Free := by
  cases x <;> trivial

end OfOutcome

/-! The router: at most one route is dispatched. -/

section Router
variable {F B A S T : Type} (call : F → AsyncFunc B A S T) (req : Request B) (app : A)

/-- A route that selects the request performs its handler, if its params can be extracted. -/
theorem dispatchLoopAsync_of_selects [TransientState T] {route : Route F} (hsel : route.Selects req)
    (routes : List (Route F)) : Router.dispatchLoopAsync call req.path req app (route :: routes) =
      ofOutcome (Outcome.mapErr Error.ofServerError (route.path.extract req.path)) >>= fun m =>
        route.handler.performAsync call req none m app TransientState.initial >>= fun t => ofOutcome (respond t) := by
  have hguard : (true && decide (route.method = req.method)) = true := by simpa using hsel.2
  rw [Router.dispatchLoopAsync, hsel.1, ofOutcome_ok_bind, if_pos hguard, Route.dispatchAsync, bind_assoc]
  apply congrArg
  funext m
  rw [if_neg (not_not_intro hsel.2)]
  apply congrArg
  funext t
  obtain ⟨_, response, _⟩ := t
  cases response <;> rfl

theorem dispatchLoopAsync_of_not_selects [TransientState T] {route : Route F} {b : Bool}
    (hm : route.path.matches req.path = .ok b) (hsel : ¬route.Selects req) (routes : List (Route F)) :
    Router.dispatchLoopAsync call req.path req app (route :: routes) =
      Router.dispatchLoopAsync call req.path req app routes := by
  have hguard : ¬(b && decide (route.method = req.method)) = true := by
    intro h
    obtain ⟨rfl, hmethod⟩ : b = true ∧ route.method = req.method := by simpa using h
    exact hsel ⟨hm, hmethod⟩
  rw [Router.dispatchLoopAsync, hm, ofOutcome_ok_bind, if_neg hguard]

/-- Matching a request that parses comes to a result. -/
theorem exists_matches {o : Path} (ho : Path.new req.path = .ok o) (p : Path) : ∃ b, p.matches req.path = .ok b := by
  rw [Path.matches, ho]
  show ∃ b, p.eq o = .ok b
  unfold Path.eq
  split
  · exact ⟨false, rfl⟩
  · next hlen => exact (eqInv_start hlen).eqLoop

/-- The request comes to the handler of the route with these params: the route is the first
    that selects it, and its params can be extracted. -/
def Performs (routes : List (Route F)) (req : Request B) (route : Route F) (m : Params) : Prop :=
  (routes.find? fun r => r.Selects req) = some route ∧ route.path.extract req.path = .ok m

/-- The handler that the request comes to is performed. -/
theorem dispatchLoopAsync_of_performs [TransientState T] {route : Route F} {m : Params} :
    ∀ {routes : List (Route F)}, Performs routes req route m →
      Router.dispatchLoopAsync call req.path req app routes =
        route.handler.performAsync call req none m app TransientState.initial >>= fun t => ofOutcome (respond t)
  | [], h => by cases h.1
  | r :: routes, ⟨hfind, hext⟩ => by
    by_cases hsel : r.Selects req
    · rw [List.find?_cons_of_pos (by simpa using hsel), Option.some.injEq] at hfind
      subst hfind
      rw [dispatchLoopAsync_of_selects call req app hsel, hext]
      rfl
    · rw [List.find?_cons_of_neg (by simpa using hsel)] at hfind
      have hsel' : route.Selects req := by simpa using List.find?_some hfind
      -- the request parses, as it matches the route that is found
      cases ho : Path.new req.path with
      | error e =>
        have hm := hsel'.1
        rw [matches_of_error ho] at hm
        cases hm
      | ok o =>
        obtain ⟨b, hb⟩ := exists_matches req ho r.path
        rw [dispatchLoopAsync_of_not_selects call req app hb hsel]
        exact dispatchLoopAsync_of_performs ⟨hfind, hext⟩

/-- The loop over the routes performs the handler that the request comes to, or ends
    without waiting for anything. -/
theorem dispatchLoop_cases [TransientState T] : ∀ routes : List (Route F),
    (∃ x, Router.dispatchLoopAsync call req.path req app routes = ofOutcome x) ∨ ∃ route m, Performs routes req route m
  | [] => .inl ⟨_, rfl⟩
  | route :: routes => by
    by_cases hsel : route.Selects req
    · rw [dispatchLoopAsync_of_selects call req app hsel]
      cases hext : route.path.extract req.path with
      | panic => exact .inl ⟨.panic, rfl⟩
      | err e => exact .inl ⟨.err (.ofServerError e), rfl⟩
      | ok m => exact .inr ⟨route, m, List.find?_cons_of_pos (by simpa using hsel), hext⟩
    · cases hm : route.path.matches req.path with
      | panic => exact .inl ⟨.panic, by rw [Router.dispatchLoopAsync, hm]; rfl⟩
      | err e => exact .inl ⟨.err e, by rw [Router.dispatchLoopAsync, hm]; rfl⟩
      | ok b =>
        rw [dispatchLoopAsync_of_not_selects call req app hm hsel]
        rcases dispatchLoop_cases routes with h | ⟨route', m, hfind, hext⟩
        · exact .inl h
        · exact .inr ⟨route', m, by rwa [List.find?_cons_of_neg (by simpa using hsel)], hext⟩

end Router

/-! The app: two lines of the log around what the router does. -/

section App
variable {F B S T : Type} [HttpBody B] [HttpDisplay B]

/-- The line that a dispatch writes first. -/
def requestLine (req : Request B) : String := req.method.toString ++ " request to " ++ HttpDisplay.uri req

/-- The line that it writes last. -/
def answerLine (req : Request B) : Except Error (Response B) → String
  | .ok resp => requestLine req ++ ": responding with status " ++ HttpDisplay.status B resp.status
  | .error e => requestLine req ++ ": responding with status " ++ e.toString (HttpDisplay.status B)

/-- What a dispatch writes last, if it comes to it. -/
def lastLine (req : Request B) : Outcome Error (Response B) → List String
  | .ok resp => [answerLine req (.ok resp)]
  | .err e => [answerLine req (.error e)]
  | .panic => []

/-- The response that the result of the router becomes. -/
def answer : Except Error (Response B) → Response B
  | .ok resp => resp
  | .error e => App.errorResponse e

/-- What a dispatch does once a handler has been performed. -/
def finish (req : Request B) (t : Except Error (Request B × Option (Response B) × T)) :
    Prog (Option S) String (Response B) := do
  let r ← (ExceptT.mk (.ret t) >>= fun t => ofOutcome (respond t) : Async S Error (Response B)).run
  .emit (answerLine req r) (.ret (answer r))

theorem free_finish (req : Request B) (t : Except Error (Request B × Option (Response B) × T)) :
    (finish req t : Prog (Option S) String (Response B)).Free := by
  apply Prog.Free.bind
  · exact fun r => trivial
  · cases t with
    | ok t => exact free_ofOutcome (respond t)
    | error e => trivial

variable [TransientState T] (call : F → AsyncFunc B (App F S) S T) (app : App F S) (req : Request B)

theorem dispatchAsync_eq : app.dispatchAsync call req = .emit (requestLine req)
    ((app.router.dispatchAsync call req app).run >>= fun r => .emit (answerLine req r) (.ret (answer r))) := by
  refine congrArg (Prog.emit (requestLine req)) ?_
  show (app.router.dispatchAsync call req app).run.bind _ = (app.router.dispatchAsync call req app).run.bind _
  refine congrArg _ ?_
  funext r
  cases r <;> rfl

/-- A dispatch alone, where the router's part comes to a result without the lock. -/
theorem run_dispatchAsync_of {s : Option S} {x : Outcome Error (Response B)}
    (h : (app.router.dispatchAsync call req app).run.run s = (ofOutcome x : Async S Error (Response B)).run.run s) :
    (app.dispatchAsync call req).run s = ⟨x.recover App.errorResponse, s, requestLine req :: lastLine req x⟩ := by
  rw [dispatchAsync_eq, Prog.run, Prog.run_bind, h]
  cases x <;> rfl

/-- A dispatch of a request that comes to a handler: the first line, and what is performed. -/
theorem dispatchAsync_of_performs {route : Route F} {m : Params} (h : Performs app.router.routes req route m) :
    app.dispatchAsync call req = .emit (requestLine req)
      ((route.handler.performAsync call req none m app TransientState.initial).run >>= finish req) := by
  rw [dispatchAsync_eq, Router.dispatchAsync, dispatchLoopAsync_of_performs call req app h, ExceptT.run_bind,
    bind_assoc]
  refine congrArg (Prog.emit (requestLine req)) (congrArg _ ?_)
  funext t
  cases t <;> rfl

/-- A dispatch waits for nothing but the handler that the request comes to. -/
theorem dispatchAsync_cases : (app.dispatchAsync call req).Free ∨
    ∃ route ∈ app.router.routes, ∃ m, Performs app.router.routes req route m := by
  rcases dispatchLoop_cases call req app app.router.routes with ⟨x, hx⟩ | ⟨route, m, h⟩
  · refine .inl ?_
    rw [dispatchAsync_eq, Router.dispatchAsync, hx]
    show Prog.Free (_ >>= _)
    apply Prog.Free.bind _ (free_ofOutcome x)
    exact fun r => trivial
  · exact .inr ⟨route, List.mem_of_find?_eq_some h.1, m, h⟩

/-- A dispatch locks once at most if every handler does that is performed. -/
theorem once_dispatchAsync (h : ∀ route ∈ app.router.routes, ∀ m,
    (route.handler.performAsync call req none m app TransientState.initial).run.Once) :
    (app.dispatchAsync call req).Once := by
  rcases dispatchAsync_cases call app req with hfree | ⟨route, hmem, m, hperf⟩
  · exact hfree.once
  · rw [dispatchAsync_of_performs call app req hperf]
    exact (h route hmem m).bind (free_finish req)

/-- A dispatch keeps what every handler keeps that is performed. -/
theorem keeps_dispatchAsync {I : Option S → Prop} (h : ∀ route ∈ app.router.routes, ∀ m,
    (route.handler.performAsync call req none m app TransientState.initial).run.Keeps I) :
    (app.dispatchAsync call req).Keeps I := by
  rcases dispatchAsync_cases call app req with hfree | ⟨route, hmem, m, hperf⟩
  · exact hfree.keeps
  · rw [dispatchAsync_of_performs call app req hperf]
    exact (h route hmem m).bind fun t => (free_finish req t).keeps

/-- A dispatch writes its first line, then what the handlers write, then the line that says
    what the response was made of; one that panics does not come to the last. -/
theorem traces_dispatchAsync {I : Option S → Prop} {ks : List String} {r : Outcome Empty (Response B)}
    (h : (app.dispatchAsync call req).Traces I ks r) :
    (∃ mid result, ks = requestLine req :: (mid ++ [answerLine req result]) ∧ r = .ok (answer result)) ∨
      ∃ mid, ks = requestLine req :: mid ∧ r = .panic := by
  rw [dispatchAsync_eq] at h
  cases h with
  | emit h =>
    rcases h.of_bind with ⟨result, mid, _, -, hlast, rfl⟩ | ⟨-, rfl⟩
    · cases hlast with
      | emit hlast =>
        cases hlast
        exact .inl ⟨mid, result, rfl, rfl⟩
    · exact .inr ⟨_, rfl, rfl⟩

end App

/-! Handlers that only compute. -/

section Compute
variable {F B S T : Type}

/-- Handler functions that return a result and do nothing else. -/
def compute {A : Type} (call : F → HandlerFunc B A T) (f : F) : AsyncFunc B A S T :=
  fun req response params app state => ofOutcome (.ofExcept (call f req response params app state))

theorem performAsync_compute {A : Type} (call : F → HandlerFunc B A T) (params : Params) (app : A) :
    ∀ (h : Handler F) (req : Request B) (response : Option (Response B)) (state : T),
      (h.performAsync (compute call) req response params app state : Async S Error _) =
        ofOutcome (h.perform call req response params app state).outcome
  | .mk f next, req, response, state => by
    rw [Handler.performAsync, Handler.perform, Traced.outcome_bind, ofOutcome_bind]
    show (ofOutcome (.ofExcept (call f req response params app state)) >>= _) = ofOutcome (.ofExcept _) >>= _
    apply congrArg
    funext t
    obtain ⟨req, response, state⟩ := t
    cases next with
    | none => rfl
    | some next => exact performAsync_compute call params app next req response state

theorem Route.dispatchAsync_compute {A : Type} (call : F → HandlerFunc B A T) (route : Route F) (provided : String)
    (req : Request B) (app : A) (state : T) :
    (route.dispatchAsync (compute call) provided req app state : Async S Error _) =
      ofOutcome (route.dispatch call provided req app state).outcome := by
  rw [Route.dispatchAsync, Route.dispatch, Traced.outcome_bind, ofOutcome_bind]
  apply congrArg
  funext m
  split
  · rfl
  · exact performAsync_compute call m app route.handler req none state

theorem dispatchLoopAsync_compute {A : Type} [TransientState T] (call : F → HandlerFunc B A T) (path : String)
    (req : Request B) (app : A) : ∀ routes : List (Route F),
      (Router.dispatchLoopAsync (compute call) path req app routes : Async S Error _) =
        ofOutcome (Router.dispatchLoop call path req app routes).outcome
  | [] => rfl
  | route :: routes => by
    rw [Router.dispatchLoopAsync, Router.dispatchLoop, Traced.outcome_bind, ofOutcome_bind]
    apply congrArg
    funext b
    split
    · rw [Route.dispatchAsync_compute, Traced.outcome_bind, ofOutcome_bind]
      apply congrArg
      funext t
      obtain ⟨_, response, _⟩ := t
      cases response <;> rfl
    · exact dispatchLoopAsync_compute call path req app routes

variable [HttpBody B] [HttpDisplay B] [TransientState T]

/-- **With handlers that only compute, a dispatch is the one of the app.** From every state it
    ends as the app's dispatch does, panics included, and leaves the state; and it writes
    its two lines, or the first alone if it panics. -/
theorem run_dispatchAsync_compute (call : F → HandlerFunc B (App F S) T) (app : App F S) (req : Request B)
    (s : Option S) : (app.dispatchAsync (compute call) req).run s =
      ⟨(app.dispatch call req).outcome, s,
        requestLine req :: lastLine req (app.router.dispatch call req app).outcome⟩ := by
  apply run_dispatchAsync_of
  rw [Router.dispatchAsync, dispatchLoopAsync_compute]
  rfl

end Compute
end DavisJr
