import DavisJr.Router

/- `app.rs`: the app that users register routes with and that answers requests. The
   nine registration functions are one, applied to their method; each returns its
   result and the app after it. A run of registrations leaves exactly the routes that
   the parser accepted, in the order of the calls (`registerAll_routes`). -/
namespace DavisJr
open Lib Lib.Str

/-- `App`; `globalState` is what stands behind the shared lock, which only handlers open. -/
structure App (F S : Type) where
  router : Router F
  globalState : Option S

namespace App
variable {F S B T : Type}

def new : App F S := ⟨Router.new, none⟩

def withState (state : S) : App F S := ⟨Router.new, some state⟩

/-- What the registration functions share. -/
def register (self : App F S) (method : StdMethod) (path : String) (ch : Handler F) :
    Except ServerError Unit × App F S :=
  let (result, router) := self.router.add (.std method) path ch
  (result.map fun _ => (), { self with router })

def get (self : App F S) (path : String) (ch : Handler F) := self.register .get path ch
def post (self : App F S) (path : String) (ch : Handler F) := self.register .post path ch
def delete (self : App F S) (path : String) (ch : Handler F) := self.register .delete path ch
def put (self : App F S) (path : String) (ch : Handler F) := self.register .put path ch
def options (self : App F S) (path : String) (ch : Handler F) := self.register .options path ch
def patch (self : App F S) (path : String) (ch : Handler F) := self.register .patch path ch
def head (self : App F S) (path : String) (ch : Handler F) := self.register .head path ch
def connect (self : App F S) (path : String) (ch : Handler F) := self.register .connect path ch
def trace (self : App F S) (path : String) (ch : Handler F) := self.register .trace path ch

/-- The response that an error is turned into. -/
def errorResponse [HttpBody B] : Error → Response B
  | .statusCode sc msg => ⟨sc, .empty, HttpBody.ofString (msg ++ "\n")⟩
  | .internalServerError e => ⟨.internalServerError, .empty, HttpBody.ofString (e ++ "\n")⟩

/-- `App::dispatch`: there is no error left. -/
def dispatch [HttpBody B] [TransientState T] (call : F → HandlerFunc B (App F S) T) (self : App F S)
    (req : Request B) : Traced (Call F B (App F S) T) Empty (Response B) :=
  (self.router.dispatch call req self).recover errorResponse

end App

/-! Runs of registrations. -/

/-- A call of the registration function for `method`. -/
structure Registration (F : Type) where
  method : StdMethod
  path : String
  handler : Handler F

section Registration
variable {F S : Type}

/-- The result of the call, and the app after it. -/
def Registration.apply (r : Registration F) (app : App F S) : Except ServerError Unit × App F S :=
  match r.method with
  | .get => app.get r.path r.handler
  | .post => app.post r.path r.handler
  | .delete => app.delete r.path r.handler
  | .put => app.put r.path r.handler
  | .options => app.options r.path r.handler
  | .patch => app.patch r.path r.handler
  | .head => app.head r.path r.handler
  | .connect => app.connect r.path r.handler
  | .trace => app.trace r.path r.handler

/-- The route that a call asks for: its method, its path as parsed and its handler, if the
    parser accepts the path. -/
def Registration.route? (r : Registration F) : Option (Route F) :=
  (Path.new r.path).toOption.map fun path => ⟨.std r.method, path, r.handler⟩

/-- The app that registrations start from. -/
def App.start : Option S → App F S
  | none => .new
  | some state => .withState state

/-- The app after the calls, in order, whatever each of them returned. -/
def App.registerAll (app : App F S) (rs : List (Registration F)) : App F S :=
  rs.foldl (fun app r => (r.apply app).2) app

theorem Registration.apply_eq (r : Registration F) (app : App F S) :
    r.apply app = app.register r.method r.path r.handler := by
  unfold Registration.apply
  cases r.method <;> rfl

theorem Registration.route?_eq_some {r : Registration F} {route : Route F} : r.route? = some route ↔
    ∃ path, Path.new r.path = .ok path ∧ route = ⟨.std r.method, path, r.handler⟩ := by
  unfold Registration.route?
  cases Path.new r.path with
  | ok path => simp [Except.toOption, eq_comm]
  | error e => simp [Except.toOption]

theorem Registration.apply_of_ok {r : Registration F} {path : Path} (h : Path.new r.path = .ok path)
    (app : App F S) : r.apply app =
      (.ok (), { app with router := ⟨app.router.routes ++ [⟨.std r.method, path, r.handler⟩]⟩ }) := by
  rw [r.apply_eq, App.register, Router.add, Route.new, h]
  rfl

/-- A call that fails leaves the app as it was. -/
theorem Registration.apply_of_error {r : Registration F} {e : ServerError} (h : Path.new r.path = .error e)
    (app : App F S) : r.apply app = (.error e, app) := by
  rw [r.apply_eq, App.register, Router.add, Route.new, h]
  rfl

/-- The route that a call asks for is the one that it adds. -/
theorem Registration.routes_apply (r : Registration F) (app : App F S) :
    (r.apply app).2.router.routes = app.router.routes ++ r.route?.toList := by
  unfold Registration.route?
  cases h : Path.new r.path with
  | ok path => rw [r.apply_of_ok h]; rfl
  | error e => rw [r.apply_of_error h]; exact (List.append_nil _).symm

/-- The routes after a run of calls: those before it, and then one for each call that was accepted. -/
theorem registerAll_routes : ∀ (rs : List (Registration F)) (app : App F S),
    (app.registerAll rs).router.routes = app.router.routes ++ rs.filterMap Registration.route?
  | [], app => (List.append_nil _).symm
  | r :: rs, app => by
    have ih := registerAll_routes rs (r.apply app).2
    rw [r.routes_apply, List.append_assoc] at ih
    rw [App.registerAll, List.foldl_cons]
    refine ih.trans ?_
    rw [List.filterMap_cons]
    cases r.route? <;> rfl

/-- Registering leaves the state alone. -/
theorem globalState_registerAll : ∀ (rs : List (Registration F)) (app : App F S),
    (app.registerAll rs).globalState = app.globalState
  | [], _ => rfl
  | r :: rs, app => by
    have hr : (r.apply app).2.globalState = app.globalState := by
      cases h : Path.new r.path with
      | ok path => rw [r.apply_of_ok h]
      | error e => rw [r.apply_of_error h]
    rw [App.registerAll, List.foldl_cons]
    exact (globalState_registerAll rs (r.apply app).2).trans hr

theorem registerAll_append (rs rs' : List (Registration F)) (app : App F S) :
    app.registerAll (rs ++ rs') = (app.registerAll rs).registerAll rs' := List.foldl_append

theorem routes_start (start : Option S) : (App.start start : App F S).router.routes = [] := by
  cases start <;> rfl

/-- Registered routes have parsed paths. -/
theorem path_of_mem_routes {rs : List (Registration F)} {route : Route F}
    (h : route ∈ rs.filterMap Registration.route?) : ∃ pat, Path.new pat = .ok route.path := by
  obtain ⟨r, -, hr⟩ := List.mem_filterMap.mp h
  obtain ⟨path, hpath, rfl⟩ := Registration.route?_eq_some.mp hr
  exact ⟨r.path, hpath⟩

end Registration
end DavisJr
