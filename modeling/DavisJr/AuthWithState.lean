import DavisJr.Serve

/- `examples/auth-with-state.rs`, the app that the documentation shows: a token in the state
   behind the lock, a handler that compares the request's header with it and passes the
   verdict on, and three routes. `reply` says what the service is for, by the segments of
   the request alone; every dispatch comes to it from every state with the token
   (`run_dispatchAsync`), and so does every request to the server, whatever is served
   beside it (`served_reply`). -/
namespace DavisJr.AuthWithState
open Lib Lib.Str Lib.Glob

structure AuthedState where
  authed : Option Bool

instance : TransientState AuthedState := ⟨⟨none⟩⟩

structure State where
  authtoken : String

inductive Func where
  | validateAuthtoken | hello | wildcard

section Handlers
variable {B : Type} [HttpBody B]

/-- `params[key]`. -/
def index {ε : Type} (params : Params) (key : String) : Outcome ε String :=
  match params[key]? with
  | some value => .ok value
  | none => .panic

/-- `lock().await` for a read. -/
def readState {ε S : Type} : Async S ε (Option S) := ExceptT.mk (.lock (fun _ => []) fun state => .ret (.ok state))

/-- `Response::builder().status(200).body(bytes).unwrap()`. -/
def response (text : String) : Response B := ⟨.ok, .empty, HttpBody.ofString text⟩

def validateAuthtoken : AsyncFunc B (App Func State) State AuthedState := fun req resp _ app _ =>
  match req.headers.get "X-AuthToken", app.globalState with
  | some token, some _ => do
    let state ← readState
    return (req, resp, ⟨some (state.map State.authtoken = some token)⟩)
  | _, _ => ofOutcome (.err (.statusCode .unauthorized ""))

def hello : AsyncFunc B (App Func State) State AuthedState := fun req _ params _ authstate => do
  let name ← ofOutcome (index params "name")
  let text := "hello, " ++ name ++ "!\n"
  if authstate.authed = some true then
    return (req, some (response text), authstate)
  else if authstate.authed = none then
    return (req, some (response text), authstate)
  else
    ofOutcome (.err (.statusCode .unauthorized ""))

def wildcard : AsyncFunc B (App Func State) State AuthedState := fun req _ params _ state => do
  let inner ← ofOutcome (index params "*")
  return (req, some (response ("this route is: " ++ inner ++ "!\n")), state)

def call : Func → AsyncFunc B (App Func State) State AuthedState
  | .validateAuthtoken => validateAuthtoken
  | .hello => hello
  | .wildcard => wildcard

end Handlers

/-- A line `app.get(path, compose_handler!(funcs))?` of `main`. -/
def get (app : App Func State) (path : String) (funcs : List Func) : Outcome ServerError (App Func State) := do
  let ch ← composeHandler funcs
  let (result, app) := app.get path ch
  Outcome.ofExcept result
  return app

/-- `main`, up to `serve`. -/
def main : Outcome ServerError (App Func State) := do
  let app := App.withState ⟨"867-5309"⟩
  let app ← get app "/wildcard/*" [.wildcard]
  let app ← get app "/auth/:name" [.validateAuthtoken, .hello]
  get app "/:name" [.hello]

def wildcardPath : Path := ⟨[.leader, .pathComponent "wildcard", .wildcard]⟩
def authPath : Path := ⟨[.leader, .pathComponent "auth", .param "name"]⟩
def namePath : Path := ⟨[.leader, .param "name"]⟩

def wildcardRoute : Route Func := ⟨.std .get, wildcardPath, .mk .wildcard none⟩
def authRoute : Route Func := ⟨.std .get, authPath, .mk .validateAuthtoken (some (.mk .hello none))⟩
def nameRoute : Route Func := ⟨.std .get, namePath, .mk .hello none⟩

def app : App Func State := ⟨⟨[wildcardRoute, authRoute, nameRoute]⟩, some ⟨"867-5309"⟩⟩

theorem new_wildcard : Path.new "/wildcard/*" = .ok wildcardRoute.path := rfl
theorem new_auth : Path.new "/auth/:name" = .ok authRoute.path := rfl
theorem new_name : Path.new "/:name" = .ok nameRoute.path := rfl

theorem main_eq : main = .ok app := rfl

/-! What the service is for. -/

section Reply
variable {B : Type} [HttpBody B]

def greeting (name : String) : Response B := response ("hello, " ++ name ++ "!\n")

def badPath : Error := .internalServerError "invalid path for parameter extraction"
def notAllowed : Error := .statusCode .methodNotAllowed ""
def unauthorized : Error := .statusCode .unauthorized ""

/-- What a GET under `/wildcard` is answered with, by the fields after the first slash. -/
def wildcardReply : List String → Outcome Error (Response B)
  | first :: w :: inner =>
    if first = "wildcard" then .ok (response ("this route is: " ++ join (w :: inner) "/" ++ "!\n")) else .err badPath
  | first :: [] => if first = "wildcard" then .panic else .err badPath
  | [] => .panic

/-- What a GET under `/auth` is answered with. -/
def authReply (req : Request B) (name : String) : Outcome Error (Response B) :=
  if (rawSegments req.path '/').head? = some "auth" then
    if req.headers.get "X-AuthToken" = some "867-5309" then .ok (greeting name) else .err unauthorized
  else .err badPath

/-- What any other GET is answered with, by its first segment and those after it. -/
def namedReply (req : Request B) (first : String) : List String → Outcome Error (Response B)
  | [] => .ok (greeting first)
  | [name] => if first = "auth" then authReply req name else .err notAllowed
  | _ => .err notAllowed

/-- What a GET is answered with, by its segments. -/
def getReply (req : Request B) : List String → Outcome Error (Response B)
  | [] => .panic
  | first :: rest =>
    if first = "wildcard" then wildcardReply (rawSegments req.path '/') else namedReply req first rest

/-- What a request is answered with. Before a segment that a route asks for, a second slash is
    an error of its own; the root and `/wildcard` alone are a panic. -/
def reply (req : Request B) : Outcome Error (Response B) :=
  match Path.new req.path with
  | .error e => .err (.internalServerError e.msg)
  | .ok _ => if req.method = .std .get then getReply req (segments req.path '/') else .err notAllowed

/-! Matching and extraction on the three patterns, by the segments of the request. -/

variable {s : String} {o : Path}

theorem matches_iff {pat : String} {p : Path} (hp : Path.new pat = .ok p) (ho : Path.new s = .ok o)
    (hs : startsWith s '/' = true) : p.matches s = .ok true ↔
      ("*" ∈ pathSegments pat ∨ (segments s '/').length = (pathSegments pat).length) ∧
        AgreeOn SegAgrees (before "*" (pathSegments pat)) (segments s '/') := by
  rw [matches_of_new hp ho, pathSegments_of_startsWith hs, Outcome.ok.injEq, decide_eq_true_eq]

theorem matches_wildcard (ho : Path.new s = .ok o) (hs : startsWith s '/' = true) :
    wildcardRoute.path.matches s = .ok true ↔ segments s '/' = [] ∨ ∃ rest, segments s '/' = "wildcard" :: rest := by
  have hpat : pathSegments "/wildcard/*" = ["wildcard", "*"] := by decide
  have hbefore : before "*" ["wildcard", "*"] = ["wildcard"] := by decide
  rw [matches_iff new_wildcard ho hs, hpat, hbefore]
  cases segments s '/' with
  | nil => simp
  | cons x xs => simp [SegAgrees, startsWith, eq_comm]

theorem matches_auth (ho : Path.new s = .ok o) (hs : startsWith s '/' = true) :
    authRoute.path.matches s = .ok true ↔ ∃ name, segments s '/' = ["auth", name] := by
  have hpat : pathSegments "/auth/:name" = ["auth", ":name"] := by decide
  have hbefore : before "*" ["auth", ":name"] = ["auth", ":name"] := by decide
  rw [matches_iff new_auth ho hs, hpat, hbefore]
  match segments s '/' with
  | [] => simp
  | [x] => simp
  | [x, y] => simp [SegAgrees, startsWith, eq_comm]
  | x :: y :: z :: xs => simp

theorem matches_name (ho : Path.new s = .ok o) (hs : startsWith s '/' = true) :
    nameRoute.path.matches s = .ok true ↔ ∃ name, segments s '/' = [name] := by
  have hpat : pathSegments "/:name" = [":name"] := by decide
  have hbefore : before "*" [":name"] = [":name"] := by decide
  rw [matches_iff new_name ho hs, hpat, hbefore]
  match segments s '/' with
  | [] => simp
  | [x] => simp [SegAgrees, startsWith]
  | x :: y :: xs => simp

/-- The last field of a trimmed text is the only one that is not empty, if there is but one. -/
theorem exists_concat_of_filter {xs : List String} {name : String} (hlast : xs.getLast? ≠ some "")
    (h : xs.filter (· ≠ "") = [name]) : ∃ es, xs = es ++ [name] := by
  rcases List.eq_nil_or_concat' xs with rfl | ⟨es, t, rfl⟩
  · cases h
  · rw [List.getLast?_concat] at hlast
    have ht : t ≠ "" := fun ht => hlast (congrArg some ht)
    have hfilter : es.filter (· ≠ "") ++ [t] = [] ++ [name] := by
      rw [List.filter_append, List.filter_singleton] at h
      simpa [ht] using h
    exact ⟨es, by rw [(List.append_inj' hfilter rfl).2]⟩

/-- The first field is the first segment, or empty. -/
theorem rawSegments_head {first : String} {rest : List String} (hs : startsWith s '/' = true)
    (hseg : segments s '/' = first :: rest) : (∃ xs, rawSegments s '/' = first :: xs ∧
      xs.getLast? ≠ some "" ∧ xs.filter (· ≠ "") = rest) ∨ ∃ xs, rawSegments s '/' = "" :: xs := by
  have hfilter := filter_rawSegments hs
  have hlast := getLast?_rawSegments (s := s) (c := '/')
  rw [hseg] at hfilter
  cases hraw : rawSegments s '/' with
  | nil =>
    rw [hraw] at hfilter
    cases hfilter
  | cons x xs =>
    rw [hraw] at hfilter hlast
    by_cases hx : x = ""
    · exact .inr ⟨xs, by rw [hx]⟩
    · rw [List.filter_cons_of_pos (by simpa using hx)] at hfilter
      obtain ⟨rfl, hrest⟩ := List.cons.inj hfilter
      refine .inl ⟨xs, rfl, fun h => hlast ?_, hrest⟩
      rw [List.getLast?_cons, h]
      rfl

/-! The dispatch of the app. -/

section Dispatch
variable (req : Request B)

theorem loop_of_not_selects {req : Request B} (ho : Path.new req.path = .ok o) {pat : String} {route : Route Func}
    {routes : List (Route Func)} (hp : Path.new pat = .ok route.path) (hsel : ¬route.Selects req) :
    Router.dispatchLoopAsync call req.path req app (route :: routes) =
      Router.dispatchLoopAsync call req.path req app routes :=
  dispatchLoopAsync_of_not_selects call req app (matches_of_new hp ho) hsel routes

theorem loop_of_selects {req : Request B} {pat : String} {route : Route Func} (hp : Path.new pat = .ok route.path)
    (hm : route.path.matches req.path = .ok true) (hmethod : req.method = route.method) (routes : List (Route Func)) :
    Router.dispatchLoopAsync call req.path req app (route :: routes) =
      ofOutcome (Outcome.mapErr Error.ofServerError (lay route.path.body (rawSegments req.path '/') ∅ [])) >>= fun m =>
        route.handler.performAsync call req none m app TransientState.initial >>= fun t => ofOutcome (respond t) := by
  rw [dispatchLoopAsync_of_selects call req app ⟨hm, hmethod.symm⟩, extract_eq_lay hp hm]

@[simp] theorem index_empty {ε : Type} (key : String) : (index ∅ key : Outcome ε String) = .panic := by
  simp [index]

@[simp] theorem index_insert {ε : Type} (m : Params) (key value : String) :
    (index (m.insert key value) key : Outcome ε String) = .ok value := by
  simp [index]

/-! The handlers of the routes. -/

theorem perform_wildcard (req : Request B) (m : Params) :
    (wildcardRoute.handler.performAsync call req none m app TransientState.initial >>= fun t => ofOutcome (respond t)) =
      ofOutcome (index m "*" >>= fun inner => .ok (response ("this route is: " ++ inner ++ "!\n"))) := by
  show ((wildcard req none m app ⟨none⟩ >>= fun t => pure t) >>= _) = _
  rw [bind_pure, wildcard]
  cases index m "*" <;> rfl

theorem perform_name (req : Request B) (m : Params) :
    (nameRoute.handler.performAsync call req none m app TransientState.initial >>= fun t => ofOutcome (respond t)) =
      ofOutcome (index m "name" >>= fun name => .ok (greeting name)) := by
  show ((hello req none m app ⟨none⟩ >>= fun t => pure t) >>= _) = _
  rw [bind_pure, hello]
  cases index m "name" <;> rfl

/-- Alone, from the state with the token. -/
theorem run_perform_auth (req : Request B) (m : Params) (name : String) :
    (authRoute.handler.performAsync call req none (m.insert "name" name) app TransientState.initial >>= fun t =>
      ofOutcome (respond t)).run.run app.globalState =
      (ofOutcome (if req.headers.get "X-AuthToken" = some "867-5309" then .ok (greeting name)
        else .err unauthorized) : Async State Error (Response B)).run.run app.globalState := by
  show ((validateAuthtoken req none (m.insert "name" name) app ⟨none⟩ >>= fun t =>
    (hello t.1 t.2.1 (m.insert "name" name) app t.2.2 >>= fun t => pure t)) >>= _).run.run _ = _
  rw [validateAuthtoken]
  cases hget : req.headers.get "X-AuthToken" with
  | none => rfl
  | some token =>
    -- the lock is taken and given back, and the verdict goes on to `hello`
    show ((hello req none (m.insert "name" name) app ⟨some (decide (some "867-5309" = some token))⟩ >>= fun t => pure t)
      >>= fun t => ofOutcome (respond t)).run.run app.globalState = _
    rw [bind_pure, hello, index_insert]
    by_cases ht : token = "867-5309"
    · subst ht
      rfl
    · rw [decide_eq_false (by simpa using Ne.symm ht), if_neg (by simpa using ht)]
      rfl

/-! The walks along the fields of the request. -/

theorem walk_wildcard : ∀ raw : List String,
    (Outcome.mapErr Error.ofServerError (lay wildcardRoute.path.body raw ∅ []) >>= fun m => index m "*" >>= fun inner =>
      .ok (response ("this route is: " ++ inner ++ "!\n"))) = (wildcardReply raw : Outcome Error (Response B))
  | [] => by
    rw [lay, Outcome.mapErr_ok, Outcome.ok_bind, index_empty]
    rfl
  | first :: xs => by
    show (Outcome.mapErr _ (lay [.pathComponent "wildcard", .wildcard] (first :: xs) ∅ []) >>= _) = _
    rw [lay]
    by_cases hfirst : first = "wildcard"
    · subst hfirst
      rw [if_pos rfl]
      show (Outcome.mapErr _ (lay [.wildcard] xs ∅ []) >>= _) = _
      cases xs with
      | nil =>
        rw [lay, Outcome.mapErr_ok, Outcome.ok_bind, index_empty]
        rfl
      | cons w inner =>
        rw [lay_last, Outcome.mapErr_ok, Outcome.ok_bind, index_insert]
        rfl
    · rw [if_neg hfirst]
      cases xs <;> rw [wildcardReply, if_neg hfirst] <;> rfl

theorem walk_auth_bad {first : String} (hfirst : first ≠ "auth") (xs : List String) :
    lay authRoute.path.body (first :: xs) ∅ [] = .err ⟨"invalid path for parameter extraction"⟩ := by
  show lay [.pathComponent "auth", .param "name"] (first :: xs) ∅ [] = _
  rw [lay, if_neg hfirst]

theorem walk_auth (es : List String) (name : String) :
    lay authRoute.path.body ("auth" :: (es ++ [name])) ∅ [] = .ok ((∅ : Params).insert "name" name) := by
  show lay [.pathComponent "auth", .param "name"] ("auth" :: (es ++ [name])) ∅ [] = _
  rw [lay, if_pos rfl]
  exact lay_last_param "name" name [] es ∅

/-- The dispatch of a GET that is not for the first route. -/
theorem run_named {req : Request B} (ho : Path.new req.path = .ok o) (hs : startsWith req.path '/' = true)
    (hmethod : req.method = .std .get) {first : String} {rest : List String}
    (hseg : segments req.path '/' = first :: rest) :
    (Router.dispatchLoopAsync call req.path req app [authRoute, nameRoute]).run.run app.globalState =
      (ofOutcome (namedReply req first rest)).run.run app.globalState := by
  have hauth : authRoute.Selects req ↔ first = "auth" ∧ ∃ name, rest = [name] := by
    have hget : authRoute.method = req.method := hmethod.symm
    exact (and_iff_left hget).trans ((matches_auth ho hs).trans (by simp [hseg]))
  have hname : nameRoute.Selects req ↔ rest = [] := by
    have hget : nameRoute.method = req.method := hmethod.symm
    exact (and_iff_left hget).trans ((matches_name ho hs).trans (by simp [hseg]))
  have hneither : ¬authRoute.Selects req → ¬nameRoute.Selects req →
      (Router.dispatchLoopAsync call req.path req app [authRoute, nameRoute]).run.run app.globalState =
        (ofOutcome (.err notAllowed) : Async State Error (Response B)).run.run app.globalState := by
    intro ha hn
    rw [loop_of_not_selects ho new_auth ha, loop_of_not_selects ho new_name hn]
    rfl
  match rest with
  | [] =>
    rw [namedReply, loop_of_not_selects ho new_auth (by simp [hauth]),
      loop_of_selects new_name (hname.mpr rfl).1 hmethod]
    obtain ⟨es, hraw⟩ : ∃ es, rawSegments req.path '/' = es ++ [first] := by
      have hfilter := filter_rawSegments hs
      rw [hseg] at hfilter
      exact exists_concat_of_filter getLast?_rawSegments hfilter
    show ((ofOutcome (Outcome.mapErr _ (lay [.param "name"] (rawSegments req.path '/') ∅ [])) >>= _ :
      Async State Error (Response B)).run.run _) = _
    rw [hraw, lay_last_param, Outcome.mapErr_ok, ofOutcome_ok_bind, perform_name, index_insert, Outcome.ok_bind]
  | [name] =>
    rw [namedReply]
    by_cases hfirst : first = "auth"
    · rw [if_pos hfirst, loop_of_selects new_auth (hauth.mpr ⟨hfirst, name, rfl⟩).1 hmethod]
      subst hfirst
      rcases rawSegments_head hs hseg with ⟨xs, hraw, hlast, hfilter⟩ | ⟨xs, hraw⟩
      · obtain ⟨es, rfl⟩ := exists_concat_of_filter hlast hfilter
        rw [authReply, hraw, walk_auth, Outcome.mapErr_ok, ofOutcome_ok_bind, List.head?_cons, if_pos rfl]
        exact run_perform_auth req ∅ name
      · rw [authReply, hraw, walk_auth_bad (by decide), if_neg (by simp)]
        rfl
    · rw [if_neg hfirst]
      exact hneither (by simp [hauth, hfirst]) (by simp [hname])
  | x :: y :: rest => exact hneither (by simp [hauth]) (by simp [hname])

/-- The dispatch of a GET, along the routes. -/
theorem run_routes {req : Request B} (ho : Path.new req.path = .ok o) (hs : startsWith req.path '/' = true)
    (hmethod : req.method = .std .get) :
    (Router.dispatchLoopAsync call req.path req app [wildcardRoute, authRoute, nameRoute]).run.run app.globalState =
      (ofOutcome (getReply req (segments req.path '/'))).run.run app.globalState := by
  have hwildcard : wildcardRoute.path.matches req.path = .ok true →
      (Router.dispatchLoopAsync call req.path req app [wildcardRoute, authRoute, nameRoute]) =
        ofOutcome (wildcardReply (rawSegments req.path '/')) := by
    intro hm
    rw [loop_of_selects new_wildcard hm hmethod, ← walk_wildcard, ofOutcome_bind]
    apply congrArg
    funext m
    exact perform_wildcard req m
  cases hseg : segments req.path '/' with
  | nil =>
    have hraw : rawSegments req.path '/' = [] := rawSegments_eq_nil (by rw [pathSegments_of_startsWith hs, hseg])
    rw [hwildcard ((matches_wildcard ho hs).mpr (.inl hseg)), hraw]
    rfl
  | cons first rest =>
    rw [getReply]
    by_cases hfirst : first = "wildcard"
    · rw [if_pos hfirst, hwildcard ((matches_wildcard ho hs).mpr (.inr ⟨rest, by rw [hseg, hfirst]⟩))]
    · rw [if_neg hfirst]
      have hskip : ¬wildcardRoute.Selects req := by
        intro hsel
        rcases (matches_wildcard ho hs).mp hsel.1 with h | ⟨rest', h⟩
        · rw [hseg] at h
          cases h
        · rw [hseg] at h
          exact hfirst (List.cons.inj h).1
      rw [loop_of_not_selects ho new_wildcard hskip]
      exact run_named ho hs hmethod hseg

/-- Alone, from the state with the token, the router comes to the reply. -/
theorem run_router (hs : startsWith req.path '/' = true) :
    (app.router.dispatchAsync call req app).run.run app.globalState =
      (ofOutcome (reply req) : Async State Error (Response B)).run.run app.globalState := by
  rw [Router.dispatchAsync]
  unfold reply
  cases ho : Path.new req.path with
  | error e =>
    have hm : wildcardRoute.path.matches req.path = .err (.ofServerError e) := matches_of_error ho
    show (Router.dispatchLoopAsync call req.path req app (wildcardRoute :: _)).run.run _ = _
    rw [Router.dispatchLoopAsync, hm]
    rfl
  | ok o =>
    by_cases hmethod : req.method = .std .get
    · rw [if_pos hmethod]
      exact run_routes ho hs hmethod
    · have hnot : ∀ {route : Route Func}, route.method = .std .get → ¬route.Selects req :=
        fun hget hsel => hmethod (hsel.2 ▸ hget)
      rw [if_neg hmethod]
      show (Router.dispatchLoopAsync call req.path req app [wildcardRoute, authRoute, nameRoute]).run.run _ = _
      rw [loop_of_not_selects ho new_wildcard (hnot rfl), loop_of_not_selects ho new_auth (hnot rfl),
        loop_of_not_selects ho new_name (hnot rfl)]
      rfl

end Dispatch

/-! The service: the handlers only read the state, so every dispatch is as if it were alone. -/

theorem free_hello (req : Request B) (resp : Option (Response B)) (m : Params) (app : App Func State)
    (t : AuthedState) :
    (hello req resp m app t).run.Free := by
  rw [hello]
  cases index (ε := Error) m "name" with
  | ok name =>
    rw [ofOutcome_ok_bind]
    split
    · trivial
    · split <;> trivial
  | err e => trivial
  | panic => trivial

theorem handlersKeep (I : Option State → Prop) : Server.HandlersKeep (B := B) call app I := by
  intro route hroute req m
  have hmem : route = wildcardRoute ∨ route = authRoute ∨ route = nameRoute := by simpa [app] using hroute
  rcases hmem with rfl | rfl | rfl
  · show ((wildcard req none m app ⟨none⟩ >>= fun t => pure t : Async State Error _).run).Keeps I
    rw [bind_pure, wildcard]
    cases index (ε := Error) m "*" <;> trivial
  · show ((validateAuthtoken req none m app ⟨none⟩ >>= fun t =>
      (hello t.1 t.2.1 m app t.2.2 >>= fun t => pure t) : Async State Error _).run).Keeps I
    simp only [bind_pure]
    rw [validateAuthtoken]
    cases req.headers.get "X-AuthToken" with
    | none => trivial
    | some token =>
      -- a read writes nothing, and `hello` does not lock
      intro s hs
      refine ⟨fun s' hs' => (by cases hs'), ?_⟩
      exact (free_hello req none m app _).keeps
  · show ((hello req none m app ⟨none⟩ >>= fun t => pure t : Async State Error _).run).Keeps I
    rw [bind_pure]
    exact (free_hello req none m app ⟨none⟩).keeps

theorem reply_of_panic {req : Request B}
    (h : (reply req).recover App.errorResponse = (.panic : Outcome Empty (Response B))) :
    reply req = .panic := by
  cases hr : reply req with
  | panic => rfl
  | _ =>
    rw [hr] at h
    cases h

variable [HttpDisplay B] {Peer : Type}

/-- A dispatch alone is answered with the reply. -/
theorem run_dispatchAsync {req : Request B} (hs : startsWith req.path '/' = true) :
    (app.dispatchAsync call req).run app.globalState = ⟨(reply req).recover App.errorResponse, app.globalState,
      requestLine req :: lastLine req (reply req)⟩ := run_dispatchAsync_of call app req (run_router req hs)

/-- **The service answers as it should, whatever else it serves.** What `main` registers, served
    over any transport: in every run, every request whose path starts with a slash is answered
    with its reply alone, and a dispatch panics only where the reply is a panic; so a GET on
    `/auth/name` is greeted exactly with the right token, and no request changes the token. -/
theorem served_reply {tr : Transport B Peer} {events : List (ServerEvent B Peer)} {self : Server B State Peer}
    (h : (Server.start app).runs call app tr events = some self) :
    main = .ok app ∧ self.pool.shared = some ⟨"867-5309"⟩ ∧
    ∀ (i : Nat) req, self.requests[i]? = some req → startsWith req.path '/' = true →
      (∀ resp, self.pool.tasks[i]? = some (.done resp) →
        (reply req).recover App.errorResponse = (.ok resp : Outcome Empty _) ∧
          self.pool.linesOf i = requestLine req :: lastLine req (reply req)) ∧
      (self.pool.tasks[i]? = some .crashed → reply req = .panic ∧ self.pool.linesOf i = [requestLine req]) := by
  have hread : Server.HandlersKeep (B := B) call app (· = app.globalState) := handlersKeep _
  refine ⟨main_eq, (Server.follows_runs (I := (· = app.globalState)) rfl hread h).1.shared,
    fun i req hreq hs => ⟨fun resp ht => ?_, fun ht => ?_⟩⟩
  · have hrun := Server.outcome_of_read hread h hreq ht rfl
    rw [run_dispatchAsync hs, Run.mk.injEq] at hrun
    exact ⟨hrun.1, hrun.2.2.symm⟩
  · have hrun := Server.outcome_of_read hread h hreq ht rfl
    rw [run_dispatchAsync hs, Run.mk.injEq] at hrun
    have hpanic := reply_of_panic hrun.1
    rw [hpanic] at hrun
    exact ⟨hpanic, hrun.2.2.symm⟩

/-- A request for `/bob` and one for the root, up to an answer and a panic. -/
def events : List (ServerEvent String String) :=
  [.accept "peer", .request 0 ⟨.std .get, "/bob", .empty, ""⟩, .request 0 ⟨.std .get, "/", .empty, ""⟩,
    .poll 0, .poll 1, .poll 0, .poll 1, .poll 0]

theorem served_reply_events : ∃ self : Server String State String,
    (Server.start app).runs call app .unix events = some self ∧
    self.pool.tasks.map Task.outcome? = [some (.ok (greeting "bob")), some .panic] ∧
    main = .ok app ∧ self.pool.shared = some ⟨"867-5309"⟩ ∧
    ∀ (i : Nat) req, self.requests[i]? = some req → startsWith req.path '/' = true →
      (∀ resp, self.pool.tasks[i]? = some (.done resp) →
        (reply req).recover App.errorResponse = (.ok resp : Outcome Empty _) ∧
          self.pool.linesOf i = requestLine req :: lastLine req (reply req)) ∧
      (self.pool.tasks[i]? = some .crashed → reply req = .panic ∧ self.pool.linesOf i = [requestLine req]) :=
  ⟨_, rfl, rfl, @served_reply String _ _ String .unix events _ rfl⟩

end Reply
end DavisJr.AuthWithState
