import DavisJr.Crash

/- What of a request path counts. Matching looks at the path as the parser takes it, and
   extraction at its raw segments, so paths with the same raw segments are answered alike
   by every app whose handlers leave the request aside: slashes at the end of a path
   never matter. Within a path that the parser accepts they do: the one route `/*` tells any
   other two such paths apart (`alike_iff`). -/
namespace DavisJr
open Lib Lib.Str Lib.Glob

section Aside
variable {F B A T : Type}

/-- Handler functions that leave the request aside, and pass it on as it is. -/
def aside (g : F → Option (Response B) → Params → A → T → Except Error (Option (Response B) × T)) :
    F → HandlerFunc B A T :=
  fun f req response params app state => (g f response params app state).map fun t => (req, t)

variable (g : F → Option (Response B) → Params → A → T → Except Error (Option (Response B) × T)) (m : Params) (app : A)

/-- A chain of such functions ends in the same way whatever the request is. -/
theorem perform_aside : ∀ (h : Handler F) (response : Option (Response B)) (state : T),
    ∃ x : Except Error (Option (Response B) × T), ∀ req,
      (h.perform (aside g) req response m app state).outcome = .ofExcept (x.map fun t => (req, t))
  | .mk f next, response, state => by
    cases hg : g f response m app state with
    | error e => exact ⟨.error e, fun req => by rw [Handler.perform, aside, hg]; rfl⟩
    | ok t =>
      cases next with
      | none => exact ⟨.ok t, fun req => by rw [Handler.perform, aside, hg]; rfl⟩
      | some next =>
        obtain ⟨x, hx⟩ := perform_aside next t.1 t.2
        refine ⟨x, fun req => ?_⟩
        rw [Handler.perform, aside, hg, ← hx req]
        rfl

end Aside

/-! Two requests that the router sees alike. -/

section Router
variable {F B A S T : Type} {req req' : Request B} {r : Route F}

theorem matches_congr (hnew : Path.new req.path = Path.new req'.path) (p : Path) :
    p.matches req.path = p.matches req'.path := by
  rw [Path.matches, Path.matches, hnew]

theorem find?_selects_congr (hmethod : req.method = req'.method) (hnew : Path.new req.path = Path.new req'.path)
    (routes : List (Route F)) :
    (routes.find? fun r => r.Selects req) = routes.find? fun r => r.Selects req' := by
  refine congrArg (fun sel => routes.find? sel) (funext fun r => ?_)
  rw [decide_eq_decide, Route.Selects, Route.Selects, matches_congr hnew, hmethod]

/-- A selected route extracts the same. -/
theorem extract_congr {pat : String} (hr : Path.new pat = .ok r.path) (hsel : r.Selects req)
    (hnew : Path.new req.path = Path.new req'.path) (hraw : rawSegments req.path '/' = rawSegments req'.path '/') :
    r.path.extract req.path = r.path.extract req'.path := by
  have hm' := hsel.1
  rw [matches_congr hnew] at hm'
  rw [extract_eq_lay hr hsel.1, extract_eq_lay hr hm', hraw]

variable {g : F → Option (Response B) → Params → A → T → Except Error (Option (Response B) × T)}

/-- And what it answers is the same. -/
theorem outcome_dispatch_aside {app : A} {state : T} (hmethod : req.method = req'.method)
    (hext : r.path.extract req.path = r.path.extract req'.path) :
    (r.dispatch (aside g) req.path req app state >>= fun t => Traced.lift (respond t)).outcome =
      (r.dispatch (aside g) req'.path req' app state >>= fun t => Traced.lift (respond t)).outcome := by
  rw [Route.dispatch, Route.dispatch, hext, hmethod]
  cases r.path.extract req'.path with
  | panic => rfl
  | err e => rfl
  | ok m =>
    rw [Outcome.mapErr_ok, Traced.lift_ok_bind, Traced.lift_ok_bind]
    split
    · rfl
    · obtain ⟨x, hx⟩ := perform_aside g m app r.handler none state
      rw [Traced.outcome_bind, Traced.outcome_bind, hx, hx]
      cases x <;> rfl

end Router

section App
variable {F B S T : Type} [TransientState T] {req req' : Request B}
  (g : F → Option (Response B) → Params → App F S → T → Except Error (Option (Response B) × T))

/-- Requests whose paths parse alike, with the same raw segments if they parse, are answered alike. -/
theorem outcome_router_aside (start : Option S) (rs : List (Registration F)) (hmethod : req.method = req'.method)
    (hnew : Path.new req.path = Path.new req'.path)
    (hraw : ∀ p, Path.new req.path = .ok p → rawSegments req.path '/' = rawSegments req'.path '/') :
    let app := (App.start start).registerAll rs
    (app.router.dispatch (aside g) req app).outcome = (app.router.dispatch (aside g) req' app).outcome := by
  intro app
  have hfind := find?_selects_congr (F := F) hmethod hnew
  cases ho : Path.new req.path with
  | error e =>
    have ho' : Path.new req'.path = .error e := by rw [← hnew, ho]
    rw [Router.dispatch, Router.dispatch]
    cases app.router.routes with
    | nil => rfl
    | cons r routes =>
      have herr := dispatch_of_error (aside g) req app ho r routes
      have herr' := dispatch_of_error (aside g) req' app ho' r routes
      rw [Router.dispatch] at herr herr'
      rw [herr, herr']
  | ok o =>
    have ho' : Path.new req'.path = .ok o := by rw [← hnew, ho]
    cases h : (rs.filterMap Registration.route?).find? fun r => r.Selects req with
    | none =>
      rw [dispatch_registered_none (aside g) start ho h, dispatch_registered_none (aside g) start ho' (hfind _ ▸ h)]
    | some r =>
      rw [dispatch_registered (aside g) start ho h, dispatch_registered (aside g) start ho' (hfind _ ▸ h)]
      have hsel : r.Selects req := by simpa using List.find?_some h
      obtain ⟨pat, hpat⟩ := path_of_mem_routes (List.mem_of_find?_eq_some h)
      exact outcome_dispatch_aside hmethod (extract_congr hpat hsel hnew (hraw o ho))

end App

/-! One route that tells paths apart. -/

/-- What a list of raw segments is told by. -/
def starText : List String → String
  | [] => ""
  | xs => "/" ++ join xs "/"

theorem mem_rawSegments {s : String} : ∀ x ∈ rawSegments s '/', '/' ∉ x.toList :=
  fun _ hx => not_mem_of_mem_split (List.mem_of_mem_tail hx)

/-- What is told of the params. -/
def wildcardText (m : Params) : String :=
  match m["*"]? with
  | some w => "/" ++ w
  | none => ""

/-- Answers with what the wildcard took. -/
def star {A : Type} : Unit → Option (Response String) → Params → A → NoState →
    Except Error (Option (Response String) × NoState) :=
  fun _ _ m _ state => .ok (some ⟨.ok, .empty, wildcardText m⟩, state)

def starApp : App Unit Unit := (App.start none).registerAll [⟨.get, "/*", .mk () none⟩]

theorem new_star : Path.new "/*" = .ok ⟨[.leader, .wildcard]⟩ := rfl

theorem starText_inj {xs ys : List String} (hx : ∀ x ∈ xs, '/' ∉ x.toList) (hy : ∀ y ∈ ys, '/' ∉ y.toList)
    (h : starText xs = starText ys) : xs = ys := by
  have hlist := congrArg String.toList h
  cases xs with
  | nil =>
    cases ys with
    | nil => rfl
    | cons y ys => simp [starText] at hlist
  | cons x xs =>
    cases ys with
    | nil => simp [starText] at hlist
    | cons y ys =>
      rw [starText, starText, String.toList_append, String.toList_append, List.append_cancel_left_eq,
        String.toList_inj] at hlist
      · exact join_inj (c := '/') (by simp) (by simp) hx hy hlist
      · simp
      · simp

/-- What the wildcard takes. -/
theorem extract_star {s : String} (hm : Path.matches ⟨[.leader, .wildcard]⟩ s = .ok true) :
    ∃ m, Path.extract ⟨[.leader, .wildcard]⟩ s = .ok m ∧ wildcardText m = starText (rawSegments s '/') := by
  rw [extract_eq_lay new_star hm]
  show ∃ m, lay [.wildcard] _ ∅ [] = .ok m ∧ _
  cases rawSegments s '/' with
  | nil =>
    refine ⟨∅, by rw [lay], ?_⟩
    simp [wildcardText, starText]
  | cons x xs =>
    refine ⟨_, lay_last, ?_⟩
    rw [wildcardText, Std.ExtTreeMap.getElem?_insert_self, List.nil_append]
    rfl

/-- What the app with the one route answers. -/
theorem outcome_starApp {s : String} {o : Path} (ho : Path.new s = .ok o) :
    (starApp.dispatch (aside star) ⟨.std .get, s, .empty, ""⟩).outcome =
      .ok ⟨.ok, .empty, starText (rawSegments s '/')⟩ := by
  have hm : Path.matches ⟨[.leader, .wildcard]⟩ s = .ok true := by
    rw [matches_iff_accepts new_star]
    exact ⟨(new_eq_ok.mp ho).1, agreeOn_nil_left _, fun h => by cases h⟩
  obtain ⟨m, hext, hm'⟩ := extract_star hm
  have hrouter := @dispatch_of_past Unit String Unit NoState _ (aside star) none [⟨.get, "/*", .mk () none⟩] [] []
    ⟨.std .get, ⟨[.leader, .wildcard]⟩, .mk () none⟩ ⟨.std .get, s, .empty, ""⟩ rfl ⟨hm, rfl⟩ (by simp)
  rw [Route.dispatch, hext, Outcome.mapErr_ok, Traced.lift_ok_bind, if_neg (by simp)] at hrouter
  rw [App.dispatch, Traced.recover, starApp, hrouter, ← hm']
  rfl

theorem outcome_starApp_error {s : String} {e : ServerError} (he : Path.new s = .error e) :
    (starApp.dispatch (aside star) ⟨.std .get, s, .empty, ""⟩).outcome =
      .ok ⟨.internalServerError, .empty, e.msg ++ "\n"⟩ := by
  have herr := @dispatch_of_error Unit String (App Unit Unit) NoState _ (aside star)
    ⟨.std .get, s, .empty, ""⟩ starApp e he ⟨.std .get, ⟨[.leader, .wildcard]⟩, .mk () none⟩ []
  have hrouter : starApp.router = ⟨[⟨.std .get, ⟨[.leader, .wildcard]⟩, .mk () none⟩]⟩ := rfl
  rw [App.dispatch, Traced.recover, hrouter, herr]
  rfl

/-- Every app answers the two paths alike, if its handlers leave the request aside. -/
def Alike (s t : String) : Prop :=
  ∀ (F B S T : Type) [HttpBody B] [TransientState T] (start : Option S) (rs : List (Registration F))
    (g : F → Option (Response B) → Params → App F S → T → Except Error (Option (Response B) × T))
    (method : Method) (headers : HeaderMap) (body : B),
    let app := (App.start start).registerAll rs
    (app.dispatch (aside g) ⟨method, s, headers, body⟩).outcome =
      (app.dispatch (aside g) ⟨method, t, headers, body⟩).outcome

/-- **What of a path counts.** Two paths are answered alike by every app whose handlers leave
    the request aside exactly when the parser makes the same of them, and they have the same
    raw segments if it accepts them. -/
theorem alike_iff {s t : String} (hs : startsWith s '/' = true) (ht : startsWith t '/' = true) : Alike s t ↔
    Path.new s = Path.new t ∧ ∀ p, Path.new s = .ok p → rawSegments s '/' = rawSegments t '/' := by
  constructor
  · intro h
    have hstar : (starApp.dispatch (aside star) ⟨.std .get, s, .empty, ""⟩).outcome =
        (starApp.dispatch (aside star) ⟨.std .get, t, .empty, ""⟩).outcome :=
      h Unit String Unit NoState none [⟨.get, "/*", .mk () none⟩] star (.std .get) .empty ""
    -- answers that an error makes have another status than the route's
    cases hs' : Path.new s with
    | error e =>
      refine ⟨?_, fun p hp => by cases hp⟩
      rw [outcome_starApp_error hs'] at hstar
      cases ht' : Path.new t with
      | error e' =>
        rw [outcome_starApp_error ht', Outcome.ok.injEq, Response.mk.injEq] at hstar
        -- the answer is the message of the error with a line's end
        have hlist := congrArg String.toList hstar.2.2
        rw [String.toList_append, String.toList_append, List.append_cancel_right_eq, String.toList_inj] at hlist
        obtain ⟨msg⟩ := e
        obtain ⟨msg'⟩ := e'
        rw [show msg = msg' from hlist]
      | ok q =>
        rw [outcome_starApp ht'] at hstar
        cases hstar
    | ok p =>
      rw [outcome_starApp hs'] at hstar
      cases ht' : Path.new t with
      | error e' =>
        rw [outcome_starApp_error ht'] at hstar
        cases hstar
      | ok q =>
        rw [outcome_starApp ht', Outcome.ok.injEq, Response.mk.injEq] at hstar
        have hraw : rawSegments s '/' = rawSegments t '/' := starText_inj mem_rawSegments mem_rawSegments hstar.2.2
        refine ⟨?_, fun _ _ => hraw⟩
        rw [(new_eq_ok.mp hs').2, (new_eq_ok.mp ht').2, pathSegments_of_startsWith hs, pathSegments_of_startsWith ht,
          ← filter_rawSegments hs, ← filter_rawSegments ht, hraw]
  · intro ⟨hnew, hraw⟩ F B S T _ _ start rs g method headers body app
    have hrouter := @outcome_router_aside F B S T _ ⟨method, s, headers, body⟩ ⟨method, t, headers, body⟩ g start rs rfl
      hnew hraw
    rw [App.dispatch, App.dispatch, Traced.recover, Traced.recover, hrouter]

/-- Two slashes at the end of a path. -/
theorem alike_iff_slash : Alike "/a/b" "/a/b//" ↔ Path.new "/a/b" = Path.new "/a/b//" ∧
    ∀ p, Path.new "/a/b" = .ok p → rawSegments "/a/b" '/' = rawSegments "/a/b//" '/' :=
  alike_iff (by decide) (by decide)

/-- They do not count, where a second slash within the path does. -/
example : Path.new "/a/b" = Path.new "/a/b//" ∧ rawSegments "/a/b" '/' = rawSegments "/a/b//" '/' ∧
    rawSegments "/a/b" '/' ≠ rawSegments "/a//b" '/' := by decide

end DavisJr
