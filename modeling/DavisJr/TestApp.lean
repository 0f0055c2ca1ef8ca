import DavisJr.App

/- `TestApp`, the app that tests send requests to. Its nine request functions copy the
   configured headers into the request they build. The iteration over a header map gives
   a name with the first of its values only, and the copy passes over what comes without
   a name, so that every name arrives with its first value (`getAll_populateHeaders`) and
   a map arrives whole only when no name has a second (`headers_sent_iff`). -/
namespace DavisJr
open Lib

/-- What a test run makes happen: a request goes to the app, and the app calls handlers. -/
inductive Event (F B A T : Type) where
  | dispatch (req : Request B)
  | call (c : Call F B A T)

/-- `http::request::Builder`; `path` is none once a URI was set that does not parse. -/
structure RequestBuilder where
  method : Method
  path : Option String
  headers : HeaderMap

namespace RequestBuilder
variable {B : Type}

/-- `Request::builder`. -/
def new : RequestBuilder := ⟨.std .get, some "/", .empty⟩

def setMethod (self : RequestBuilder) (method : StdMethod) : RequestBuilder :=
  { self with method := .std method }

/-- `uri`: what `parse` makes of a text is the path of its URI. -/
def setUri (parse : String → Option String) (self : RequestBuilder) (uri : String) : RequestBuilder :=
  { self with path := parse uri }

/-- `header` appends. -/
def header (self : RequestBuilder) (name value : String) : RequestBuilder :=
  { self with headers := self.headers.append name value }

/-- `body`, unwrapped. -/
def body (self : RequestBuilder) (body : B) : Outcome Empty (Request B) :=
  match self.path with
  | some path => .ok ⟨self.method, path, self.headers, body⟩
  | none => .panic

end RequestBuilder

structure TestApp (F S : Type) where
  app : App F S
  headers : Option HeaderMap

namespace TestApp
variable {F S B T : Type}

def new (app : App F S) : TestApp F S := ⟨app, none⟩

def withHeaders (self : TestApp F S) (headers : HeaderMap) : TestApp F S := ⟨self.app, some headers⟩

/-- The body of `for (header, value) in include_headers`. -/
def populateStep (req : RequestBuilder) (item : Option String × String) : RequestBuilder :=
  match item.1 with
  | some header => req.header header item.2
  | none => req

def populateHeaders (self : TestApp F S) (req : RequestBuilder) : RequestBuilder :=
  match self.headers with
  | some includeHeaders => includeHeaders.intoIter.foldl populateStep req
  | none => req

section Run
variable [HttpBody B] [TransientState T] (call : F → HandlerFunc B (App F S) T)

/-- The app's dispatch has no error, so unwrapping its result does not panic. -/
def dispatch (self : TestApp F S) (req : Request B) : Traced (Event F B (App F S) T) Empty (Response B) :=
  let run := self.app.dispatch call req
  ⟨.dispatch req :: run.log.map .call, run.outcome⟩

variable (parse : String → Option String)

/-- What the request functions share. -/
def send (self : TestApp F S) (req : RequestBuilder) (path : String) (body : B) :
    Traced (Event F B (App F S) T) Empty (Response B) := do
  self.dispatch call (← Traced.lift ((req.setUri parse path).body body))

/-- Unlike the others, this one leaves the builder's method as it is. -/
def get [Inhabited B] (self : TestApp F S) (path : String) :=
  self.send call parse (self.populateHeaders .new) path (default : B)

def post (self : TestApp F S) (path : String) (body : B) :=
  self.send call parse ((self.populateHeaders .new).setMethod .post) path body

def delete [Inhabited B] (self : TestApp F S) (path : String) :=
  self.send call parse ((self.populateHeaders .new).setMethod .delete) path (default : B)

def put (self : TestApp F S) (path : String) (body : B) :=
  self.send call parse ((self.populateHeaders .new).setMethod .put) path body

def options [Inhabited B] (self : TestApp F S) (path : String) :=
  self.send call parse ((self.populateHeaders .new).setMethod .options) path (default : B)

def patch (self : TestApp F S) (path : String) (body : B) :=
  self.send call parse ((self.populateHeaders .new).setMethod .patch) path body

def head [Inhabited B] (self : TestApp F S) (path : String) :=
  self.send call parse ((self.populateHeaders .new).setMethod .head) path (default : B)

def trace [Inhabited B] (self : TestApp F S) (path : String) :=
  self.send call parse ((self.populateHeaders .new).setMethod .trace) path (default : B)

def connect [Inhabited B] (self : TestApp F S) (path : String) :=
  self.send call parse ((self.populateHeaders .new).setMethod .connect) path (default : B)

end Run
end TestApp

/-! One request. -/

/-- A call of one of the request functions. -/
inductive Verb (B : Type) where
  | get | post (body : B) | delete | put (body : B) | options | patch (body : B) | head | trace | connect

def Verb.method {B : Type} : Verb B → StdMethod
  | .get => .get
  | .post _ => .post
  | .delete => .delete
  | .put _ => .put
  | .options => .options
  | .patch _ => .patch
  | .head => .head
  | .trace => .trace
  | .connect => .connect

def Verb.body {B : Type} [Inhabited B] : Verb B → B
  | .post body => body
  | .put body => body
  | .patch body => body
  | _ => default

/-- The request that goes to the app, if the event is that. -/
def Event.request? {F B A T : Type} : Event F B A T → Option (Request B)
  | .dispatch req => some req
  | .call _ => none

/-- The requests that a run sends to the app. -/
def dispatched {F B A T α : Type} (x : Traced (Event F B A T) Empty α) : List (Request B) :=
  x.log.filterMap Event.request?

section Run
variable {F S B T : Type} [HttpBody B] [TransientState T] {call : F → HandlerFunc B (App F S) T}
  {parse : String → Option String} {t : TestApp F S} {path u : String}

theorem dispatched_send {req : RequestBuilder} {body : B} (hu : parse path = some u) :
    dispatched (t.send call parse req path body) = [⟨req.method, u, req.headers, body⟩] := by
  have hbody : (req.setUri parse path).body body = .ok ⟨req.method, u, req.headers, body⟩ := by
    rw [RequestBuilder.body, RequestBuilder.setUri, hu]
  have hcalls : ∀ cs : List (Call F B (App F S) T), (cs.map Event.call).filterMap Event.request? = [] := by
    intro cs
    rw [List.filterMap_map, List.filterMap_eq_nil_iff]
    exact fun c _ => rfl
  rw [TestApp.send, hbody, Traced.lift_ok_bind]
  exact congrArg (List.cons _) (hcalls _)

/-- Copying headers leaves the method as it is. -/
theorem method_populateHeaders (t : TestApp F S) (req : RequestBuilder) :
    (t.populateHeaders req).method = req.method := by
  have hstep : ∀ (items : List (Option String × String)) (req : RequestBuilder),
      (items.foldl TestApp.populateStep req).method = req.method := by
    intro items
    induction items with
    | nil => exact fun _ => rfl
    | cons item items ih =>
      intro req
      rw [List.foldl_cons, ih]
      unfold TestApp.populateStep
      split <;> rfl
  unfold TestApp.populateHeaders
  split
  · exact hstep _ req
  · rfl

variable [Inhabited B]

/-- The run of the call. -/
def TestApp.run (call : F → HandlerFunc B (App F S) T) (parse : String → Option String)
    (self : TestApp F S) (path : String) : Verb B → Traced (Event F B (App F S) T) Empty (Response B)
  | .get => self.get call parse path
  | .post body => self.post call parse path body
  | .delete => self.delete call parse path
  | .put body => self.put call parse path body
  | .options => self.options call parse path
  | .patch body => self.patch call parse path body
  | .head => self.head call parse path
  | .trace => self.trace call parse path
  | .connect => self.connect call parse path

/-- Each call sends one request: its method, the path of its URI, its body, and the
    headers that were copied. -/
theorem dispatched_run (hu : parse path = some u) (verb : Verb B) : dispatched (t.run call parse path verb) =
    [⟨.std verb.method, u, (t.populateHeaders .new).headers, verb.body⟩] := by
  cases verb with
  | get =>
    -- the builder starts with GET
    have hget : (t.populateHeaders .new).method = .std .get := method_populateHeaders t .new
    rw [Verb.method, ← hget]
    exact dispatched_send hu
  | _ => exact dispatched_send hu

/-- The copy appends the values that come with a name. -/
theorem getAll_foldl_populateStep (name : String) : ∀ (items : List (Option String × String))
    (req : RequestBuilder), (items.foldl TestApp.populateStep req).headers.getAll name =
      req.headers.getAll name ++ Multimap.named name items
  | [], req => (List.append_nil _).symm
  | (none, value) :: items, req => by
    rw [List.foldl_cons, getAll_foldl_populateStep name items]
    rfl
  | (some header, value) :: items, req => by
    rw [List.foldl_cons, getAll_foldl_populateStep name items]
    show (req.headers.append header value).getAll name ++ _ = _
    rw [HeaderMap.getAll_append]
    by_cases hn : header = name
    · simp [Multimap.named, hn]
    · simp [Multimap.named, hn]

/-- Of each name's values the first is copied. -/
theorem getAll_populateHeaders (t : TestApp F S) (headers : HeaderMap) (name : String) :
    ((t.withHeaders headers).populateHeaders .new).headers.getAll name = (headers.getAll name).take 1 := by
  have hempty : RequestBuilder.new.headers.getAll name = [] := rfl
  show (headers.intoIter.foldl TestApp.populateStep .new).headers.getAll name = _
  rw [getAll_foldl_populateStep, hempty, List.nil_append, HeaderMap.named_intoIter]

/-- **Only headers with one value arrive whole.** For every test app, all headers and
    every request function: the request that goes to the app has for each name the
    values that the headers have, in order, exactly when no name has more than one. -/
theorem headers_sent_iff (hu : parse path = some u) (headers : HeaderMap) (verb : Verb B) :
    (∃ req, dispatched ((t.withHeaders headers).run call parse path verb) = [req] ∧
      ∀ name, req.headers.getAll name = headers.getAll name) ↔
    ∀ name, (headers.getAll name).length ≤ 1 := by
  rw [dispatched_run hu]
  constructor
  · intro ⟨req, hreq, h⟩ name
    cases hreq
    rw [← h name, getAll_populateHeaders]
    exact List.length_take_le 1 _
  · intro h
    refine ⟨_, rfl, fun name => ?_⟩
    rw [getAll_populateHeaders]
    exact List.take_of_length_le (h name)

end Run

/-- One value for `a` and one for `b`: both go to the app, with a POST to `/p`. -/
theorem headers_sent_iff_single : ∃ req : Request String,
    dispatched (((TestApp.new App.new : TestApp Empty NoState).withHeaders
        ⟨[("a", ["1"]), ("b", ["2"])], by decide, by decide⟩).run
      (fun f => f.elim) some "/p" (.post "text") : Traced (Event Empty String _ NoState) Empty _) = [req] ∧
      ∀ name, req.headers.getAll name =
        HeaderMap.getAll ⟨[("a", ["1"]), ("b", ["2"])], by decide, by decide⟩ name := by
  apply (@headers_sent_iff Empty NoState String NoState _ _ (fun f => f.elim) some (.new App.new) "/p" "/p" _
    rfl ⟨[("a", ["1"]), ("b", ["2"])], by decide, by decide⟩ (.post "text")).mpr
  intro name
  show (if "a" = name then ["1"] else if "b" = name then ["2"] else []).length ≤ 1
  split
  · exact Nat.le_refl 1
  · split <;> decide

/-- Two values for `a`: the second is not sent. -/
theorem headers_sent_first_only :
    dispatched (((TestApp.new App.new : TestApp Empty NoState).withHeaders
        ⟨[("a", ["1", "2"])], by decide, by decide⟩).run
      (fun f => f.elim) some "/p" .get : Traced (Event Empty String _ NoState) Empty _) =
        [⟨.std .get, "/p", ⟨[("a", ["1"])], by decide, by decide⟩, ""⟩] ∧
      HeaderMap.getAll ⟨[("a", ["1"])], by decide, by decide⟩ "a" ≠
        HeaderMap.getAll ⟨[("a", ["1", "2"])], by decide, by decide⟩ "a" :=
  ⟨rfl, by decide⟩

end DavisJr
