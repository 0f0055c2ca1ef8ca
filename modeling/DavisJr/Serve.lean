import DavisJr.Lib.Follow
import DavisJr.Async

/- `serve`, `serve_tls` and `serve_unix`: connections are accepted one after another, each
   gets a task of its own, and the requests that come in on it are dispatched. What comes
   when is up to the network and the runtime, so a run of the server is any list of
   events that are possible one after another. What the runtime takes down with a
   connection is left open: a dispatch can be dropped at any time. Under a run of the
   server is a run of the pool of its dispatches (`pool_runs`), from which the results
   about whole runs follow: what is logged (`serve_log`) and what is answered
   (`served_as_dispatched`). -/
namespace DavisJr
open Lib

/-- What the three functions differ in: what is done to a request on arrival, and the line
    that an accepted connection is logged with. -/
structure Transport (B Peer : Type) where
  attach : Peer → Request B → Request B
  greeting : Peer → Option String

/-- `serve` and `serve_tls`: the peer's address goes into the extensions of the request. -/
def Transport.tcp {B Peer : Type} (display : Peer → String) (insertIp : Peer → Request B → Request B) :
    Transport B Peer :=
  ⟨insertIp, fun sa => some ("Request from " ++ display sa)⟩

/-- `serve_unix`. -/
def Transport.unix {B Peer : Type} : Transport B Peer := ⟨fun _ req => req, fun _ => none⟩

/-- How a connection can end with an error: while it is served, or in the handshake of `serve_tls`. -/
inductive ConnError where
  | http (err : String)
  | tls (err : String)

def ConnError.line : ConnError → String
  | .http err => "ServerError while serving HTTP connection: " ++ err
  | .tls err => "ServerError while serving TLS: " ++ err

structure Conn (Peer : Type) where
  peer : Peer
  live : Bool

/-- The dispatches by their number, and the request of each. -/
structure Server (B S Peer : Type) where
  pool : Pool (Option S) String (Response B)
  conns : List (Conn Peer)
  requests : List (Request B)
  listening : Bool

inductive ServerEvent (B Peer : Type) where
  | accept (sa : Peer)
  /-- `accept` fails, which ends the loop but not the tasks. -/
  | acceptError
  | request (c : Nat) (req : Request B)
  | poll (i : Nat)
  | drop (i : Nat)
  | close (c : Nat) (err : Option ConnError)

/-- What is logged of a connection. -/
def ServerEvent.lines {B Peer : Type} (tr : Transport B Peer) : ServerEvent B Peer → List String
  | .accept sa => (tr.greeting sa).toList
  | .close _ err => (err.map ConnError.line).toList
  | _ => []

namespace Server
variable {F B S T Peer : Type}

def start (app : App F S) : Server B S Peer := ⟨.start app.globalState, [], [], true⟩

/-- `none` where the event is not possible. -/
def act [HttpBody B] [HttpDisplay B] [TransientState T] (call : F → AsyncFunc B (App F S) S T) (app : App F S)
    (tr : Transport B Peer) (self : Server B S Peer) : ServerEvent B Peer → Option (Server B S Peer)
  | .accept sa => do
    guard self.listening
    let pool ← self.pool.runs ((tr.greeting sa).toList.map .note)
    return { self with pool, conns := self.conns ++ [⟨sa, true⟩] }
  | .acceptError => do
    guard self.listening
    return { self with listening := false }
  | .request c req => do
    let conn ← self.conns[c]?
    guard conn.live
    let req := tr.attach conn.peer req
    let pool ← self.pool.act (.spawn (app.dispatchAsync call req))
    return { self with pool, requests := self.requests ++ [req] }
  | .poll i => do
    let pool ← self.pool.act (.run i)
    return { self with pool }
  | .drop i => do
    let pool ← self.pool.act (.drop i)
    return { self with pool }
  | .close c err => do
    let conn ← self.conns[c]?
    guard conn.live
    let pool ← self.pool.runs ((err.map ConnError.line).toList.map .note)
    return { self with pool, conns := self.conns.set c { conn with live := false } }

def runs [HttpBody B] [HttpDisplay B] [TransientState T] (call : F → AsyncFunc B (App F S) S T) (app : App F S)
    (tr : Transport B Peer) (self : Server B S Peer) (events : List (ServerEvent B Peer)) : Option (Server B S Peer) :=
  events.foldlM (act call app tr) self

/-- The programs of the dispatches. -/
def programs [HttpBody B] [HttpDisplay B] [TransientState T] (call : F → AsyncFunc B (App F S) S T) (app : App F S)
    (self : Server B S Peer) : List (Prog (Option S) String (Response B)) :=
  self.requests.map (app.dispatchAsync call)

/-- Every handler of the app, performed as a chain, writes only states with `I` when it finds such:
    each single write of a section does, not just the last. -/
def HandlersKeep [TransientState T] (call : F → AsyncFunc B (App F S) S T) (app : App F S)
    (I : Option S → Prop) : Prop :=
  ∀ route ∈ app.router.routes, ∀ req m,
    (route.handler.performAsync call req none m app TransientState.initial).run.Keeps I

theorem handlersKeep_true [TransientState T] (call : F → AsyncFunc B (App F S) S T) (app : App F S) :
    HandlersKeep call app fun _ => True := fun _ _ _ _ => Prog.keeps_true _

theorem handlersKeep_compute [TransientState T] (call : F → HandlerFunc B (App F S) T) (app : App F S)
    (I : Option S → Prop) : HandlersKeep (compute call) app I := by
  intro route _ req m
  rw [performAsync_compute]
  exact (free_ofOutcome _).keeps

/-! Under a run of the server is a run of the pool. -/

theorem spawned_notes {σ κ α : Type} (ks : List κ) : (ks.map Act.note : List (Act σ κ α)).flatMap Act.spawned = [] := by
  rw [List.flatMap_map]
  exact List.flatMap_eq_nil_iff.mpr fun _ _ => rfl

theorem noted_notes {σ κ α : Type} (ks : List κ) : (ks.map Act.note : List (Act σ κ α)).flatMap Act.noted = ks := by
  rw [List.flatMap_map]
  exact List.flatMap_singleton' ks

section Runs
variable [HttpBody B] [HttpDisplay B] [TransientState T] {call : F → AsyncFunc B (App F S) S T} {app : App F S}
  {tr : Transport B Peer} {self self' : Server B S Peer} {e : ServerEvent B Peer}

/-- One event is some acts of the pool: they start the dispatch of a request that came in,
    and write what is logged of a connection. -/
theorem exists_runs_act (h : self.act call app tr e = some self') : ∃ acts, self.pool.runs acts = some self'.pool ∧
    self'.programs call app = self.programs call app ++ acts.flatMap Act.spawned ∧
    acts.flatMap Act.noted = e.lines tr := by
  have hone : ∀ {a pool}, self.pool.act a = some pool → self.pool.runs [a] = some pool := by
    intro a pool hact
    rw [Pool.runs, List.foldlM_cons, hact]
    rfl
  cases e with
  | accept sa =>
    simp only [act, Option.bind_eq_bind, Option.bind_eq_some_iff] at h
    obtain ⟨-, -, pool, hpool, h⟩ := h
    cases h
    refine ⟨_, hpool, ?_, noted_notes _⟩
    rw [spawned_notes, List.append_nil]
    rfl
  | acceptError =>
    simp only [act, Option.bind_eq_bind, Option.bind_eq_some_iff] at h
    obtain ⟨-, -, h⟩ := h
    cases h
    exact ⟨[], rfl, (List.append_nil _).symm, rfl⟩
  | request c req =>
    simp only [act, Option.bind_eq_bind, Option.bind_eq_some_iff] at h
    obtain ⟨conn, -, -, -, pool, hpool, h⟩ := h
    cases h
    exact ⟨_, hone hpool, List.map_append, rfl⟩
  | poll i =>
    simp only [act, Option.bind_eq_bind, Option.bind_eq_some_iff] at h
    obtain ⟨pool, hpool, h⟩ := h
    cases h
    exact ⟨_, hone hpool, (List.append_nil _).symm, rfl⟩
  | drop i =>
    simp only [act, Option.bind_eq_bind, Option.bind_eq_some_iff] at h
    obtain ⟨pool, hpool, h⟩ := h
    cases h
    exact ⟨_, hone hpool, (List.append_nil _).symm, rfl⟩
  | close c err =>
    simp only [act, Option.bind_eq_bind, Option.bind_eq_some_iff] at h
    obtain ⟨conn, -, -, -, pool, hpool, h⟩ := h
    cases h
    refine ⟨_, hpool, ?_, noted_notes _⟩
    rw [spawned_notes, List.append_nil]
    rfl

/-- The pool after a run of the server is that after a run of the pool, which started the
    dispatches of the requests that came in, in order. -/
theorem pool_runs {events : List (ServerEvent B Peer)} (h : self.runs call app tr events = some self') :
    ∃ acts, self.pool.runs acts = some self'.pool ∧
      self'.programs call app = self.programs call app ++ acts.flatMap Act.spawned ∧
      acts.flatMap Act.noted = events.flatMap (ServerEvent.lines tr) := by
  revert h
  apply foldlM_induction (I := fun events (self' : Server B S Peer) => ∃ acts, self.pool.runs acts = some self'.pool ∧
    self'.programs call app = self.programs call app ++ acts.flatMap Act.spawned ∧
    acts.flatMap Act.noted = events.flatMap (ServerEvent.lines tr))
  · exact ⟨[], rfl, (List.append_nil _).symm, rfl⟩
  · intro events e self' self'' ih hact
    obtain ⟨acts, hruns, hprograms, hnoted⟩ := ih
    obtain ⟨acts', hruns', hprograms', hnoted'⟩ := exists_runs_act hact
    refine ⟨acts ++ acts', ?_, ?_, ?_⟩
    · rw [Pool.runs_append, hruns]
      exact hruns'
    · rw [hprograms', hprograms, List.flatMap_append, List.append_assoc]
    · rw [List.flatMap_append, List.flatMap_append, hnoted, hnoted', List.flatMap_singleton]

/-- From the start, the programs are those that the pool was given. -/
theorem pool_runs_start {events : List (ServerEvent B Peer)} (h : (start app).runs call app tr events = some self) :
    ∃ acts, (Pool.start app.globalState).runs acts = some self.pool ∧
      acts.flatMap Act.spawned = self.programs call app ∧
      acts.flatMap Act.noted = events.flatMap (ServerEvent.lines tr) := by
  obtain ⟨acts, hruns, hprograms, hnoted⟩ := pool_runs h
  exact ⟨acts, hruns, hprograms.symm, hnoted⟩

theorem program_of_request (call : F → AsyncFunc B (App F S) S T) (app : App F S) {i : Nat} {req : Request B}
    (h : self.requests[i]? = some req) :
    (self.programs call app)[i]? = some (app.dispatchAsync call req) := by
  rw [programs, List.getElem?_map, h]
  rfl

/-- Under handlers that keep an invariant, the state has it, and each dispatch has done what
    it can through states with it. -/
theorem follows_runs {I : Option S → Prop} (hstart : I app.globalState) (hkeep : HandlersKeep call app I)
    {events : List (ServerEvent B Peer)} (h : (start app).runs call app tr events = some self) :
    self.pool.Kept I ∧ self.pool.Follows I (self.programs call app) := by
  obtain ⟨acts, hruns, hspawned, -⟩ := pool_runs_start h
  rw [← hspawned]
  apply Pool.follows_runs hstart hruns
  intro p hp
  rw [hspawned] at hp
  obtain ⟨req, -, rfl⟩ := List.mem_map.mp hp
  exact keeps_dispatchAsync call app req fun route hmem m => hkeep route hmem req m

end Runs

/-! A small app, on which the results below are tried. -/

/-- Answers with 200, and with a body that says how often it was called before. -/
def count : Unit → AsyncFunc String (App Unit Nat) Nat NoState := fun _ req _ _ _ state =>
  ExceptT.mk (.lock (Micro.modify (Option.map (· + 1))) fun n =>
    .ret (.ok (req, some ⟨.ok, .empty, toString (n.getD 0)⟩, state)))

/-- Answers with 200, and computes nothing. -/
def greet : Unit → HandlerFunc String (App Unit Nat) NoState := fun _ req _ _ _ state =>
  .ok (req, some ⟨.ok, .empty, "hello"⟩, state)

def counter : App Unit Nat := ((((App.withState 0).get "/" (.mk () none)).2).get "/*/a" (.mk () none)).2

/-- What is printed where a URI is a path alone, with the reasons of a few statuses. -/
instance : HttpDisplay String where
  uri := Request.path
  status sc := toString sc.code ++ match sc.code with
    | 200 => " OK"
    | 401 => " Unauthorized"
    | 404 => " Not Found"
    | 405 => " Method Not Allowed"
    | 500 => " Internal Server Error"
    | _ => " <unknown status code>"

/-- Three requests on one connection, of which the last overruns its pattern. -/
def counterRequests : List (ServerEvent String String) :=
  [.accept "peer", .request 0 ⟨.std .get, "/", .empty, ""⟩, .request 0 ⟨.std .get, "/", .empty, ""⟩,
    .request 0 ⟨.std .get, "/x/a/b", .empty, ""⟩]

/-- All three up to their ends; the second has the lock before the first is at it. -/
def counterEvents : List (ServerEvent String String) :=
  counterRequests ++ [0, 1, 1, 1, 2, 1, 0, 2, 1, 0, 1, 0, 0, 0].map .poll

/-! What the log says. -/

section Log
variable [HttpBody B] [HttpDisplay B] [TransientState T] {call : F → AsyncFunc B (App F S) S T} {app : App F S}
  {tr : Transport B Peer} {events : List (ServerEvent B Peer)} {self : Server B S Peer}

/-- **The log tells each request apart.** In every run of the server, whatever the handlers
    do and however the dispatches are interleaved: the lines of no dispatch are those of the
    connections in the order of the events, and a dispatch that is answered has written the
    line of its request first and last the one with the status that was made its response;
    one that panicked has written the first line. -/
theorem serve_log (h : (start app).runs call app tr events = some self) :
    self.pool.notes = events.flatMap (ServerEvent.lines tr) ∧
    ∀ i req, self.requests[i]? = some req →
      (∀ resp, self.pool.tasks[i]? = some (.done resp) → ∃ mid result,
        self.pool.linesOf i = requestLine req :: (mid ++ [answerLine req result]) ∧ resp = answer result) ∧
      (self.pool.tasks[i]? = some .crashed → ∃ mid, self.pool.linesOf i = requestLine req :: mid) := by
  constructor
  · obtain ⟨acts, hruns, -, hnoted⟩ := pool_runs_start h
    rw [Pool.notes_runs hruns, hnoted]
    exact List.nil_append _
  · have hfollows := (follows_runs trivial (handlersKeep_true call app) h).2
    intro i req hreq
    have hp := program_of_request call app hreq
    constructor
    · intro resp ht
      rcases traces_dispatchAsync call app req (hfollows.outcome hp ht rfl) with
        ⟨mid, result, hlines, hresp⟩ | ⟨_, _, hpanic⟩
      · exact ⟨mid, result, hlines, Outcome.ok.inj hresp⟩
      · cases hpanic
    · intro ht
      rcases traces_dispatchAsync call app req (hfollows.outcome hp ht rfl) with
        ⟨_, _, _, hok⟩ | ⟨mid, hlines, -⟩
      · cases hok
      · exact ⟨mid, hlines⟩

/-- Two requests are answered, and the dispatch of the third panics. -/
theorem serve_log_counter : ∃ self : Server String Nat String,
    (start counter).runs count counter (.tcp id fun _ req => req) counterEvents = some self ∧
    self.pool.tasks.map Task.outcome? =
      [some (.ok ⟨.ok, .empty, "1"⟩), some (.ok ⟨.ok, .empty, "0"⟩), some .panic] ∧
    self.pool.notes = ["Request from peer"] ∧
    ∀ i req, self.requests[i]? = some req →
      (∀ resp, self.pool.tasks[i]? = some (.done resp) → ∃ mid result,
        self.pool.linesOf i = requestLine req :: (mid ++ [answerLine req result]) ∧ resp = answer result) ∧
      (self.pool.tasks[i]? = some .crashed → ∃ mid, self.pool.linesOf i = requestLine req :: mid) :=
  ⟨_, rfl, rfl, @serve_log Unit String Nat NoState String _ _ _ count counter (.tcp id fun _ req => req)
    counterEvents _ rfl⟩

end Log

/-! Handlers that only read the state. -/

section Read
variable [HttpBody B] [HttpDisplay B] [TransientState T] {app : App F S} {tr : Transport B Peer}
  {events : List (ServerEvent B Peer)} {self : Server B S Peer} {i : Nat} {req : Request B}

/-- A dispatch that ended did what it would have done alone at the start. -/
theorem outcome_of_read {call : F → AsyncFunc B (App F S) S T} (hread : HandlersKeep call app (· = app.globalState))
    (h : (start app).runs call app tr events = some self) (hreq : self.requests[i]? = some req)
    {t : Task (Option S) String (Response B)} {r : Outcome Empty (Response B)} (ht : self.pool.tasks[i]? = some t)
    (hr : t.outcome? = some r) :
    (app.dispatchAsync call req).run app.globalState = ⟨r, app.globalState, self.pool.linesOf i⟩ := by
  have hfollows := (follows_runs (I := (· = app.globalState)) rfl hread h).2
  have hkeep := keeps_dispatchAsync call app req fun route hmem m => hread route hmem req m
  exact Prog.Traces.run_eq hkeep (hfollows.outcome (program_of_request call app hreq) ht hr)

theorem lastLine_of_panic {call : F → HandlerFunc B (App F S) T} (h : (app.dispatch call req).outcome = .panic) :
    lastLine req (app.router.dispatch call req app).outcome = [] := by
  rw [App.dispatch, Traced.recover] at h
  cases hr : (app.router.dispatch call req app).outcome with
  | panic => rfl
  | ok resp =>
    rw [hr] at h
    cases h
  | err e =>
    rw [hr] at h
    cases h

/-- **The server answers as the app dispatches.** With handlers that only compute, in every
    run: a request that was answered got the response that the app's dispatch of it ends
    in, whatever else was going on, and a dispatch panicked only where the app's does; the
    state is the one that the app started with. -/
theorem served_as_dispatched {call : F → HandlerFunc B (App F S) T}
    (h : (start app).runs (compute call) app tr events = some self) :
    self.pool.shared = app.globalState ∧
    ∀ i req, self.requests[i]? = some req →
      (∀ resp, self.pool.tasks[i]? = some (.done resp) → (app.dispatch call req).outcome = .ok resp ∧
        self.pool.linesOf i = requestLine req :: lastLine req (app.router.dispatch call req app).outcome) ∧
      (self.pool.tasks[i]? = some .crashed → (app.dispatch call req).outcome = .panic ∧
        self.pool.linesOf i = [requestLine req]) := by
  have hread : HandlersKeep (compute call) app (· = app.globalState) := handlersKeep_compute call app _
  have hshared := (follows_runs (I := (· = app.globalState)) rfl hread h).1.shared
  refine ⟨hshared, fun i req hreq => ⟨fun resp ht => ?_, fun ht => ?_⟩⟩
  · have hrun := outcome_of_read hread h hreq ht rfl
    rw [run_dispatchAsync_compute, Run.mk.injEq] at hrun
    exact ⟨hrun.1, hrun.2.2.symm⟩
  · have hrun := outcome_of_read hread h hreq ht rfl
    rw [run_dispatchAsync_compute, Run.mk.injEq] at hrun
    rw [lastLine_of_panic hrun.1] at hrun
    exact ⟨hrun.1, hrun.2.2.symm⟩

/-- Of two requests the second is answered first, and the dispatch of the third panics. -/
theorem served_as_dispatched_greeting : ∃ self : Server String Nat String,
    (start counter).runs (compute greet) counter .unix
        (counterRequests ++ [0, 1, 1, 2, 1, 0, 2, 0].map .poll) = some self ∧
    self.pool.tasks.map Task.outcome? =
      [some (.ok ⟨.ok, .empty, "hello"⟩), some (.ok ⟨.ok, .empty, "hello"⟩), some .panic] ∧
    self.pool.shared = some 0 ∧
    ∀ i req, self.requests[i]? = some req →
      (∀ resp, self.pool.tasks[i]? = some (.done resp) → (counter.dispatch greet req).outcome = .ok resp ∧
        self.pool.linesOf i = requestLine req :: lastLine req (counter.router.dispatch greet req counter).outcome) ∧
      (self.pool.tasks[i]? = some .crashed → (counter.dispatch greet req).outcome = .panic ∧
        self.pool.linesOf i = [requestLine req]) :=
  ⟨_, rfl, rfl, @served_as_dispatched Unit String Nat NoState String _ _ _ counter .unix
    (counterRequests ++ [0, 1, 1, 2, 1, 0, 2, 0].map .poll) _ greet rfl⟩

end Read

end Server
end DavisJr
