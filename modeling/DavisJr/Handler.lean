import DavisJr.Lib.Traced
import DavisJr.Path

/- `handler.rs` and `compose_handler!`. A handler function is a function pointer: `F` is
   the type of the pointers, and `call` is what each of them does, any function to a
   result. A run logs every call it makes with all its arguments, so that what runs,
   how often and on what can be read off a run. A handler is a chain of functions
   (`funcs`); performing it threads request, response and state through the chain
   from left to right (`perform_eq_foldlM`). -/
namespace DavisJr
open Lib

/-- `HTTPResult`. -/
abbrev HTTPResult (B T : Type) := Except Error (Request B × Option (Response B) × T)

/-- `HandlerFunc`: request, response, params, app and state. -/
abbrev HandlerFunc (B A T : Type) := Request B → Option (Response B) → Params → A → T → HTTPResult B T

/-- `TransientState`. -/
class TransientState (T : Type) where
  initial : T

structure NoState where
  deriving DecidableEq, Repr

instance : TransientState NoState := ⟨⟨⟩⟩

/-- One call of a handler function. -/
structure Call (F B A T : Type) where
  handler : F
  req : Request B
  response : Option (Response B)
  params : Params
  app : A
  state : T

inductive Handler (F : Type) where
  | mk (handler : F) (next : Option (Handler F))

namespace Handler
variable {F B A T : Type}

/-- `Handler::new`. -/
def new (handler : F) (next : Option (Handler F)) : Handler F := .mk handler next

def perform (call : F → HandlerFunc B A T) : Handler F → Request B → Option (Response B) → Params → A → T →
    Traced (Call F B A T) Error (Request B × Option (Response B) × T)
  | .mk handler next, req, response, params, app, state => do
    let (req, response, state) ← Traced.call ⟨handler, req, response, params, app, state⟩
      (call handler req response params app state)
    match next with
    | some next => next.perform call req response params app state
    | none => return (req, response, state)

/-- The functions of the chain, in order. -/
def funcs : Handler F → List F
  | .mk handler none => [handler]
  | .mk handler (some next) => handler :: next.funcs

end Handler

/-- `compose_handler!` on the functions in the order written. The source also collects
    the handlers it makes in a vector that nothing reads. -/
def composeHandler {ε F : Type} (funcs : List F) : Outcome ε (Handler F) :=
  if funcs.length = 0 then .panic
  else
    -- from the last function to the first, each with the handler made before as its next
    let last := funcs.reverse.foldl (fun last func => some (.new func last)) none
    match last with
    | some handler => .ok handler
    | none => .panic

section Chain
variable {F B A T : Type}

/-- The call of `f` on what the function before it returned. -/
def Call.on (params : Params) (app : A) (f : F) (t : Request B × Option (Response B) × T) : Call F B A T :=
  ⟨f, t.1, t.2.1, params, app, t.2.2⟩

/-- What comes back from a call. -/
def Call.result (call : F → HandlerFunc B A T) (c : Call F B A T) :
    Except Error (Request B × Option (Response B) × T) :=
  call c.handler c.req c.response c.params c.app c.state

/-- What a chain of functions makes of a request, a response and a state: each function
    gets what the one before it returned, and the first error ends the chain. -/
def chain (call : F → HandlerFunc B A T) (params : Params) (app : A) (funcs : List F)
    (t : Request B × Option (Response B) × T) : Except Error (Request B × Option (Response B) × T) :=
  funcs.foldlM (fun t f => (Call.on params app f t).result call) t

variable (call : F → HandlerFunc B A T) (params : Params) (app : A)

theorem perform_eq_foldlM : ∀ (h : Handler F) (t : Request B × Option (Response B) × T),
    h.perform call t.1 t.2.1 params app t.2.2 = h.funcs.foldlM (fun t f =>
      Traced.call (Call.on params app f t) ((Call.on params app f t).result call)) t
  | .mk handler none, t => by
    rw [Handler.perform, Handler.funcs, List.foldlM_cons]
    rfl
  | .mk handler (some next), t => by
    rw [Handler.perform, Handler.funcs, List.foldlM_cons]
    apply congrArg
    funext t'
    exact perform_eq_foldlM next t'

/-- A handler performed ends as its chain of functions does. -/
theorem outcome_perform (h : Handler F) (t : Request B × Option (Response B) × T) :
    (h.perform call t.1 t.2.1 params app t.2.2).outcome = .ofExcept (chain call params app h.funcs t) := by
  rw [perform_eq_foldlM]
  exact Traced.outcome_foldlM h.funcs t

/-- The call without the app that the function was given. -/
def Call.withoutApp (c : Call F B A T) : Call F B Unit T := { c with app := () }

/-- Functions that do not tell two apps apart are called alike on them, and end alike. -/
theorem perform_congr_app {app' : A} (happ : ∀ f req response params state,
      call f req response params app state = call f req response params app' state) :
    ∀ (h : Handler F) (req : Request B) (response : Option (Response B)) (state : T),
      (h.perform call req response params app state).mapLog Call.withoutApp =
        (h.perform call req response params app' state).mapLog Call.withoutApp
  | .mk f next, req, response, state => by
    rw [Handler.perform, Handler.perform, happ, Traced.mapLog_bind, Traced.mapLog_bind, Traced.mapLog_call,
      Traced.mapLog_call]
    refine congrArg _ (funext fun t => ?_)
    cases next with
    | none => rfl
    | some next => exact perform_congr_app happ next t.1 t.2.1 t.2.2

end Chain

/-! The macro's loop. -/

section Compose
variable {F : Type}

theorem foldl_reverse_funcs : ∀ {hs : List F} {h : Handler F},
    hs.reverse.foldl (fun last func => some (Handler.new func last)) none = some h → h.funcs = hs := by
  intro hs
  rw [List.foldl_reverse]
  induction hs with
  | nil => exact fun h => by cases h
  | cons f hs ih =>
    intro h heq
    rw [List.foldr_cons] at heq
    cases heq
    cases hrest : hs.foldr (fun func last => some (Handler.new func last)) none with
    | none =>
      cases hs with
      | nil => rfl
      | cons g hs => cases hrest
    | some next => rw [Handler.new, Handler.funcs, ih hrest]

/-- The loop makes the chain of the functions in the order written, of at least one. -/
theorem composeHandler_eq_ok {ε : Type} {hs : List F} (hne : hs ≠ []) :
    ∃ h : Handler F, (composeHandler hs : Outcome ε _) = .ok h ∧ h.funcs = hs := by
  have hlen : hs.length ≠ 0 := mt List.length_eq_zero_iff.mp hne
  rw [composeHandler, if_neg hlen]
  cases hlast : hs.reverse.foldl (fun last func => some (Handler.new func last)) none with
  | some h => exact ⟨h, rfl, foldl_reverse_funcs hlast⟩
  | none =>
    rw [List.foldl_reverse] at hlast
    obtain ⟨f, hs, rfl⟩ := List.exists_cons_of_ne_nil hne
    cases hlast

end Compose

/-- **A composed chain is the short-circuiting fold of its functions.** For every non-empty
    list of functions, whatever they do: performing the composed handler ends as the
    chain does. Each function that the ones before it return a triple for is called
    once, at its place, with that triple and with the caller's params and app; after
    one that fails, and after the last, nothing is called. -/
theorem perform_composeHandler {F B A T ε : Type} (call : F → HandlerFunc B A T) {hs : List F}
    (hne : hs ≠ []) : ∃ h : Handler F, (composeHandler hs : Outcome ε _) = .ok h ∧
      ∀ (req : Request B) (response : Option (Response B)) (params : Params) (app : A) (state : T),
        (h.perform call req response params app state).outcome =
            .ofExcept (chain call params app hs (req, response, state)) ∧
          (h.perform call req response params app state).log.length ≤ hs.length ∧
          ∀ (pre post : List F) (f : F), hs = pre ++ f :: post →
            (∀ t, chain call params app pre (req, response, state) = .ok t →
              (h.perform call req response params app state).log[pre.length]? =
                some ⟨f, t.1, t.2.1, params, app, t.2.2⟩) ∧
            (∀ e, chain call params app pre (req, response, state) = .error e →
              (h.perform call req response params app state).log.length ≤ pre.length) := by
  obtain ⟨h, hok, rfl⟩ := composeHandler_eq_ok (ε := ε) hne
  refine ⟨h, hok, fun req response params app state => ?_⟩
  have hp := perform_eq_foldlM call params app h (req, response, state)
  refine ⟨outcome_perform call params app h (req, response, state), ?_, ?_⟩
  · rw [hp]
    exact Traced.length_log_foldlM h.funcs _
  · intro pre post f hsplit
    rw [hp, hsplit]
    refine ⟨fun t ht => ?_, fun e he => ?_⟩
    · exact Traced.getElem?_log_foldlM ht
    · exact Traced.length_log_foldlM_of_error he

/-- The second of three functions fails: its error is the result, and the third is not called. -/
theorem perform_composeHandler_stops : ∃ h : Handler Nat,
    (composeHandler [1, 2, 3] : Outcome Error _) = .ok h ∧
      (h.perform (fun n req response _ _ state =>
          if n = 2 then .error (.internalServerError "no") else .ok (req, response, state ++ [n]))
        (⟨.std .get, "/", .empty, ()⟩ : Request Unit) none ∅ () []).outcome =
          .err (.internalServerError "no") ∧
      (h.perform (fun n req response _ _ state =>
          if n = 2 then .error (.internalServerError "no") else .ok (req, response, state ++ [n]))
        (⟨.std .get, "/", .empty, ()⟩ : Request Unit) none ∅ () []).log.length ≤ 2 := by
  obtain ⟨h, hok, hrun⟩ := perform_composeHandler (fun n req response _ _ state =>
      if n = 2 then .error (.internalServerError "no") else .ok (req, response, state ++ [n]))
    (by decide : [1, 2, 3] ≠ [])
  obtain ⟨houtcome, -, hcalls⟩ := hrun ⟨.std .get, "/", .empty, ()⟩ none ∅ () []
  exact ⟨h, hok, houtcome.trans rfl, (hcalls [1, 2] [] 3 rfl).2 _ rfl⟩

end DavisJr
