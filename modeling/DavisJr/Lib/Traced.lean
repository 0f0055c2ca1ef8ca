import DavisJr.Lib.Outcome

/- Runs that call unknown code. A `Traced κ ε α` is the list of the calls that a run
   makes, in order, with the outcome that the run ends in. The one rule of the monad
   is that a run that fails calls nothing more. Of the run that threads a state through
   a list of calls the outcome is the fold of the called functions (`outcome_foldlM`),
   and the log holds one call for each of them (`getElem?_log_foldlM`) up to the first
   that fails (`length_log_foldlM_of_error`). -/
namespace Lib

@[ext] structure Traced (κ ε α : Type) where
  log : List κ
  outcome : Outcome ε α

namespace Traced
variable {κ ε α β : Type}

def bind (x : Traced κ ε α) (f : α → Traced κ ε β) : Traced κ ε β :=
  match x.outcome with
  | .ok a => ⟨x.log ++ (f a).log, (f a).outcome⟩
  | .err e => ⟨x.log, .err e⟩
  | .panic => ⟨x.log, .panic⟩

instance : Monad (Traced κ ε) where
  pure a := ⟨[], .ok a⟩
  bind := bind

/-- A step that calls nothing. -/
def lift (x : Outcome ε α) : Traced κ ε α := ⟨[], x⟩

/-- The call `k`, which comes back with `r`. -/
def call (k : κ) (r : Except ε α) : Traced κ ε α := ⟨[k], .ofExcept r⟩

/-- The run with an error it ends in made into a result: the calls stay. -/
def recover {ε' : Type} (x : Traced κ ε α) (f : ε → α) : Traced κ ε' α := ⟨x.log, x.outcome.recover f⟩

/-- The run with its calls looked at through `f`. -/
def mapLog {κ' : Type} (f : κ → κ') (x : Traced κ ε α) : Traced κ' ε α := ⟨x.log.map f, x.outcome⟩

theorem bind_of_ok {x : Traced κ ε α} {a : α} (h : x.outcome = .ok a) (f : α → Traced κ ε β) :
    (x >>= f) = ⟨x.log ++ (f a).log, (f a).outcome⟩ := by
  show bind x f = _
  rw [bind, h]

theorem bind_of_err {x : Traced κ ε α} {e : ε} (h : x.outcome = .err e) (f : α → Traced κ ε β) :
    (x >>= f) = ⟨x.log, .err e⟩ := by
  show bind x f = _
  rw [bind, h]

theorem bind_of_panic {x : Traced κ ε α} (h : x.outcome = .panic) (f : α → Traced κ ε β) :
    (x >>= f) = ⟨x.log, .panic⟩ := by
  show bind x f = _
  rw [bind, h]

@[simp] theorem outcome_bind (x : Traced κ ε α) (f : α → Traced κ ε β) :
    (x >>= f).outcome = x.outcome >>= fun a => (f a).outcome := by
  cases h : x.outcome with
  | ok a => rw [bind_of_ok h]; rfl
  | err e => rw [bind_of_err h]; rfl
  | panic => rw [bind_of_panic h]; rfl

@[simp] theorem lift_ok_bind (a : α) (f : α → Traced κ ε β) : (lift (.ok a) >>= f) = f a := rfl

@[simp] theorem lift_err_bind (e : ε) (f : α → Traced κ ε β) : (lift (.err e) >>= f) = lift (.err e) := rfl

@[simp] theorem call_ok_bind (k : κ) (a : α) (f : α → Traced κ ε β) :
    (call k (.ok a) >>= f) = ⟨k :: (f a).log, (f a).outcome⟩ := rfl

@[simp] theorem call_error_bind (k : κ) (e : ε) (f : α → Traced κ ε β) :
    (call k (.error e) >>= f) = ⟨[k], .err e⟩ := rfl

/-- Steps after which the run calls nothing leave the log as it is. -/
theorem log_bind_lift (x : Traced κ ε α) (f : α → Outcome ε β) : (x >>= fun a => lift (f a)).log = x.log := by
  cases h : x.outcome with
  | ok a => rw [bind_of_ok h]; exact List.append_nil _
  | err e => rw [bind_of_err h]
  | panic => rw [bind_of_panic h]

/-! Runs with their calls looked at through a function. -/

section MapLog
variable {κ' : Type} (f : κ → κ')

theorem mapLog_bind (x : Traced κ ε α) (g : α → Traced κ ε β) :
    (x >>= g).mapLog f = x.mapLog f >>= fun a => (g a).mapLog f := by
  obtain ⟨log, outcome⟩ := x
  cases outcome with
  | ok a =>
    rw [bind_of_ok (a := a) rfl, bind_of_ok (a := a) rfl, mapLog, List.map_append]
    rfl
  | err e => rfl
  | panic => rfl

theorem mapLog_call (k : κ) (r : Except ε α) : (call k r).mapLog f = call (f k) r := rfl

theorem mapLog_recover {ε' : Type} (x : Traced κ ε α) (g : ε → α) :
    (x.recover g : Traced κ ε' α).mapLog f = (x.mapLog f).recover g := rfl

end MapLog

/-! A state threaded through a list of calls. -/

section Fold
variable {σ φ : Type} {mk : φ → σ → κ} {run : φ → σ → Except ε σ}

/-- The fold calls the functions in order, each on the state that the one before left. -/
theorem outcome_foldlM : ∀ (fs : List φ) (s : σ),
    (fs.foldlM (fun s f => call (mk f s) (run f s)) s).outcome =
      .ofExcept (fs.foldlM (fun s f => run f s) s)
  | [], _ => rfl
  | f :: fs, s => by
    rw [List.foldlM_cons, List.foldlM_cons]
    cases h : run f s with
    | ok s' => exact outcome_foldlM fs s'
    | error e => rfl

theorem length_log_foldlM : ∀ (fs : List φ) (s : σ),
    (fs.foldlM (fun s f => call (mk f s) (run f s)) s).log.length ≤ fs.length
  | [], _ => Nat.le_refl _
  | f :: fs, s => by
    rw [List.foldlM_cons]
    cases h : run f s with
    | ok s' =>
      have ih := length_log_foldlM fs s'
      rw [call_ok_bind, List.length_cons, List.length_cons]
      omega
    | error e =>
      rw [call_error_bind, List.length_singleton, List.length_cons]
      omega

/-- A function that those before it leave a state for is called on that state, at its
    place in the log. -/
theorem getElem?_log_foldlM : ∀ {pre : List φ} {f : φ} {post : List φ} {s t : σ},
    pre.foldlM (fun s f => run f s) s = .ok t →
      ((pre ++ f :: post).foldlM (fun s f => call (mk f s) (run f s)) s).log[pre.length]? = some (mk f t)
  | [], f, post, s, t, ht => by
    cases ht
    rw [List.nil_append, List.foldlM_cons]
    cases run f s <;> rfl
  | g :: pre, f, post, s, t, ht => by
    rw [List.foldlM_cons] at ht
    rw [List.cons_append, List.foldlM_cons]
    cases h : run g s with
    | ok s' =>
      rw [h] at ht
      rw [call_ok_bind, List.length_cons, List.getElem?_cons_succ]
      exact getElem?_log_foldlM ht
    | error e =>
      rw [h] at ht
      cases ht

/-- After a function that fails nothing more is called. -/
theorem length_log_foldlM_of_error : ∀ {pre post : List φ} {s : σ} {e : ε},
    pre.foldlM (fun s f => run f s) s = .error e →
      ((pre ++ post).foldlM (fun s f => call (mk f s) (run f s)) s).log.length ≤ pre.length
  | [], _, _, _, he => by cases he
  | g :: pre, post, s, e, he => by
    rw [List.foldlM_cons] at he
    rw [List.cons_append, List.foldlM_cons]
    cases h : run g s with
    | ok s' =>
      rw [h] at he
      rw [call_ok_bind, List.length_cons, List.length_cons]
      exact Nat.succ_le_succ (length_log_foldlM_of_error he)
    | error e' =>
      rw [call_error_bind, List.length_singleton, List.length_cons]
      omega

end Fold
end Traced
end Lib
