import DavisJr.Lib.Outcome

/- Programs of concurrent tasks that share one locked state `σ` and a log of lines `κ`.
   Between two waits a task touches nothing that others can see, so a program is the
   tree of its visible steps: writing a line, and locking the state for a section. What
   a section does is determined by the state it finds: steps that write the state or
   a line, one by one, as others may go on meanwhile. A section comes to its end by itself and
   gives the lock back there: to lock inside of a section, or to keep the lock, is no program
   here. `run` is what a program comes to when it runs alone. -/
namespace Lib

/-- A step of a task that holds the lock. -/
inductive Micro (σ κ : Type) where
  | set (s : σ)
  | emit (k : κ)

namespace Micro
variable {σ κ : Type}

/-- The state that the steps leave. -/
def state : List (Micro σ κ) → σ → σ
  | [], s => s
  | .set s :: ms, _ => state ms s
  | .emit _ :: ms, s => state ms s

/-- The lines that the steps write. -/
def lines : List (Micro σ κ) → List κ
  | [] => []
  | .set _ :: ms => lines ms
  | .emit k :: ms => k :: lines ms

/-- The section that makes `f s` of the state `s`. -/
def modify (f : σ → σ) (s : σ) : List (Micro σ κ) := [.set (f s)]

end Micro

inductive Prog (σ κ α : Type) where
  | ret (a : α)
  | panic
  | emit (k : κ) (next : Prog σ κ α)
  /-- Waits for the lock, and goes on from the state that it finds. -/
  | lock (body : σ → List (Micro σ κ)) (next : σ → Prog σ κ α)

/-- What a task comes to: its result, the state that it leaves and the lines it wrote. -/
@[ext] structure Run (σ κ α : Type) where
  result : Outcome Empty α
  state : σ
  lines : List κ

namespace Run
variable {σ κ α β : Type}

/-- The run after the lines. -/
def after (ks : List κ) (r : Run σ κ α) : Run σ κ α := { r with lines := ks ++ r.lines }

/-- What goes on from a run that ends in a result. -/
def andThen (r : Run σ κ α) (f : α → σ → Run σ κ β) : Run σ κ β :=
  match r.result with
  | .ok a => (f a r.state).after r.lines
  | .err e => e.elim
  | .panic => ⟨.panic, r.state, r.lines⟩

@[simp] theorem after_nil (r : Run σ κ α) : r.after [] = r := rfl

@[simp] theorem after_after (ks ks' : List κ) (r : Run σ κ α) : (r.after ks').after ks = r.after (ks ++ ks') := by
  simp [after]

theorem andThen_after (ks : List κ) (r : Run σ κ α) (f : α → σ → Run σ κ β) :
    (r.after ks).andThen f = (r.andThen f).after ks := by
  unfold andThen
  rw [after]
  cases r.result with
  | ok a => rw [after_after]
  | err e => exact e.elim
  | panic => rfl

end Run

namespace Prog
variable {σ κ α β : Type}

/-- The program alone, from a state. -/
def run : Prog σ κ α → σ → Run σ κ α
  | .ret a, s => ⟨.ok a, s, []⟩
  | .panic, s => ⟨.panic, s, []⟩
  | .emit k next, s => (next.run s).after [k]
  | .lock body next, s => ((next s).run (Micro.state (body s) s)).after (Micro.lines (body s))

def bind : Prog σ κ α → (α → Prog σ κ β) → Prog σ κ β
  | .ret a, f => f a
  | .panic, _ => .panic
  | .emit k next, f => .emit k (next.bind f)
  | .lock body next, f => .lock body fun s => (next s).bind f

instance : Monad (Prog σ κ) where
  pure := .ret
  bind := bind

theorem bind_ret : ∀ p : Prog σ κ α, p.bind .ret = p
  | .ret _ => rfl
  | .panic => rfl
  | .emit k next => congrArg (emit k) (bind_ret next)
  | .lock body next => congrArg (lock body) (funext fun s => bind_ret (next s))

theorem bind_assoc {γ : Type} : ∀ (p : Prog σ κ α) (f : α → Prog σ κ β) (g : β → Prog σ κ γ),
    (p.bind f).bind g = p.bind fun a => (f a).bind g
  | .ret _, _, _ => rfl
  | .panic, _, _ => rfl
  | .emit k next, f, g => congrArg (emit k) (bind_assoc next f g)
  | .lock body next, f, g => congrArg (lock body) (funext fun s => bind_assoc (next s) f g)

instance : LawfulMonad (Prog σ κ) :=
  LawfulMonad.mk' _ bind_ret (fun _ _ => rfl) bind_assoc

@[simp] theorem ret_bind (a : α) (f : α → Prog σ κ β) : (Prog.ret a >>= f) = f a := rfl
@[simp] theorem panic_bind (f : α → Prog σ κ β) : ((Prog.panic : Prog σ κ α) >>= f) = .panic := rfl
@[simp] theorem emit_bind (k : κ) (next : Prog σ κ α) (f : α → Prog σ κ β) :
    (Prog.emit k next >>= f) = .emit k (next >>= f) := rfl
@[simp] theorem lock_bind (body : σ → List (Micro σ κ)) (next : σ → Prog σ κ α) (f : α → Prog σ κ β) :
    (Prog.lock body next >>= f) = .lock body fun s => next s >>= f := rfl

/-! Running alone. -/

theorem run_bind : ∀ (p : Prog σ κ α) (f : α → Prog σ κ β) (s : σ),
    (p >>= f).run s = (p.run s).andThen fun a => (f a).run
  | .ret a, f, s => rfl
  | .panic, f, s => rfl
  | .emit k next, f, s => by
    rw [emit_bind, run, run, run_bind next f s, Run.andThen_after]
  | .lock body next, f, s => by
    rw [lock_bind, run, run, run_bind (next s) f, Run.andThen_after]

/-! Programs by what they do to the state. -/

/-- The program never locks. -/
def Free : Prog σ κ α → Prop
  | .ret _ => True
  | .panic => True
  | .emit _ next => next.Free
  | .lock _ _ => False

/-- The program locks once at most, whatever it finds. -/
def Once : Prog σ κ α → Prop
  | .ret _ => True
  | .panic => True
  | .emit _ next => next.Once
  | .lock _ next => ∀ s, (next s).Free

/-- From states with `I`, the program writes only such. -/
def Keeps (I : σ → Prop) : Prog σ κ α → Prop
  | .ret _ => True
  | .panic => True
  | .emit _ next => next.Keeps I
  | .lock body next => ∀ s, I s → (∀ s', .set s' ∈ body s → I s') ∧ (next s).Keeps I

theorem Free.once : ∀ {p : Prog σ κ α}, p.Free → p.Once
  | .ret _, _ => trivial
  | .panic, _ => trivial
  | .emit _ next, h => Free.once (p := next) h

theorem Free.keeps {I : σ → Prop} : ∀ {p : Prog σ κ α}, p.Free → p.Keeps I
  | .ret _, _ => trivial
  | .panic, _ => trivial
  | .emit _ next, h => Free.keeps (p := next) h

theorem Free.bind {f : α → Prog σ κ β} (hf : ∀ a, (f a).Free) : ∀ {p : Prog σ κ α}, p.Free → (p >>= f).Free
  | .ret a, _ => hf a
  | .panic, _ => trivial
  | .emit _ next, h => Free.bind hf (p := next) h

theorem Once.bind {f : α → Prog σ κ β} (hf : ∀ a, (f a).Free) : ∀ {p : Prog σ κ α}, p.Once → (p >>= f).Once
  | .ret a, _ => (hf a).once
  | .panic, _ => trivial
  | .emit _ next, h => Once.bind hf (p := next) h
  | .lock _ _, h => fun s => (h s).bind hf

theorem Keeps.bind {I : σ → Prop} {f : α → Prog σ κ β} (hf : ∀ a, (f a).Keeps I) :
    ∀ {p : Prog σ κ α}, p.Keeps I → (p >>= f).Keeps I
  | .ret a, _ => hf a
  | .panic, _ => trivial
  | .emit _ next, h => Keeps.bind hf (p := next) h
  | .lock _ _, h => fun s hs => ⟨(h s hs).1, Keeps.bind hf (h s hs).2⟩

/-! What a program can write and return, whatever states with `I` it finds. -/

inductive Traces (I : σ → Prop) : Prog σ κ α → List κ → Outcome Empty α → Prop
  | ret {a} : Traces I (.ret a) [] (.ok a)
  | panic : Traces I .panic [] .panic
  | emit {k next ks r} : Traces I next ks r → Traces I (.emit k next) (k :: ks) r
  | lock {body next s ks r} : I s → Traces I (next s) ks r → Traces I (.lock body next) (Micro.lines (body s) ++ ks) r

variable {I : σ → Prop}

/-- What goes on after a program does so from one of its results. -/
theorem Traces.of_bind {f : α → Prog σ κ β} {p : Prog σ κ α} {ks : List κ} {r : Outcome Empty β}
    (h : (p >>= f).Traces I ks r) :
    (∃ a ks₁ ks₂, p.Traces I ks₁ (.ok a) ∧ (f a).Traces I ks₂ r ∧ ks = ks₁ ++ ks₂) ∨
      p.Traces I ks .panic ∧ r = .panic := by
  induction p generalizing ks with
  | ret a => exact .inl ⟨a, [], ks, .ret, h, rfl⟩
  | panic =>
    rw [panic_bind] at h
    cases h
    exact .inr ⟨.panic, rfl⟩
  | emit k next ih =>
    rw [emit_bind] at h
    cases h with
    | emit h =>
      rcases ih h with ⟨a, ks₁, ks₂, h₁, h₂, rfl⟩ | ⟨h, hr⟩
      · exact .inl ⟨a, k :: ks₁, ks₂, .emit h₁, h₂, rfl⟩
      · exact .inr ⟨.emit h, hr⟩
  | lock body next ih =>
    rw [lock_bind] at h
    cases h with
    | @lock _ _ s ks r hs h =>
      rcases ih s h with ⟨a, ks₁, ks₂, h₁, h₂, rfl⟩ | ⟨h, hr⟩
      · exact .inl ⟨a, _, ks₂, .lock hs h₁, h₂, (List.append_assoc _ _ _).symm⟩
      · exact .inr ⟨.lock hs h, hr⟩

theorem keeps_true : ∀ p : Prog σ κ α, p.Keeps fun _ => True
  | .ret _ => trivial
  | .panic => trivial
  | .emit _ next => keeps_true next
  | .lock _ next => fun s _ => ⟨fun _ _ => trivial, keeps_true (next s)⟩

theorem state_eq_of_set {s : σ} : ∀ {ms : List (Micro σ κ)}, (∀ s', .set s' ∈ ms → s' = s) → Micro.state ms s = s
  | [], _ => rfl
  | .set s' :: ms, h => by
    rw [Micro.state, h s' List.mem_cons_self]
    exact state_eq_of_set fun s'' hs'' => h s'' (List.mem_cons_of_mem _ hs'')
  | .emit k :: ms, h => by
    rw [Micro.state]
    exact state_eq_of_set fun s' hs' => h s' (List.mem_cons_of_mem _ hs')

/-- A program that leaves a state alone has one trace where that is all it finds: its run. -/
theorem Traces.run_eq {s : σ} : ∀ {p : Prog σ κ α} {ks : List κ} {r : Outcome Empty α}, p.Keeps (· = s) →
    p.Traces (· = s) ks r → p.run s = ⟨r, s, ks⟩
  | .ret _, _, _, _, .ret => rfl
  | .panic, _, _, _, .panic => rfl
  | .emit k next, _, _, h, .emit ht => by
    rw [run, Traces.run_eq (p := next) h ht]
    rfl
  | .lock body next, _, _, h, .lock hs ht => by
    subst hs
    obtain ⟨hset, hnext⟩ := h _ rfl
    rw [run, state_eq_of_set hset, Traces.run_eq hnext ht]
    rfl

end Prog
end Lib
