namespace Ledger.Lib

/-- A program that talks to an environment.  Each call is answered with a reply
or an exception, and the continuation decides what to do with either. -/
inductive Prog (Call : Type) (Reply : Call → Type) (Exn : Type) (α : Type) : Type
  | pure : α → Prog Call Reply Exn α
  | raise : Exn → Prog Call Reply Exn α
  | call : (c : Call) → (Except Exn (Reply c) → Prog Call Reply Exn α) → Prog Call Reply Exn α

namespace Prog

variable {Call : Type} {Reply : Call → Type} {Exn α β σ : Type}

def bind : Prog Call Reply Exn α → (α → Prog Call Reply Exn β) → Prog Call Reply Exn β
  | .pure a, f => f a
  | .raise e, _ => .raise e
  | .call c k, f => .call c fun reply => (k reply).bind f

instance : Monad (Prog Call Reply Exn) where
  pure := .pure
  bind := bind

@[simp] theorem pure_bind (a : α) (f : α → Prog Call Reply Exn β) :
    (Prog.pure a).bind f = f a := rfl

@[simp] theorem raise_bind (e : Exn) (f : α → Prog Call Reply Exn β) :
    (Prog.raise e).bind f = .raise e := rfl

@[simp] theorem call_bind (c : Call) (k : Except Exn (Reply c) → Prog Call Reply Exn α)
    (f : α → Prog Call Reply Exn β) :
    (Prog.call c k).bind f = .call c fun reply => (k reply).bind f := rfl

@[simp] theorem monad_pure (a : α) : (Pure.pure a : Prog Call Reply Exn α) = .pure a := rfl

@[simp] theorem monad_bind (p : Prog Call Reply Exn α) (f : α → Prog Call Reply Exn β) :
    (p >>= f) = p.bind f := rfl

theorem bind_assoc {γ : Type} (p : Prog Call Reply Exn α) (f : α → Prog Call Reply Exn β)
    (g : β → Prog Call Reply Exn γ) : (p.bind f).bind g = p.bind fun a => (f a).bind g := by
  induction p with
  | pure a => rfl
  | raise e => rfl
  | call c k ih => simp only [call_bind, ih]

def ofExcept : Except Exn α → Prog Call Reply Exn α
  | .ok a => .pure a
  | .error e => .raise e

@[simp] theorem ofExcept_ok (a : α) :
    (ofExcept (.ok a) : Prog Call Reply Exn α) = .pure a := rfl

@[simp] theorem ofExcept_error (e : Exn) :
    (ofExcept (.error e) : Prog Call Reply Exn α) = .raise e := rfl

def perform (c : Call) : Prog Call Reply Exn (Reply c) := .call c ofExcept

@[simp] theorem perform_bind (c : Call) (f : Reply c → Prog Call Reply Exn β) :
    (perform c).bind f = .call c fun reply => (ofExcept reply).bind f := rfl

def attempt : Prog Call Reply Exn α → Prog Call Reply Exn (Except Exn α)
  | .pure a => .pure (.ok a)
  | .raise e => .pure (.error e)
  | .call c k => .call c fun reply => (k reply).attempt

@[simp] theorem attempt_pure (a : α) :
    (Prog.pure a : Prog Call Reply Exn α).attempt = .pure (.ok a) := rfl

@[simp] theorem attempt_raise (e : Exn) :
    (Prog.raise e : Prog Call Reply Exn α).attempt = .pure (.error e) := rfl

@[simp] theorem attempt_call (c : Call) (k : Except Exn (Reply c) → Prog Call Reply Exn α) :
    (Prog.call c k).attempt = .call c fun reply => (k reply).attempt := rfl

def tryExcept (body : Prog Call Reply Exn α) (handler : Exn → Prog Call Reply Exn α) :
    Prog Call Reply Exn α :=
  body.attempt.bind fun
    | .ok a => .pure a
    | .error e => handler e

@[simp] theorem tryExcept_pure (a : α) (handler : Exn → Prog Call Reply Exn α) :
    (Prog.pure a).tryExcept handler = .pure a := rfl

@[simp] theorem tryExcept_raise (e : Exn) (handler : Exn → Prog Call Reply Exn α) :
    (Prog.raise e).tryExcept handler = handler e := rfl

@[simp] theorem tryExcept_call (c : Call) (k : Except Exn (Reply c) → Prog Call Reply Exn α)
    (handler : Exn → Prog Call Reply Exn α) :
    (Prog.call c k).tryExcept handler = .call c fun reply => (k reply).tryExcept handler := rfl

/-- The cleanup runs whether or not the body raised, and an exception of its own
replaces the body's. -/
def tryFinally (body : Prog Call Reply Exn α) (cleanup : Prog Call Reply Exn β) :
    Prog Call Reply Exn α :=
  body.attempt.bind fun result => cleanup.bind fun _ => ofExcept result

@[simp] theorem tryFinally_pure (a : α) (cleanup : Prog Call Reply Exn β) :
    (Prog.pure a).tryFinally cleanup = cleanup.bind fun _ => .pure a := rfl

@[simp] theorem tryFinally_raise (e : Exn) (cleanup : Prog Call Reply Exn β) :
    (Prog.raise e : Prog Call Reply Exn α).tryFinally cleanup =
      cleanup.bind fun _ => .raise e := rfl

@[simp] theorem tryFinally_call (c : Call) (k : Except Exn (Reply c) → Prog Call Reply Exn α)
    (cleanup : Prog Call Reply Exn β) :
    (Prog.call c k).tryFinally cleanup = .call c fun reply => (k reply).tryFinally cleanup := rfl

def drive (serve : σ → (c : Call) → σ × Except Exn (Reply c)) :
    Prog Call Reply Exn α → σ → σ × Except Exn α
  | .pure a, s => (s, .ok a)
  | .raise e, s => (s, .error e)
  | .call c k, s => (k (serve s c).2).drive serve (serve s c).1

section drive

variable (serve : σ → (c : Call) → σ × Except Exn (Reply c))

@[simp] theorem drive_pure (a : α) (s : σ) :
    (Prog.pure a : Prog Call Reply Exn α).drive serve s = (s, .ok a) := rfl

@[simp] theorem drive_raise (e : Exn) (s : σ) :
    (Prog.raise e : Prog Call Reply Exn α).drive serve s = (s, .error e) := rfl

theorem drive_call {c : Call} {k : Except Exn (Reply c) → Prog Call Reply Exn α} {s s' : σ}
    {reply : Except Exn (Reply c)} (h : serve s c = (s', reply)) :
    (Prog.call c k).drive serve s = (k reply).drive serve s' := by
  simp [drive, h]

theorem drive_attempt_bind (p : Prog Call Reply Exn α)
    (f : Except Exn α → Prog Call Reply Exn β) (s : σ) :
    (p.attempt.bind f).drive serve s = (f (p.drive serve s).2).drive serve (p.drive serve s).1 := by
  induction p generalizing s with
  | pure a => rfl
  | raise e => rfl
  | call c k ih => exact ih _ _

end drive

/-- Every call satisfies `calls`, and as long as a call that raises raises one of `raised`,
the program can only end in one of `answers`. -/
def Within (calls : Call → Prop) (raised : Exn → Prop) (answers : α → Prop) :
    Prog Call Reply Exn α → Prop
  | .pure a => answers a
  | .raise _ => False
  | .call c k => calls c ∧ (∀ reply, (k (.ok reply)).Within calls raised answers) ∧
      ∀ e, raised e → (k (.error e)).Within calls raised answers

def Settles (calls : Call → Prop) (raised : Exn → Prop) (upset : α → Prop) (a : α) :
    Prog Call Reply Exn α → Prop
  | .pure b => b = a
  | .raise _ => False
  | .call c k => calls c ∧ (∀ reply, (k (.ok reply)).Settles calls raised upset a) ∧
      ∀ e, raised e → (k (.error e)).Within calls raised upset

theorem Settles.drive {calls : Call → Prop} {raised : Exn → Prop} {upset : α → Prop} {a : α}
    {serve : σ → (c : Call) → σ × Except Exn (Reply c)} {I : σ → Prop}
    (answered : ∀ s c, I s → calls c → I (serve s c).1 ∧ ∃ reply, (serve s c).2 = .ok reply)
    {p : Prog Call Reply Exn α} (h : p.Settles calls raised upset a) {s : σ} (hs : I s) :
    I (p.drive serve s).1 ∧ (p.drive serve s).2 = .ok a := by
  induction p generalizing s with
  | pure b => exact ⟨hs, congrArg Except.ok h⟩
  | raise e => exact h.elim
  | call c k ih =>
    obtain ⟨hk, reply, hr⟩ := answered s c hs h.1
    rw [Prog.drive, hr]
    exact ih _ (h.2.1 reply) hk

inductive LeadsTo (calls : Call → Prop) (raised : Exn → Prop)
    (ends : Prog Call Reply Exn α → Prop) : Prog Call Reply Exn α → Prop
  | ended {p : Prog Call Reply Exn α} : ends p → LeadsTo calls raised ends p
  | call {c : Call} {k : Except Exn (Reply c) → Prog Call Reply Exn α} : calls c →
      (∀ reply, LeadsTo calls raised ends (k (.ok reply))) →
      (∀ e, raised e → LeadsTo calls raised ends (k (.error e))) →
      LeadsTo calls raised ends (.call c k)

theorem LeadsTo.mono {calls : Call → Prop} {raised : Exn → Prop}
    {ends ends' : Prog Call Reply Exn α → Prop} {p : Prog Call Reply Exn α}
    (h : p.LeadsTo calls raised ends) (imp : ∀ p, ends p → ends' p) :
    p.LeadsTo calls raised ends' := by
  induction h with
  | ended h => exact .ended (imp _ h)
  | call hc _ _ ih ih' => exact .call hc ih ih'

def Keeps (raised : Exn → Prop) : Prog Call Reply Exn α → Prop
  | .pure _ => True
  | .raise e => raised e
  | .call _ k => (∀ reply, (k (.ok reply)).Keeps raised) ∧
      ∀ e, raised e → (k (.error e)).Keeps raised

section Keeps

variable {raised : Exn → Prop} {p : Prog Call Reply Exn α}

theorem Keeps.perform (c : Call) :
    (Prog.perform c : Prog Call Reply Exn (Reply c)).Keeps raised :=
  ⟨fun _ => trivial, fun _ he => he⟩

theorem Keeps.bind (h : p.Keeps raised) {f : α → Prog Call Reply Exn β}
    (hf : ∀ a, (f a).Keeps raised) : (p.bind f).Keeps raised := by
  induction p with
  | pure a => exact hf a
  | raise e => exact h
  | call c k ih => exact ⟨fun reply => ih _ (h.1 reply), fun e he => ih _ (h.2 e he)⟩

theorem Keeps.tryExcept (h : p.Keeps raised) {handler : Exn → Prog Call Reply Exn α}
    (hh : ∀ e, raised e → (handler e).Keeps raised) : (p.tryExcept handler).Keeps raised := by
  induction p with
  | pure a => exact trivial
  | raise e => exact hh e h
  | call c k ih => exact ⟨fun reply => ih _ (h.1 reply), fun e he => ih _ (h.2 e he)⟩

theorem Keeps.tryFinally (h : p.Keeps raised) {cleanup : Prog Call Reply Exn β}
    (hc : cleanup.Keeps raised) : (p.tryFinally cleanup).Keeps raised := by
  induction p with
  | pure a => exact hc.bind fun _ => trivial
  | raise e => exact hc.bind fun _ => h
  | call c k ih => exact ⟨fun reply => ih _ (h.1 reply), fun e he => ih _ (h.2 e he)⟩

theorem Keeps.attempt_bind (h : p.Keeps raised) {answers : β → Prop}
    {f : Except Exn α → Prog Call Reply Exn β}
    (hok : ∀ a, (f (.ok a)).Within (fun _ => True) raised answers)
    (herror : ∀ e, raised e → (f (.error e)).Within (fun _ => True) raised answers) :
    (p.attempt.bind f).Within (fun _ => True) raised answers := by
  induction p with
  | pure a => exact hok a
  | raise e => exact herror e h
  | call c k ih => exact ⟨trivial, fun reply => ih _ (h.1 reply), fun e he => ih _ (h.2 e he)⟩

end Keeps

/-- Every call satisfies `calls`, an exception that a call raises is passed on as it is, and
every other one satisfies `raises`. -/
def Straight (calls : Call → Prop) (raises : Exn → Prop) : Prog Call Reply Exn α → Prop
  | .pure _ => True
  | .raise e => raises e
  | .call c k => calls c ∧ (∀ reply, (k (.ok reply)).Straight calls raises) ∧
      ∀ e, k (.error e) = .raise e

section Straight

variable {calls : Call → Prop} {raises raised : Exn → Prop} {p : Prog Call Reply Exn α}

theorem Straight.perform {c : Call} (h : calls c) :
    (Prog.perform c : Prog Call Reply Exn (Reply c)).Straight calls raises :=
  ⟨h, fun _ => trivial, fun _ => rfl⟩

theorem Straight.bind (h : p.Straight calls raises) {f : α → Prog Call Reply Exn β}
    (hf : ∀ a, (f a).Straight calls raises) : (p.bind f).Straight calls raises := by
  induction p with
  | pure a => exact hf a
  | raise e => exact h
  | call c k ih =>
    obtain ⟨hc, ok, error⟩ := h
    exact ⟨hc, fun reply => ih _ (ok reply), fun e => congrArg (Prog.bind · f) (error e)⟩

theorem Straight.keeps (h : p.Straight calls raises) (imp : ∀ e, raises e → raised e) :
    p.Keeps raised := by
  induction p with
  | pure a => exact trivial
  | raise e => exact imp e h
  | call c k ih =>
    obtain ⟨-, ok, error⟩ := h
    refine ⟨fun reply => ih _ (ok reply), fun e he => ?_⟩
    rw [error]
    exact he

end Straight

end Prog

end Ledger.Lib
