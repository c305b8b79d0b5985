import Ledger.Lib.Interaction

namespace Ledger.Lib

/-- A state that is kept beside a program: which calls it admits, which of their replies it
reckons with, and what it becomes by each of them. -/
structure Monitor (Call : Type) (Reply : Call → Type) (Exn σ : Type) where
  admits : σ → Call → Prop
  expects : σ → (c : Call) → Except Exn (Reply c) → Prop
  next : σ → (c : Call) → Except Exn (Reply c) → σ

namespace Prog

variable {Call : Type} {Reply : Call → Type} {Exn α β σ : Type}

section Meets

variable (M : Monitor Call Reply Exn σ)

/-- As long as the replies are such as the monitor reckons with, it admits every call, and the
program ends in `post`. -/
def Meets (post : Except Exn α → σ → Prop) : Prog Call Reply Exn α → σ → Prop
  | .pure a, s => post (.ok a) s
  | .raise e, s => post (.error e) s
  | .call c k, s => M.admits s c ∧
    ∀ reply, M.expects s c reply → (k reply).Meets post (M.next s c reply)

variable {M} {p : Prog Call Reply Exn α} {s : σ} {post mid : Except Exn α → σ → Prop}

theorem Meets.mono (h : p.Meets M post s) (imp : ∀ result s, post result s → mid result s) :
    p.Meets M mid s := by
  induction p generalizing s with
  | pure a => exact imp _ _ h
  | raise e => exact imp _ _ h
  | call c k ih => exact ⟨h.1, fun reply expected => ih _ (h.2 reply expected)⟩

theorem Meets.ofExcept {result : Except Exn α} (h : post result s) :
    (Prog.ofExcept result : Prog Call Reply Exn α).Meets M post s := by
  cases result <;> exact h

theorem Meets.perform {c : Call} {post : Except Exn (Reply c) → σ → Prop} (admits : M.admits s c)
    (h : ∀ reply, M.expects s c reply → post reply (M.next s c reply)) :
    (Prog.perform c).Meets M post s :=
  ⟨admits, fun reply expected => .ofExcept (h reply expected)⟩

theorem Meets.attempt_bind {post : Except Exn β → σ → Prop} (h : p.Meets M mid s)
    {f : Except Exn α → Prog Call Reply Exn β}
    (next : ∀ result s, mid result s → (f result).Meets M post s) :
    (p.attempt.bind f).Meets M post s := by
  induction p generalizing s with
  | pure a => exact next _ _ h
  | raise e => exact next _ _ h
  | call c k ih => exact ⟨h.1, fun reply expected => ih _ (h.2 reply expected)⟩

theorem Meets.bind {post : Except Exn β → σ → Prop} (h : p.Meets M mid s)
    {f : α → Prog Call Reply Exn β} (ok : ∀ a s, mid (.ok a) s → (f a).Meets M post s)
    (error : ∀ e s, mid (.error e) s → post (.error e) s) : (p.bind f).Meets M post s := by
  induction p generalizing s with
  | pure a => exact ok _ _ h
  | raise e => exact error _ _ h
  | call c k ih => exact ⟨h.1, fun reply expected => ih _ (h.2 reply expected)⟩

theorem Meets.tryExcept (h : p.Meets M mid s) {handler : Exn → Prog Call Reply Exn α}
    (ok : ∀ a s, mid (.ok a) s → post (.ok a) s)
    (handled : ∀ e s, mid (.error e) s → (handler e).Meets M post s) :
    (p.tryExcept handler).Meets M post s :=
  h.attempt_bind fun result s hr => by
    cases result with
    | ok a => exact ok a s hr
    | error e => exact handled e s hr

theorem Meets.tryFinally (h : p.Meets M mid s) {cleanup : Prog Call Reply Exn β}
    (cleaned : ∀ result s, mid result s → cleanup.Meets M (fun
      | .ok _, s => post result s
      | .error e, s => post (.error e) s) s) :
    (p.tryFinally cleanup).Meets M post s :=
  h.attempt_bind fun result s hr =>
    (cleaned result s hr).bind (fun _ _ => .ofExcept) fun _ _ => id

theorem Straight.meets {calls : Call → Prop} {raises : Exn → Prop} (h : p.Straight calls raises)
    (admits : ∀ s c, calls c → M.admits s c) (ok : ∀ a s, post (.ok a) s)
    (own : ∀ e s, raises e → post (.error e) s)
    (told : ∀ s c e, post (.error e) (M.next s c (.error e))) : p.Meets M post s := by
  induction p generalizing s with
  | pure a => exact ok a s
  | raise e => exact own e s h
  | call c k ih =>
    obtain ⟨hc, hok, herror⟩ := h
    refine ⟨admits s c hc, fun reply _ => ?_⟩
    cases reply with
    | ok reply => exact ih _ (hok reply)
    | error e =>
      rw [herror]
      exact told s c e

theorem Meets.within {calls : Call → Prop} {raised : Exn → Prop} {answers : α → Prop}
    {I : σ → Prop} (h : p.Meets M post s) (within : p.Within calls raised answers)
    (answered : ∀ s c, I s → calls c →
      ∃ reply, M.expects s c (.ok reply) ∧ I (M.next s c (.ok reply)))
    (hs : I s) : ∃ a s', answers a ∧ post (.ok a) s' ∧ I s' := by
  induction p generalizing s with
  | pure a => exact ⟨a, s, within, h, hs⟩
  | raise e => exact within.elim
  | call c k ih =>
    obtain ⟨hc, ok, -⟩ := within
    obtain ⟨reply, expected, next⟩ := answered s c hs hc
    exact ih _ (h.2 _ expected) (ok reply) next

end Meets

theorem Settles.within {calls : Call → Prop} {raised : Exn → Prop} {upset : α → Prop} {a : α}
    {p : Prog Call Reply Exn α} (h : p.Settles calls raised upset a) :
    p.Within calls (fun _ => False) (· = a) := by
  induction p with
  | pure b => exact h
  | raise e => exact h.elim
  | call c k ih => exact ⟨h.1, fun reply => ih _ (h.2.1 reply), fun e he => he.elim⟩

end Prog

end Ledger.Lib
