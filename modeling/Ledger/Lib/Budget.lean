import Ledger.Lib.Interaction
import Ledger.Lib.Runs
import Mathlib.Algebra.Order.BigOperators.Group.Finset

namespace Ledger.Lib

namespace Prog

variable {Call : Type} {Reply : Call → Type} {Exn α β : Type}

def AtMost (calls : Call → Prop) : Prog Call Reply Exn α → Nat → Prop
  | .pure _, _ | .raise _, _ => True
  | .call _ _, 0 => False
  | .call c k, n + 1 => calls c ∧ ∀ reply, (k reply).AtMost calls n

section AtMost

variable {calls : Call → Prop} {p : Prog Call Reply Exn α} {m n : Nat}

theorem AtMost.mono (h : p.AtMost calls m) (hle : m ≤ n) : p.AtMost calls n := by
  induction p generalizing m n with
  | pure a => exact trivial
  | raise e => exact trivial
  | call c k ih =>
    cases m with
    | zero => exact h.elim
    | succ m =>
      obtain ⟨n, rfl⟩ := Nat.exists_eq_add_of_le' (Nat.one_le_of_lt hle)
      exact ⟨h.1, fun reply => ih reply (h.2 reply) (Nat.le_of_succ_le_succ hle)⟩

theorem AtMost.ofExcept (result : Except Exn α) :
    (Prog.ofExcept result : Prog Call Reply Exn α).AtMost calls n := by
  cases result <;> exact trivial

theorem AtMost.perform {c : Call} (h : calls c) :
    (Prog.perform c : Prog Call Reply Exn (Reply c)).AtMost calls 1 :=
  ⟨h, fun reply => .ofExcept reply⟩

theorem AtMost.attempt_bind (h : p.AtMost calls m) {f : Except Exn α → Prog Call Reply Exn β}
    (hf : ∀ result, (f result).AtMost calls n) : (p.attempt.bind f).AtMost calls (m + n) := by
  induction p generalizing m with
  | pure a => exact (hf _).mono (Nat.le_add_left n m)
  | raise e => exact (hf _).mono (Nat.le_add_left n m)
  | call c k ih =>
    cases m with
    | zero => exact h.elim
    | succ m =>
      rw [Nat.add_right_comm]
      exact ⟨h.1, fun reply => ih reply (h.2 reply)⟩

theorem AtMost.bind (h : p.AtMost calls m) {f : α → Prog Call Reply Exn β}
    (hf : ∀ a, (f a).AtMost calls n) : (p.bind f).AtMost calls (m + n) := by
  induction p generalizing m with
  | pure a => exact (hf a).mono (Nat.le_add_left n m)
  | raise e => exact trivial
  | call c k ih =>
    cases m with
    | zero => exact h.elim
    | succ m =>
      rw [Nat.add_right_comm]
      exact ⟨h.1, fun reply => ih reply (h.2 reply)⟩

theorem AtMost.tryExcept (h : p.AtMost calls m) {handler : Exn → Prog Call Reply Exn α}
    (hh : ∀ e, (handler e).AtMost calls n) : (p.tryExcept handler).AtMost calls (m + n) :=
  h.attempt_bind fun
    | .ok _ => trivial
    | .error e => hh e

theorem AtMost.tryFinally (h : p.AtMost calls m) {cleanup : Prog Call Reply Exn β}
    (hc : cleanup.AtMost calls n) : (p.tryFinally cleanup).AtMost calls (m + n) :=
  h.attempt_bind fun result => (hc.bind (n := 0) fun _ => .ofExcept result)

end AtMost

end Prog

section run

variable {σ ε : Type*} {step : σ → ε → Option σ} {s s' : σ}

/-- Where every event of a kind costs something, a budget bounds their number. -/
theorem run_budget (counts : ε → Bool) (budget : σ → Nat → Prop)
    (pays : ∀ s e s' n, step s e = some s' → counts e → budget s n → ∃ m < n, budget s' m)
    (keeps : ∀ s e s' n, step s e = some s' → ¬ counts e → budget s n → budget s' n)
    {es : List ε} (ran : run step s es = some s') {n : Nat} (h : budget s n) :
    ∃ m, budget s' m ∧ (es.filter counts).length + m ≤ n := by
  refine run_induction (P := fun es s' => ∃ m, budget s' m ∧ (es.filter counts).length + m ≤ n)
    ⟨n, h, by simp⟩ ?_ ran
  rintro es s₁ e s₂ - ⟨m, hm, hle⟩ hstep
  by_cases hc : counts e
  · obtain ⟨m', hlt, hm'⟩ := pays s₁ e s₂ m hstep hc hm
    refine ⟨m', hm', ?_⟩
    simp only [List.filter_append, List.length_append, List.filter_singleton, hc, cond_true,
      List.length_singleton]
    omega
  · exact ⟨m, keeps s₁ e s₂ m hstep hc hm, by simpa [List.filter_append, hc] using hle⟩

theorem exists_maximal {kind : ε → Prop} {bound : Nat}
    (bounded : ∀ es s', run step s es = some s' → (∀ e ∈ es, kind e) → es.length ≤ bound) :
    ∃ es s', run step s es = some s' ∧ (∀ e ∈ es, kind e) ∧
      ∀ e, kind e → step s' e = none := by
  induction bound generalizing s with
  | zero =>
    refine ⟨[], s, rfl, by simp, fun e he => Option.eq_none_iff_forall_ne_some.mpr fun s' hs' => ?_⟩
    simpa using bounded [e] s' (run_singleton hs') (by simpa using he)
  | succ bound ih =>
    by_cases stuck : ∀ e, kind e → step s e = none
    · exact ⟨[], s, rfl, by simp, stuck⟩
    · push Not at stuck
      obtain ⟨e, he, hs⟩ := stuck
      obtain ⟨m, hm⟩ := Option.ne_none_iff_exists'.mp hs
      have shorter (es : List ε) (s' : σ) (ran : run step m es = some s') (hes : ∀ e ∈ es, kind e) :
          es.length ≤ bound := by
        have := bounded (e :: es) s' (by simp [hm, ran]) (by simpa using ⟨he, hes⟩)
        simpa using this
      obtain ⟨es, s', ran, hes, final⟩ := ih shorter
      exact ⟨e :: es, s', by simp [hm, ran], by simpa using ⟨he, hes⟩, final⟩

theorem length_le_of_count_le {α β : Type} [DecidableEq β] {f : α → β} {l : List α} {s : Finset β}
    {n : Nat} (mem : ∀ a ∈ l, f a ∈ s) (count : ∀ b, (l.filter (f · = b)).length ≤ n) :
    l.length ≤ s.card * n := by
  have sub : (l.map f).toFinset ⊆ s := by
    intro b hb
    obtain ⟨a, ha, rfl⟩ := List.mem_map.mp (List.mem_toFinset.mp hb)
    exact mem a ha
  have few (b : β) : (l.map f).count b ≤ n := by
    rw [List.count, List.countP_map, List.countP_eq_length_filter]
    exact count b
  calc l.length = ∑ b ∈ (l.map f).toFinset, (l.map f).count b := by simp
    _ ≤ (l.map f).toFinset.card * n := Finset.sum_le_card_nsmul _ _ _ fun b _ => few b
    _ ≤ s.card * n := Nat.mul_le_mul_right n (Finset.card_le_card sub)

end run

end Ledger.Lib
