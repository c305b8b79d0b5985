import Mathlib.Data.List.Infix

namespace Ledger.Lib

variable {σ ε : Type*}

def run (step : σ → ε → Option σ) : σ → List ε → Option σ
  | s, [] => some s
  | s, e :: es => (step s e).bind fun s' => run step s' es

variable {step : σ → ε → Option σ} {s s' : σ}

@[simp] theorem run_nil (s : σ) : run step s [] = some s := rfl

@[simp] theorem run_cons (s : σ) (e : ε) (es : List ε) :
    run step s (e :: es) = (step s e).bind fun s' => run step s' es := rfl

theorem run_singleton {e : ε} (h : step s e = some s') : run step s [e] = some s' := by
  simp [h]

theorem run_append (s : σ) (es fs : List ε) :
    run step s (es ++ fs) = (run step s es).bind fun s' => run step s' fs := by
  induction es generalizing s with
  | nil => rfl
  | cons e es ih =>
    simp only [List.cons_append, run_cons, Option.bind_assoc]
    congr 1
    funext s'
    exact ih s'

theorem run_concat {es fs : List ε} {m : σ} (h : run step s es = some m)
    (h' : run step m fs = some s') : run step s (es ++ fs) = some s' := by
  rw [run_append, h]
  exact h'

theorem run_next {es : List ε} {e : ε} {m : σ} (h : run step s es = some m)
    (he : step m e = some s') : run step s (es ++ [e]) = some s' :=
  run_concat h (run_singleton he)

theorem run_snoc {es : List ε} {e : ε} (h : run step s (es ++ [e]) = some s') :
    ∃ m, run step s es = some m ∧ step m e = some s' := by
  rw [run_append, Option.bind_eq_some_iff] at h
  obtain ⟨m, hm, h⟩ := h
  exact ⟨m, hm, by simpa using h⟩

theorem run_induction {P : List ε → σ → Prop} (start : P [] s)
    (next : ∀ es m e m', run step s es = some m → P es m → step m e = some m' →
      P (es ++ [e]) m') :
    ∀ {es : List ε} {s' : σ}, run step s es = some s' → P es s' := by
  intro es
  induction es using List.reverseRecOn with
  | nil =>
    intro s' h
    cases h
    exact start
  | append_singleton es e ih =>
    intro s' h
    obtain ⟨m, hm, he⟩ := run_snoc h
    exact next es m e s' hm (ih hm) he

def Reaches (step : σ → ε → Option σ) (s s' : σ) : Prop := ∃ es, run step s es = some s'

theorem Reaches.refl (s : σ) : Reaches step s s := ⟨[], rfl⟩

theorem Reaches.head {e : ε} {m : σ} (h : step s e = some m) (rest : Reaches step m s') :
    Reaches step s s' := by
  obtain ⟨es, ran⟩ := rest
  exact ⟨e :: es, by simp [h, ran]⟩

theorem Reaches.trans {m : σ} (h : Reaches step s m) (rest : Reaches step m s') :
    Reaches step s s' := by
  obtain ⟨es, ran⟩ := h
  obtain ⟨fs, ran'⟩ := rest
  exact ⟨es ++ fs, run_concat ran ran'⟩

/-- When every step of one system can be followed by steps of another, so can every run. -/
theorem run_simulation {σ' ε' : Type*} {step' : σ' → ε' → Option σ'} {t : σ'}
    {P : List ε → σ → List ε' → σ' → Prop} (start : P [] s [] t)
    (next : ∀ es m es' m' e m₁, run step s es = some m → run step' t es' = some m' →
      P es m es' m' → step m e = some m₁ →
        ∃ fs m₁', run step' m' fs = some m₁' ∧ P (es ++ [e]) m₁ (es' ++ fs) m₁')
    {es : List ε} (ran : run step s es = some s') :
    ∃ es' t', run step' t es' = some t' ∧ P es s' es' t' := by
  refine run_induction (P := fun es m => ∃ es' m', run step' t es' = some m' ∧ P es m es' m')
    ⟨[], t, rfl, start⟩ ?next ran
  rintro es m e m₁ hm ⟨es', m', hm', h⟩ hstep
  obtain ⟨fs, m₁', hfs, h₁⟩ := next es m es' m' e m₁ hm hm' h hstep
  exact ⟨es' ++ fs, m₁', run_concat hm' hfs, h₁⟩

/-- A run, kept together with the state it ends in. -/
structure Execution (step : σ → ε → Option σ) (init : σ) where
  events : List ε
  last : σ
  ran : run step init events = some last

def Execution.of {init : σ} (events : List ε) (h : (run step init events).isSome) :
    Execution step init :=
  ⟨events, (run step init events).get h, by simp⟩

def Past (step : σ → ε → Option σ) (init : σ) (es : List ε) (pre : List ε) (m : σ) : Prop :=
  pre <+: es ∧ run step init pre = some m

theorem Past.snoc {es pre : List ε} {m : σ} (h : Past step s es pre m) (e : ε) :
    Past step s (es ++ [e]) pre m :=
  ⟨h.1.trans (List.prefix_append es [e]), h.2⟩

theorem Past.last {es : List ε} {m : σ} (h : run step s es = some m) : Past step s es es m :=
  ⟨List.prefix_rfl, h⟩

theorem Past.rest {es pre : List ε} {m : σ} (h : Past step s es pre m)
    (ran : run step s es = some s') : ∃ rest, run step m rest = some s' := by
  obtain ⟨⟨rest, rfl⟩, hm⟩ := h
  rw [run_append, hm] at ran
  exact ⟨rest, ran⟩

section observe

variable {α : Type*} (step) (obs : σ → ε → σ → List α)

def observe : σ → List ε → List α
  | _, [] => []
  | s, e :: es =>
    match step s e with
    | none => []
    | some s' => obs s e s' ++ observe s' es

variable {step}

theorem observe_append {es fs : List ε} (h : run step s es = some s') :
    observe step obs s (es ++ fs) = observe step obs s es ++ observe step obs s' fs := by
  induction es generalizing s with
  | nil =>
    cases h
    rfl
  | cons e es ih =>
    obtain ⟨m, hm, h⟩ := Option.bind_eq_some_iff.mp h
    simp only [List.cons_append, observe, hm, ih h, List.append_assoc]

theorem observe_singleton {e : ε} (h : step s e = some s') :
    observe step obs s [e] = obs s e s' := by
  simp [observe, h]

end observe

end Ledger.Lib
