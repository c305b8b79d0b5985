import Ledger.Lib.Runs
import Mathlib.Data.List.Nodup

namespace Ledger.Lib

variable {σ ε τ ο α ι : Type*}

/-! Concurrent operations as if they had been carried out in turn. -/

def serveAll (serve : τ → ο → τ × α) : τ → List ο → τ × List α
  | t, [] => (t, [])
  | t, o :: os =>
    let rest := serveAll serve (serve t o).1 os
    (rest.1, (serve t o).2 :: rest.2)

section serveAll

variable {serve : τ → ο → τ × α} {op : ι → ο} {answer : ι → α} {t t' t'' : τ}

theorem serveAll_append {os os' : List ο} {as as' : List α} (h : serveAll serve t os = (t', as))
    (h' : serveAll serve t' os' = (t'', as')) :
    serveAll serve t (os ++ os') = (t'', as ++ as') := by
  induction os generalizing t as with
  | nil =>
    cases h
    exact h'
  | cons o os ih =>
    cases h
    have rest := ih rfl
    simp only [List.cons_append, serveAll, rest]

theorem serveAll_singleton {i : ι} (h : serve t (op i) = (t', answer i)) :
    serveAll serve t ([i].map op) = (t', [i].map answer) := by
  simp [serveAll, h]

theorem serveAll_seen {ids : List ι} (h : ∀ i ∈ ids, serve t (op i) = (t, answer i)) :
    serveAll serve t (ids.map op) = (t, ids.map answer) := by
  induction ids with
  | nil => rfl
  | cons i ids ih =>
    have rest := ih fun j hj => h j (List.mem_cons_of_mem _ hj)
    simp only [List.map_cons, serveAll, h i List.mem_cons_self, rest]

end serveAll

structure First (P : List ε → Prop) (pre : List ε) : Prop where
  holds : P pre
  least : ∀ past, past <+: pre → P past → past = pre

theorem exists_first {P : List ε → Prop} {es : List ε} (h : P es) :
    ∃ pre, pre <+: es ∧ First P pre := by
  by_cases earlier : ∃ past, past <+: es ∧ past ≠ es ∧ P past
  · obtain ⟨past, hpast, hne, hp⟩ := earlier
    have : past.length < es.length :=
      lt_of_le_of_ne hpast.length_le fun hl => hne (hpast.eq_of_length hl)
    obtain ⟨pre, hpre, first⟩ := exists_first hp
    exact ⟨pre, hpre.trans hpast, first⟩
  · exact ⟨es, List.prefix_rfl, h, fun past hpast hp =>
      by_contra fun hne => earlier ⟨past, hpast, hne, hp⟩⟩
termination_by es.length

theorem First.length_le {P : List ε → Prop} {es pre past : List ε} (h : First P pre)
    (hpre : pre <+: es) (hpast : past <+: es) (hp : P past) : pre.length ≤ past.length := by
  by_contra! shorter
  have := h.least past (List.prefix_of_prefix_length_le hpast hpre shorter.le) hp
  exact shorter.ne (congrArg List.length this)

/-- The points of a run at which its operations take effect.  An operation that acts is what the
last event of its point amounts to, and any other only sees the state at its point. -/
structure Points (step : σ → ε → Option σ) (init : σ) (es : List ε) (view : σ → τ)
    (serve : τ → ο → τ × α) (op : ι → ο) (answer : ι → α) (ids : List ι) where
  point : ι → List ε
  acts : ι → Prop
  within : ∀ i ∈ ids, point i <+: es
  started : ∀ i ∈ ids, acts i → point i ≠ []
  effects : ∀ pre e m m', pre ++ [e] <+: es → run step init pre = some m → step m e = some m' →
    view m' = view m ∧ (∀ i ∈ ids, acts i → point i ≠ pre ++ [e]) ∨
      ∃ i, (∀ j, j ∈ ids ∧ acts j ∧ point j = pre ++ [e] ↔ j = i) ∧
        serve (view m) (op i) = (view m', answer i)
  sees : ∀ i ∈ ids, ¬ acts i → ∀ m, run step init (point i) = some m →
    serve (view m) (op i) = (view m, answer i)

namespace Points

variable {step : σ → ε → Option σ} {init s : σ} {es : List ε} {view : σ → τ}
  {serve : τ → ο → τ × α} {op : ι → ο} {answer : ι → α} {ids : List ι}

def abstract {τ' ο' α' : Type*} (p : Points step init es view serve op answer ids)
    (stands : τ → τ') {serve' : τ' → ο' → τ' × α'} {op' : ι → ο'} {answer' : ι → α'}
    (acted : ∀ i ∈ ids, p.acts i → ∀ pre e m m', p.point i = pre ++ [e] →
      run step init pre = some m → step m e = some m' →
      serve' (stands (view m)) (op' i) = (stands (view m'), answer' i))
    (saw : ∀ i ∈ ids, ¬ p.acts i → ∀ m, run step init (p.point i) = some m →
      serve' (stands (view m)) (op' i) = (stands (view m), answer' i)) :
    Points step init es (stands ∘ view) serve' op' answer' ids where
  point := p.point
  acts := p.acts
  within := p.within
  started := p.started
  effects pre e m m' hpre hm he := by
    rcases p.effects pre e m m' hpre hm he with ⟨same, none⟩ | ⟨i, only, -⟩
    · exact .inl ⟨congrArg stands same, none⟩
    · obtain ⟨hi, acts, hpoint⟩ := (only i).mpr rfl
      exact .inr ⟨i, only, acted i hi acts pre e m m' hpoint hm he⟩
  sees := saw

theorem point_eq_iff (p : Points step init es view serve op answer ids) {i : ι} (hi : i ∈ ids)
    {pre : List ε} (hpre : pre <+: es) : p.point i = pre ↔ (p.point i).length = pre.length :=
  ⟨congrArg List.length, fun h =>
    (List.prefix_of_prefix_length_le (p.within i hi) hpre h.le).eq_of_length h⟩

section order

open Classical in
noncomputable def effective (p : Points step init es view serve op answer ids) (pre : List ε) :
    List ι :=
  ids.filter fun i => p.acts i ∧ p.point i = pre

open Classical in
noncomputable def seeing (p : Points step init es view serve op answer ids) (pre : List ε) :
    List ι :=
  ids.filter fun i => ¬ p.acts i ∧ p.point i = pre

variable (p : Points step init es view serve op answer ids)

theorem mem_effective {pre : List ε} {i : ι} :
    i ∈ p.effective pre ↔ i ∈ ids ∧ p.acts i ∧ p.point i = pre := by
  simp [effective]

theorem mem_seeing {pre : List ε} {i : ι} :
    i ∈ p.seeing pre ↔ i ∈ ids ∧ ¬ p.acts i ∧ p.point i = pre := by
  simp [seeing]

theorem serveAll_seeing {pre : List ε} {m : σ} (hm : run step init pre = some m) :
    serveAll serve (view m) ((p.seeing pre).map op) = (view m, (p.seeing pre).map answer) := by
  refine serveAll_seen fun i hi => ?_
  obtain ⟨hi, hacts, rfl⟩ := p.mem_seeing.mp hi
  exact p.sees i ‹_› hacts m hm

theorem serveAll_effective (nodup : ids.Nodup) {pre : List ε} {e : ε} {m m' : σ}
    (hpre : pre ++ [e] <+: es) (hm : run step init pre = some m) (he : step m e = some m') :
    serveAll serve (view m) ((p.effective (pre ++ [e])).map op) =
      (view m', (p.effective (pre ++ [e])).map answer) := by
  rcases p.effects pre e m m' hpre hm he with ⟨same, none⟩ | ⟨i, only, served⟩
  · have : p.effective (pre ++ [e]) = [] := by
      refine List.eq_nil_iff_forall_not_mem.mpr fun i hi => ?_
      obtain ⟨hi, hacts, hpoint⟩ := p.mem_effective.mp hi
      exact none i hi hacts hpoint
    rw [this, same]
    rfl
  · have : p.effective (pre ++ [e]) = [i] := by
      refine List.perm_singleton.mp ((List.perm_ext_iff_of_nodup (nodup.filter _) (by simp)).mpr ?_)
      exact fun j => p.mem_effective.trans ((only j).trans List.mem_singleton.symm)
    rw [this]
    exact serveAll_singleton served

structure Ordered (pre : List ε) (m : σ) (order : List ι) : Prop where
  nodup : order.Nodup
  mem : ∀ i, i ∈ order ↔ i ∈ ids ∧ (p.point i).length ≤ pre.length
  sorted : order.Pairwise fun i j => (p.point i).length ≤ (p.point j).length
  served : serveAll serve (view init) (order.map op) = (view m, order.map answer)

variable {p}

theorem Ordered.start (nodup : ids.Nodup) : p.Ordered [] init (p.seeing []) where
  nodup := nodup.filter _
  mem i := by
    rw [p.mem_seeing, List.length_nil, Nat.le_zero, List.length_eq_zero_iff]
    exact ⟨fun ⟨hi, _, hpoint⟩ => ⟨hi, hpoint⟩,
      fun ⟨hi, hpoint⟩ => ⟨hi, fun hacts => p.started i hi hacts hpoint, hpoint⟩⟩
  sorted := by
    refine List.pairwise_of_forall_mem_list fun i hi j hj => ?_
    simp [(p.mem_seeing.mp hi).2.2]
  served := p.serveAll_seeing rfl

theorem Ordered.next (nodup : ids.Nodup) {pre : List ε} {e : ε} {m m' : σ} {order : List ι}
    (h : p.Ordered pre m order) (hpre : pre ++ [e] <+: es) (hm : run step init pre = some m)
    (he : step m e = some m') : p.Ordered (pre ++ [e]) m'
      (order ++ (p.effective (pre ++ [e]) ++ p.seeing (pre ++ [e]))) := by
  have now {i : ι} : i ∈ p.effective (pre ++ [e]) ++ p.seeing (pre ++ [e]) ↔
      i ∈ ids ∧ p.point i = pre ++ [e] := by
    rw [List.mem_append, p.mem_effective, p.mem_seeing]
    tauto
  have later {i : ι} (hi : i ∈ p.effective (pre ++ [e]) ++ p.seeing (pre ++ [e])) :
      (p.point i).length = pre.length + 1 := by
    simp [(now.mp hi).2]
  refine ⟨?nodup, fun i => ?mem, ?sorted, ?served⟩
  case nodup =>
    rw [List.nodup_append', List.nodup_append']
    refine ⟨h.nodup, ⟨nodup.filter _, nodup.filter _, fun i hi hi' => ?_⟩, fun i hi hi' => ?_⟩
    · exact (p.mem_seeing.mp hi').2.1 (p.mem_effective.mp hi).2.1
    · have := ((h.mem i).mp hi).2
      have := later hi'
      omega
  case mem =>
    rw [List.mem_append, h.mem, now, List.length_append, List.length_singleton]
    constructor
    · rintro (⟨hi, hl⟩ | ⟨hi, hpoint⟩)
      · exact ⟨hi, by omega⟩
      · exact ⟨hi, by simp [hpoint]⟩
    · rintro ⟨hi, hl⟩
      rcases Nat.le_succ_iff.mp hl with hl | hl
      · exact .inl ⟨hi, hl⟩
      · exact .inr ⟨hi, (p.point_eq_iff hi hpre).mpr (by simpa using hl)⟩
  case sorted =>
    refine List.pairwise_append.mpr ⟨h.sorted, ?_, fun i hi j hj => ?_⟩
    · exact List.pairwise_of_forall_mem_list fun i hi j hj => by rw [later hi, later hj]
    · rw [later hj]
      exact ((h.mem i).mp hi).2.trans (Nat.le_succ _)
  case served =>
    rw [List.map_append, List.map_append, List.map_append, List.map_append]
    exact serveAll_append h.served
      (serveAll_append (p.serveAll_effective nodup hpre hm he) (p.serveAll_seeing (run_next hm he)))

end order

/-- Operations in the order of their points get the answers that they got. -/
theorem exists_order (p : Points step init es view serve op answer ids) (nodup : ids.Nodup)
    (ran : run step init es = some s) : ∃ order : List ι, order.Perm ids ∧
      order.Pairwise (fun i j => (p.point i).length ≤ (p.point j).length) ∧
      serveAll serve (view init) (order.map op) = (view s, order.map answer) := by
  suffices ∃ order, p.Ordered es s order by
    obtain ⟨order, h⟩ := this
    refine ⟨order, (List.perm_ext_iff_of_nodup h.nodup nodup).mpr fun i => ?_, h.sorted, h.served⟩
    exact (h.mem i).trans (and_iff_left_of_imp fun hi => (p.within i hi).length_le)
  refine run_induction (P := fun pre m => pre <+: es → ∃ order, p.Ordered pre m order)
    (fun _ => ⟨_, .start nodup⟩) ?next ran List.prefix_rfl
  intro pre m e m' hm ih he hpre
  obtain ⟨order, h⟩ := ih ((List.prefix_append pre [e]).trans hpre)
  exact ⟨_, h.next nodup hpre hm he⟩

/-- What ended before something else began comes before it, if every operation takes effect
between its beginning and its end. -/
theorem realTime (es : List ε) {point : ι → List ε} (began ended : ι → List ε → Prop)
    {order : List ι}
    (sorted : order.Pairwise fun i j => (point i).length ≤ (point j).length)
    (early : ∀ i ∈ order, ∀ pre, pre <+: es → ¬ began i pre → pre.length < (point i).length)
    (late : ∀ i ∈ order, ∀ pre, pre <+: es → ended i pre → (point i).length ≤ pre.length) :
    order.Pairwise fun i j => ¬ ∃ pre, pre <+: es ∧ ended j pre ∧ ¬ began i pre := by
  refine sorted.imp_of_mem fun {i j} hi hj hle => ?_
  rintro ⟨pre, hpre, hended, hbegan⟩
  have := early i hi pre hpre hbegan
  have := late j hj pre hpre hended
  omega

end Points

end Ledger.Lib
