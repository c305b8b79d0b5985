import Mathlib.Data.Set.Finite.Lemmas
import Mathlib.Logic.Relation
import Mathlib.Order.WithBot

namespace Ledger.Lib

universe u v

abbrev Locks (R : Type u) (O : Type v) := R → Option O

namespace Locks

variable {R : Type u} {O : Type v}

def Holds (locks : Locks R O) (o : O) (xs : List R) : Prop :=
  ∀ x, locks x = some o ↔ x ∈ xs

section release

variable [DecidableEq O] {locks : Locks R O} {o o' : O}

def release (locks : Locks R O) (o : O) : Locks R O :=
  fun x => if locks x = some o then none else locks x

@[simp] theorem release_self (locks : Locks R O) (o : O) (x : R) :
    locks.release o x ≠ some o := by
  unfold release
  split <;> simp_all

theorem release_other (ho : o' ≠ o) (y : R) :
    locks.release o y = some o' ↔ locks y = some o' := by
  unfold release
  split
  · next h => simp [h, ho.symm]
  · rfl

theorem release_holds (locks : Locks R O) (o : O) : (locks.release o).Holds o [] := by
  intro x
  simp

theorem release_comm (locks : Locks R O) (o o' : O) :
    (locks.release o).release o' = (locks.release o').release o := by
  funext x
  unfold release
  by_cases h : locks x = some o <;> by_cases h' : locks x = some o' <;> simp [h, h']

theorem release_congr {locks' : Locks R O}
    (h : ∀ o' ≠ o, ∀ x, locks' x = some o' ↔ locks x = some o') :
    locks'.release o = locks.release o := by
  funext x
  refine Option.ext fun o' => ?_
  by_cases ho : o' = o
  · subst ho
    simp
  · rw [release_other ho, release_other ho, h o' ho]

theorem release_of_holds_nil (h : locks.Holds o []) : locks.release o = locks := by
  funext x
  unfold release
  rw [if_neg fun hx => by simpa using (h x).mp hx]

end release

section acquire

variable [DecidableEq R] [DecidableEq O] {locks locks' : Locks R O} {o o' : O} {x : R}

def acquire (locks : Locks R O) (o : O) (x : R) : Option (Locks R O) :=
  if locks x = none ∨ locks x = some o then some (Function.update locks x (some o)) else none

theorem acquire_eq_some : locks.acquire o x = some locks' ↔
    (locks x = none ∨ locks x = some o) ∧ locks' = Function.update locks x (some o) := by
  unfold acquire
  split
  · next h => simp [h, eq_comm]
  · next h => simp [h]

theorem acquire_eq_none : locks.acquire o x = none ↔ ∃ o', o' ≠ o ∧ locks x = some o' := by
  unfold acquire
  cases h : locks x with
  | none => simp
  | some p => by_cases hp : p = o <;> simp [hp]

theorem acquire_other (h : locks.acquire o x = some locks') (ho : o' ≠ o) (y : R) :
    locks' y = some o' ↔ locks y = some o' := by
  obtain ⟨hfree, rfl⟩ := acquire_eq_some.mp h
  by_cases hy : y = x
  · subst hy
    rcases hfree with hfree | hfree <;> simp [hfree, ho.symm]
  · simp [Function.update_of_ne hy]

theorem acquire_holds {xs : List R} (h : locks.acquire o x = some locks')
    (hs : locks.Holds o xs) : locks'.Holds o (x :: xs) := by
  obtain ⟨-, rfl⟩ := acquire_eq_some.mp h
  intro y
  by_cases hy : y = x
  · simp [hy]
  · simp [hy, hs y]

theorem acquire_release {p : O} (hp : p ≠ o) (h : locks.acquire o x = some locks') :
    (locks.release p).acquire o x = some (locks'.release p) := by
  obtain ⟨hfree, rfl⟩ := acquire_eq_some.mp h
  refine acquire_eq_some.mpr ⟨hfree.imp ?_ (release_other hp.symm x).mpr, ?_⟩
  · intro hx
    simp [release, hx]
  · funext y
    by_cases hy : y = x
    · simp [release, hy, hp.symm]
    · simp [release, hy]

theorem acquire_own (h : locks x = some o) : locks.acquire o x = some locks := by
  rw [acquire_eq_some]
  refine ⟨.inr h, funext fun y => ?_⟩
  by_cases hy : y = x
  · subst hy
    simp [h]
  · simp [Function.update_of_ne hy]

end acquire

def WaitsFor (locks : Locks R O) (wants : O → Option R) (o o' : O) : Prop :=
  o ≠ o' ∧ ∃ x, wants o = some x ∧ locks x = some o'

section order

variable {P : Type*} [LinearOrder P] {locks : Locks R O} {wants : O → Option R} {rank : R → P}

def Ordered (locks : Locks R O) (wants : O → Option R) (rank : R → P) : Prop :=
  ∀ o x y, wants o = some x → locks y = some o → rank y < rank x

theorem WaitsFor.rank_lt (ordered : locks.Ordered wants rank) {a b : O}
    (h : Relation.TransGen (locks.WaitsFor wants) a b) {x y : R}
    (hx : wants a = some x) (hy : wants b = some y) : rank x < rank y := by
  induction h generalizing y with
  | single h =>
    obtain ⟨-, z, hz, hown⟩ := h
    obtain rfl : x = z := by simpa [hx] using hz
    exact ordered _ _ _ hy hown
  | tail _ h ih =>
    obtain ⟨-, z, hz, hown⟩ := h
    exact (ih hz).trans (ordered _ _ _ hy hown)

/-- Acquiring in ascending rank never closes a ring of waiters. -/
theorem WaitsFor.acyclic (ordered : locks.Ordered wants rank) (o : O) :
    ¬ Relation.TransGen (locks.WaitsFor wants) o o := by
  intro h
  obtain ⟨b, ⟨-, x, hx, -⟩, -⟩ := Relation.TransGen.head'_iff.mp h
  exact lt_irrefl (rank x) (WaitsFor.rank_lt ordered h hx hx)

theorem exists_not_waiting (ordered : locks.Ordered wants rank) {S : Set O} (hfin : S.Finite)
    (hne : S.Nonempty) (closed : ∀ o ∈ S, ∀ o', locks.WaitsFor wants o o' → o' ∈ S) :
    ∃ o ∈ S, ∀ o', ¬ locks.WaitsFor wants o o' := by
  by_contra hall
  push Not at hall
  -- the owner that waits for the highest rank waits for one that waits for a higher
  let height : O → WithBot P := fun o => (wants o).map rank
  obtain ⟨o, ho, hmax⟩ := Set.exists_max_image S height hfin hne
  obtain ⟨o', hw⟩ := hall o ho
  have ho' := closed o ho o' hw
  obtain ⟨-, -, y, hy, -⟩ := hall o' ho'
  obtain ⟨-, x, hx, hown⟩ := hw
  have hlt : rank x < rank y := ordered o' y x hy hown
  have hle : ((rank y : P) : WithBot P) ≤ rank x := by
    have := hmax o' ho'
    simp only [height, hx, hy] at this
    exact this
  exact absurd (WithBot.coe_le_coe.mp hle) (not_le.mpr hlt)

end order

end Locks

end Ledger.Lib
