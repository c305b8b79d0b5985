import Ledger.Models
import Ledger.Lib.Runs
import Mathlib.Algebra.Order.BigOperators.Group.List
import Mathlib.Logic.Function.Basic

namespace Ledger

open Lib

/-! The constraint trigger against any number of inserting writers. -/

def Balanced (entries : List LedgerEntry) : Prop := ∀ transferId, legSum entries transferId = 0

/-- A transaction that inserts entries.  From its commit on, `unchecked` holds the rows for
which the deferred trigger has not run yet. -/
structure Writer where
  rows : List LedgerEntry
  unchecked : Option (List LedgerEntry)

structure Journal where
  entries : List LedgerEntry
  writer : Nat → Option Writer

namespace Journal

inductive Event
  | begin (n : Nat)
  | insert (n : Nat) (row : LedgerEntry)
  | commit (n : Nat)
  | check (n : Nat)
  | publish (n : Nat)
  | abort (n : Nat)

def start (entries : List LedgerEntry) : Journal := ⟨entries, fun _ => none⟩

def put (s : Journal) (n : Nat) (w : Option Writer) : Journal :=
  { s with writer := Function.update s.writer n w }

def step (s : Journal) : Event → Option Journal
  | .begin n =>
    match s.writer n with
    | none => some (s.put n (some ⟨[], none⟩))
    | some _ => none
  | .insert n row =>
    match s.writer n with
    | some ⟨rows, none⟩ => some (s.put n (some ⟨rows ++ [row], none⟩))
    | _ => none
  | .commit n =>
    match s.writer n with
    | some ⟨rows, none⟩ => some (s.put n (some ⟨rows, some rows⟩))
    | _ => none
  | .check n =>
    match s.writer n with
    | some ⟨rows, some (row :: rest)⟩ =>
      match assertTransferConservesMoney (s.entries ++ rows) row with
      | .ok _ => some (s.put n (some ⟨rows, some rest⟩))
      | .error _ => some (s.put n none)
    | _ => none
  | .publish n =>
    match s.writer n with
    | some ⟨rows, some []⟩ => some { s.put n none with entries := s.entries ++ rows }
    | _ => none
  | .abort n =>
    match s.writer n with
    | some _ => some (s.put n none)
    | none => none

/-- The committed transfers are balanced, and so are those of a writer that the trigger has
passed, whatever was committed when it ran. -/
structure Inv (s : Journal) : Prop where
  balanced : Balanced s.entries
  passed : ∀ n rows rest, s.writer n = some ⟨rows, some rest⟩ →
    ∀ row ∈ rows, row ∈ rest ∨ legSum rows row.transferId = 0

namespace Inv

variable {s s' : Journal} {e : Event}

theorem start {entries : List LedgerEntry} (h : Balanced entries) : Inv (start entries) where
  balanced := h
  passed := by simp [Journal.start]

theorem put (inv : Inv s) (n : Nat) {w : Option Writer}
    (h : ∀ rows rest, w = some ⟨rows, some rest⟩ →
      ∀ row ∈ rows, row ∈ rest ∨ legSum rows row.transferId = 0) : Inv (s.put n w) where
  balanced := inv.balanced
  passed := by
    intro m rows rest hm
    by_cases hmn : m = n
    · subst hmn
      exact h rows rest (by simpa [Journal.put] using hm)
    · exact inv.passed m rows rest (by simpa [Journal.put, hmn] using hm)

theorem balanced_rows (inv : Inv s) {n : Nat} {rows : List LedgerEntry}
    (h : s.writer n = some ⟨rows, some []⟩) : Balanced rows := by
  intro transferId
  by_cases hrow : ∃ row ∈ rows, row.transferId = transferId
  · obtain ⟨row, hrow, rfl⟩ := hrow
    exact (inv.passed n rows [] h row hrow).resolve_left (by simp)
  · push Not at hrow
    exact legSum_of_absent hrow

theorem step (inv : Inv s) (h : s.step e = some s') : Inv s' := by
  cases e with
  | begin n =>
    simp only [Journal.step] at h
    split at h <;> cases h
    exact inv.put n (by simp)
  | insert n row =>
    simp only [Journal.step] at h
    split at h <;> cases h
    exact inv.put n (by simp)
  | commit n =>
    simp only [Journal.step] at h
    split at h <;> cases h
    refine inv.put n ?_
    rintro rows rest ⟨⟩ row hrow
    exact .inl hrow
  | check n =>
    simp only [Journal.step] at h
    split at h
    · next rows row rest hw =>
      split at h <;> cases h
      · next hok =>
        refine inv.put n ?_
        rintro _ _ ⟨⟩ row' hrow'
        rcases inv.passed n rows _ hw row' hrow' with hmem | hsum
        · rcases List.mem_cons.mp hmem with rfl | hmem
          · have := assertTransferConservesMoney_ok.mp hok
            rw [legSum_append, inv.balanced, zero_add] at this
            exact .inr this
          · exact .inl hmem
        · exact .inr hsum
      · exact inv.put n (by simp)
    · cases h
  | publish n =>
    simp only [Journal.step] at h
    split at h
    · next rows hw =>
      cases h
      refine ⟨fun transferId => ?_, (inv.put n (by simp)).passed⟩
      rw [legSum_append, inv.balanced, inv.balanced_rows hw, add_zero]
    · cases h
  | abort n =>
    simp only [Journal.step] at h
    split at h <;> cases h
    exact inv.put n (by simp)

end Inv

end Journal

theorem Balanced.legs {entries : List LedgerEntry} (h : Balanced entries) {entry : LedgerEntry}
    (hentry : entry ∈ entries) :
    (∃ debit ∈ entries, debit.transferId = entry.transferId ∧ debit.amount.units < 0) ∧
      ∃ credit ∈ entries, credit.transferId = entry.transferId ∧ 0 < credit.amount.units := by
  obtain ⟨legs, hlegs⟩ : ∃ legs, legs = entries.filter (·.transferId = entry.transferId) := ⟨_, rfl⟩
  have hne : legs ≠ [] := List.ne_nil_of_mem (hlegs ▸ List.mem_filter.mpr ⟨hentry, by simp⟩)
  have hsum : (legs.map (·.amount.units)).sum = (legs.map fun _ => (0 : Int)).sum := by
    rw [hlegs]
    simpa [legSum] using h entry.transferId
  have member {leg : LedgerEntry} (hleg : leg ∈ legs) :
      leg ∈ entries ∧ leg.transferId = entry.transferId := by
    simpa [hlegs] using hleg
  constructor
  · obtain ⟨debit, hmem, hle⟩ := List.exists_le_of_sum_le hne _ _ hsum.le
    exact ⟨debit, (member hmem).1, (member hmem).2, lt_of_le_of_ne hle debit.amount.nonZero⟩
  · obtain ⟨credit, hmem, hle⟩ := List.exists_le_of_sum_le hne _ _ hsum.ge
    exact ⟨credit, (member hmem).1, (member hmem).2, lt_of_le_of_ne hle credit.amount.nonZero.symm⟩

theorem trigger_conserves_money {entries : List LedgerEntry} (h : Balanced entries)
    (x : Execution Journal.step (.start entries)) : ∀ entry ∈ x.last.entries,
      legSum x.last.entries entry.transferId = 0 ∧
      (∃ debit ∈ x.last.entries,
        debit.transferId = entry.transferId ∧ debit.amount.units < 0) ∧
      ∃ credit ∈ x.last.entries,
        credit.transferId = entry.transferId ∧ 0 < credit.amount.units := by
  have inv : x.last.Inv := run_induction (P := fun _ s => s.Inv) (.start h)
    (fun _ _ _ _ _ inv hstep => inv.step hstep) x.ran
  exact fun entry hentry => ⟨inv.balanced _, inv.balanced.legs hentry⟩

def twoWriters : Execution Journal.step (.start []) :=
  .of [.begin 0, .begin 1, .insert 0 ⟨1, 9, 7, ⟨⟨-5, by decide⟩, by decide⟩, 0⟩,
    .insert 1 ⟨2, 9, 7, ⟨⟨-3, by decide⟩, by decide⟩, 0⟩,
    .insert 0 ⟨3, 9, 8, ⟨⟨5, by decide⟩, by decide⟩, 0⟩,
    .insert 1 ⟨4, 9, 8, ⟨⟨3, by decide⟩, by decide⟩, 0⟩,
    .commit 0, .commit 1, .check 0, .check 1, .check 1, .check 0, .publish 1, .publish 0]
    (by decide +kernel)

theorem twoWriters_conserve : legSum twoWriters.last.entries 9 = 0 ∧
    twoWriters.last.entries.length = 4 := by
  have hmem : ⟨1, 9, 7, ⟨⟨-5, by decide⟩, by decide⟩, 0⟩ ∈ twoWriters.last.entries := by
    decide +kernel
  exact ⟨(trigger_conserves_money (fun _ => rfl) twoWriters _ hmem).1, rfl⟩

end Ledger
