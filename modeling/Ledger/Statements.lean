import Ledger.Journal
import Mathlib.Data.List.Dedup

namespace Ledger

open Lib

/-! The constraint trigger against every statement. -/

inductive Statement
  | insert (rows : List LedgerEntry)
  | update (condition : LedgerEntry → Bool) (set : LedgerEntry → LedgerEntry)
  | delete (condition : LedgerEntry → Bool)

namespace Statement

def apply : Statement → List LedgerEntry → List LedgerEntry
  | .insert rows, entries => entries ++ rows
  | .update condition set, entries =>
    entries.map fun entry => if condition entry then set entry else entry
  | .delete condition, entries => entries.filter fun entry => !condition entry

/-- The rows that the trigger, which is one `AFTER INSERT`, fires for. -/
def inserted : Statement → List LedgerEntry
  | .insert rows => rows
  | _ => []

/-- The primary key and the foreign key are checked statement by statement. -/
def exec (accounts : List Uuid) (entries : List LedgerEntry) (s : Statement) :
    Option (List LedgerEntry) :=
  if ((s.apply entries).map LedgerEntry.id).Nodup ∧
      ∀ entry ∈ s.apply entries, entry.accountId ∈ accounts then some (s.apply entries)
  else none

end Statement

/-- A transaction of any client.  It commits if every statement passes, and if the deferred
trigger passes for each row as it was inserted. -/
def transact (accounts : List Uuid) (entries : List LedgerEntry) (statements : List Statement) :
    Option (List LedgerEntry) :=
  (run (Statement.exec accounts) entries statements).bind fun entries =>
    match (statements.flatMap Statement.inserted).forM (assertTransferConservesMoney entries) with
    | .ok _ => some entries
    | .error _ => none

/-- `SELECT SUM(amount) FROM ledger_entries` -/
def total (entries : List LedgerEntry) : Int := (entries.map (·.amount.units)).sum

/-- What UPDATE and DELETE add, statement by statement, to the sum of a transfer. -/
def drift (transferId : Uuid) : List LedgerEntry → List Statement → Int
  | _, [] => 0
  | entries, .insert rows :: rest => drift transferId (entries ++ rows) rest
  | entries, s :: rest => legSum (s.apply entries) transferId - legSum entries transferId +
      drift transferId (s.apply entries) rest

/-- The transfers that a transaction inserts rows for. -/
def insertedIds (statements : List Statement) : List Uuid :=
  (statements.flatMap Statement.inserted).map LedgerEntry.transferId

/-- UPDATE and DELETE leave the sum of every transfer that no row is inserted for as it was. -/
def Sparing (entries : List LedgerEntry) (statements : List Statement) : Prop :=
  ∀ transferId ∉ insertedIds statements, drift transferId entries statements = 0

theorem total_of_balanced {entries : List LedgerEntry} (h : Balanced entries) :
    total entries = 0 := by
  have nodup := List.nodup_dedup (entries.map LedgerEntry.transferId)
  rw [total, ← Rows.sum_filter LedgerEntry.transferId nodup]
  · rw [List.sum_eq_zero]
    rintro _ hsum
    obtain ⟨transferId, -, rfl⟩ := List.mem_map.mp hsum
    exact h transferId
  · intro entry hentry
    exact List.mem_dedup.mpr (List.mem_map_of_mem hentry)

section transact

variable {accounts : List Uuid} {entries after : List LedgerEntry} {statements : List Statement}
  {transferId : Uuid}

theorem exec_eq {s : Statement} (h : s.exec accounts entries = some after) :
    after = s.apply entries := by
  unfold Statement.exec at h
  split at h <;> cases h
  rfl

theorem legSum_run (absent : ∀ row ∈ statements.flatMap Statement.inserted,
      row.transferId ≠ transferId)
    (ran : run (Statement.exec accounts) entries statements = some after) :
    legSum after transferId = legSum entries transferId + drift transferId entries statements := by
  induction statements generalizing entries with
  | nil =>
    cases ran
    simp [drift]
  | cons s rest ih =>
    obtain ⟨next, hs, ran⟩ := Option.bind_eq_some_iff.mp ran
    obtain rfl := exec_eq hs
    have later := ih (fun row hrow => absent row (by simp_all)) ran
    cases s with
    | insert rows =>
      have others : legSum rows transferId = 0 :=
        legSum_of_absent fun row hrow => absent row (by simp [Statement.inserted, hrow])
      rw [later, drift, Statement.apply, legSum_append, others, add_zero]
    | update condition set =>
      rw [later, drift]
      · ring
      · simp
    | delete condition =>
      rw [later, drift]
      · ring
      · simp

theorem transact_eq_some (h : transact accounts entries statements = some after) :
    run (Statement.exec accounts) entries statements = some after ∧
      ∀ id ∈ insertedIds statements, legSum after id = 0 := by
  obtain ⟨final, ran, h⟩ := Option.bind_eq_some_iff.mp h
  split at h
  · next hok =>
    cases h
    refine ⟨ran, fun id hid => ?_⟩
    obtain ⟨row, hrow, rfl⟩ := List.mem_map.mp hid
    exact assertTransferConservesMoney_all.mp hok row hrow
  · cases h

theorem Balanced.transact (before : Balanced entries)
    (h : transact accounts entries statements = some after)
    (sparing : Sparing entries statements) : Balanced after := by
  intro transferId
  obtain ⟨ran, checked⟩ := transact_eq_some h
  by_cases inserted : transferId ∈ insertedIds statements
  · exact checked transferId inserted
  · have absent : ∀ row ∈ statements.flatMap Statement.inserted, row.transferId ≠ transferId :=
      fun row hrow he => inserted (he ▸ List.mem_map_of_mem hrow)
    rw [legSum_run absent ran, before transferId, sparing transferId inserted, add_zero]

end transact

theorem total_eq_zero_of_sparing (accounts : List Uuid) (x : Execution (transact accounts) [])
    (sparing : ∀ pre statements m, pre ++ [statements] <+: x.events →
      run (transact accounts) [] pre = some m → Sparing m statements) :
    ∀ pre m, Past (transact accounts) [] x.events pre m → Balanced m ∧ total m = 0 := by
  rintro pre m ⟨hpre, ran⟩
  suffices h : pre <+: x.events → Balanced m from ⟨h hpre, total_of_balanced (h hpre)⟩
  refine run_induction (P := fun pre m => pre <+: x.events → Balanced m) (fun _ _ => rfl) ?_ ran
  intro pre m statements m' ran ih hstep hpre
  exact (ih ((List.prefix_append _ _).trans hpre)).transact hstep
    (sparing pre statements m hpre ran)

def bothDoubled : Execution (transact [7, 8]) [] :=
  .of [[.insert [⟨1, 9, 7, ⟨⟨-20000, by decide⟩, by decide⟩, 0⟩,
      ⟨2, 9, 8, ⟨⟨20000, by decide⟩, by decide⟩, 0⟩]],
    [.update (fun entry => entry.id = 1) fun entry =>
        { entry with amount := ⟨⟨-40000, by decide⟩, by decide⟩ },
      .update (fun entry => entry.id = 2) fun entry =>
        { entry with amount := ⟨⟨40000, by decide⟩, by decide⟩ }]] (by decide +kernel)

theorem bothDoubled_total : total bothDoubled.last = 0 := by
  refine (total_eq_zero_of_sparing [7, 8] bothDoubled ?_ _ _ (.last bothDoubled.ran)).2
  rintro pre statements m ⟨rest, hpre⟩ ran transferId -
  rcases pre with _ | ⟨first, _ | ⟨second, pre⟩⟩
  · cases hpre
    rfl
  · cases hpre
    cases ran
    by_cases h : (9 : Uuid) = transferId <;> simp [drift, Statement.apply, legSum, h]
  · simp [bothDoubled, Execution.of] at hpre

def legDeleted : Execution (transact [7, 8]) [] :=
  .of [[.insert [⟨1, 9, 7, ⟨⟨-20000, by decide⟩, by decide⟩, 0⟩,
      ⟨2, 9, 8, ⟨⟨20000, by decide⟩, by decide⟩, 0⟩]],
    [.delete fun entry => entry.id = 1]] (by decide +kernel)

theorem legDeleted_total : ¬ ∀ (accounts : List Uuid) (x : Execution (transact accounts) []),
    total x.last = 0 := by
  intro h
  have : total legDeleted.last = 20000 := rfl
  have := h [7, 8] legDeleted
  omega

end Ledger
