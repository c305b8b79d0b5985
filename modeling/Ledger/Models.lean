import Ledger.Errors
import Ledger.Lib.Rows

namespace Ledger

open Lib

/-! Column types.  A CHECK constraint is a field of the type it constrains. -/

/-- A `NUMERIC(20, 4)` value, counted in ten-thousandths. -/
structure Numeric where
  units : Int
  inRange : units.natAbs < 10 ^ 20
  deriving DecidableEq

/-- The decimal a driver reads the column back as. -/
def Numeric.toDecimal (n : Numeric) : Decimal := ⟨n.units < 0, n.units.natAbs, -4⟩

/-- Storing a decimal rounds to four places, and fails when the result needs more than
twenty digits.  The limit of 16383 fractional digits on the input is left out. -/
def Numeric.ofDecimal (d : Decimal) : Except Exn Numeric :=
  if h : d.magnitude Decimal.roundHalfUp 4 < 10 ^ 20 then
    .ok ⟨Decimal.signed d.negative (d.magnitude Decimal.roundHalfUp 4), by simpa using h⟩
  else .error (.data (some .numericOutOfRange))

/-- `CHECK (balance >= 0)` -/
structure Balance extends Numeric where
  nonNegative : 0 ≤ units
  deriving DecidableEq

def Balance.ofDecimal (d : Decimal) : Except Exn Balance :=
  match Numeric.ofDecimal d with
  | .error e => .error e
  | .ok n =>
    if h : 0 ≤ n.units then .ok { n with nonNegative := h }
    else .error (.integrity (some .checkViolation))

/-- `CHECK (amount <> 0)` -/
structure Amount extends Numeric where
  nonZero : units ≠ 0
  deriving DecidableEq

def Amount.ofDecimal (d : Decimal) : Except Exn Amount :=
  match Numeric.ofDecimal d with
  | .error e => .error e
  | .ok n =>
    if h : n.units ≠ 0 then .ok { n with nonZero := h }
    else .error (.integrity (some .checkViolation))

theorem Numeric.ofDecimal_error {d : Decimal} {e : Exn} (h : Numeric.ofDecimal d = .error e) :
    e = .data (some .numericOutOfRange) := by
  unfold Numeric.ofDecimal at h
  split at h
  · cases h
  · cases h
    rfl

theorem Balance.ofDecimal_error {d : Decimal} {e : Exn} (h : Balance.ofDecimal d = .error e) :
    e = .data (some .numericOutOfRange) ∨ e = .integrity (some .checkViolation) := by
  unfold Balance.ofDecimal at h
  split at h
  · next hd =>
    cases h
    exact .inl (Numeric.ofDecimal_error hd)
  · split at h
    · cases h
    · cases h
      exact .inr rfl

theorem Amount.ofDecimal_error {d : Decimal} {e : Exn} (h : Amount.ofDecimal d = .error e) :
    e = .data (some .numericOutOfRange) ∨ e = .integrity (some .checkViolation) := by
  unfold Amount.ofDecimal at h
  split at h
  · next hd =>
    cases h
    exact .inl (Numeric.ofDecimal_error hd)
  · split at h
    · cases h
    · cases h
      exact .inr rfl

abbrev Timestamp := Nat

structure Account where
  id : Uuid
  balance : Balance
  openingBalance : Balance
  createdAt : Timestamp
  deriving DecidableEq

/-- One side of a transfer: negative debits the account, positive credits it. -/
structure LedgerEntry where
  id : Uuid
  transferId : Uuid
  accountId : Uuid
  amount : Amount
  createdAt : Timestamp
  deriving DecidableEq

/-- A client-supplied key claiming one state change.  The last three columns stay
null until the work behind the claim is done. -/
structure IdempotencyKey where
  key : String
  operation : Operation
  requestHash : String
  resourceId : Option Uuid := none
  responseStatus : Option Nat := none
  responseBody : Option Body := none
  deriving DecidableEq

structure Tables where
  accounts : List Account
  ledgerEntries : List LedgerEntry
  idempotencyKeys : List IdempotencyKey
  deriving DecidableEq

namespace Tables

def empty : Tables := ⟨[], [], []⟩

def account? (t : Tables) (id : Uuid) : Option Account := Rows.lookup Account.id id t.accounts

def key? (t : Tables) (key : String) : Option IdempotencyKey :=
  Rows.lookup IdempotencyKey.key key t.idempotencyKeys

end Tables

/-- `SELECT COALESCE(SUM(amount), 0) FROM ledger_entries WHERE transfer_id = ...` -/
def legSum (entries : List LedgerEntry) (transferId : Uuid) : Int :=
  ((entries.filter (·.transferId = transferId)).map (·.amount.units)).sum

theorem legSum_append (entries more : List LedgerEntry) (transferId : Uuid) :
    legSum (entries ++ more) transferId = legSum entries transferId + legSum more transferId := by
  simp [legSum]

theorem legSum_of_absent {entries : List LedgerEntry} {transferId : Uuid}
    (h : ∀ entry ∈ entries, entry.transferId ≠ transferId) : legSum entries transferId = 0 := by
  have : entries.filter (·.transferId = transferId) = [] := by
    simpa [List.filter_eq_nil_iff] using h
  simp [legSum, this]

/-- The constraint trigger, run for one inserted row against the rows it can see. -/
def assertTransferConservesMoney (visible : List LedgerEntry) (new : LedgerEntry) :
    Except Exn Unit :=
  if legSum visible new.transferId ≠ 0 then .error (.integrity (some .checkViolation)) else .ok ()

theorem assertTransferConservesMoney_ok {visible : List LedgerEntry} {new : LedgerEntry} :
    assertTransferConservesMoney visible new = .ok () ↔ legSum visible new.transferId = 0 := by
  by_cases h : legSum visible new.transferId = 0 <;> simp [assertTransferConservesMoney, h]

theorem assertTransferConservesMoney_error {visible : List LedgerEntry} {new : LedgerEntry}
    {e : Exn} (h : assertTransferConservesMoney visible new = .error e) :
    e = .integrity (some .checkViolation) := by
  unfold assertTransferConservesMoney at h
  split at h
  · cases h
    rfl
  · cases h

theorem assertTransferConservesMoney_all {visible rows : List LedgerEntry} :
    rows.forM (assertTransferConservesMoney visible) = .ok () ↔
      ∀ row ∈ rows, legSum visible row.transferId = 0 := by
  rw [List.forM_eq_forM]
  induction rows with
  | nil => simp [pure, Except.pure]
  | cons row rows ih =>
    rw [List.forM_cons, List.forall_mem_cons, ← ih]
    by_cases h : legSum visible row.transferId = 0 <;>
      simp [assertTransferConservesMoney, h, bind, Except.bind]

inductive Write
  | insertKey (row : IdempotencyKey)
  | updateKey (key : String) (resourceId : Uuid) (responseStatus : Nat) (responseBody : Body)
  | insertAccount (row : Account)
  | updateBalance (id : Uuid) (balance : Balance)
  | insertEntry (row : LedgerEntry)

def Write.apply (t : Tables) : Write → Tables
  | .insertKey row => { t with idempotencyKeys := t.idempotencyKeys ++ [row] }
  | .updateKey key resourceId responseStatus responseBody =>
    { t with
      idempotencyKeys := Rows.modify IdempotencyKey.key key (fun row =>
        { row with
          resourceId := some resourceId
          responseStatus := some responseStatus
          responseBody := some responseBody }) t.idempotencyKeys }
  | .insertAccount row => { t with accounts := t.accounts ++ [row] }
  | .updateBalance id balance =>
    { t with accounts := Rows.modify Account.id id ({ · with balance }) t.accounts }
  | .insertEntry row => { t with ledgerEntries := t.ledgerEntries ++ [row] }

def Tables.after (t : Tables) (writes : List Write) : Tables := writes.foldl Write.apply t

def Write.leg? : Write → Option LedgerEntry
  | .insertEntry row => some row
  | _ => none

end Ledger
