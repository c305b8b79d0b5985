import Ledger.Database

namespace Ledger

open Lib

/-- `str.isspace`, which `str.strip` removes at both ends. -/
def isSpace (c : Char) : Bool :=
  let n := c.toNat
  (9 ≤ n && n ≤ 13) || (28 ≤ n && n ≤ 32) || n == 0x85 || n == 0xa0 || n == 0x1680 ||
    (0x2000 ≤ n && n ≤ 0x200a) || n == 0x2028 || n == 0x2029 || n == 0x202f || n == 0x205f ||
    n == 0x3000

def strip (text : String) : String :=
  String.ofList (((text.toList.dropWhile isSpace).reverse.dropWhile isSpace).reverse)

def requireKey (raw : Option String) : Except LedgerError String :=
  match raw with
  | none => .error .missingIdempotencyKey
  | some raw =>
    let key := strip raw
    if key.length = 0 then .error .missingIdempotencyKey
    else if key.length > maxKeyLength then .error (.invalidIdempotencyKey key.length)
    else .ok key

structure Outcome where
  statusCode : Nat
  body : Option Body
  replayed : Bool
  deriving DecidableEq

/-- Answer from the stored response, or refuse if the key was recycled. -/
def replay (record : IdempotencyKey) (operation : Operation) (requestHash : String)
    (raced : Bool) : App Outcome :=
  if record.operation ≠ operation ∨ record.requestHash ≠ requestHash then
    .raise (.ledger (.idempotencyKeyConflict record.key record.operation))
  else do
    perform (.log (.replayed operation record.key record.resourceId record.responseStatus raced))
    pure { statusCode := 200, body := record.responseBody, replayed := true }

section execute_once

variable (key : String) (operation : Operation) (requestHash : String)

/-- A retry of a completed request needs no locks.  The read transaction is closed
whatever comes of it. -/
def fastPath : App (Option Outcome) :=
  Prog.tryFinally
    (do
      match ← perform (.getKey key) with
      | some existing =>
        let outcome ← replay existing operation requestHash false
        pure (some outcome)
      | none => pure none)
    (perform .rollback)

/-- The claim, the work it authorises and the commit, as one transaction.  The work hands the
claimed record back as it left it. -/
def claimAndPerform (work : IdempotencyKey → App (IdempotencyKey × Outcome)) : App Outcome := do
  let record : IdempotencyKey := { key, operation, requestHash }
  perform (.insertKey record)
  let (record, outcome) ← work record
  perform .commit
  perform (.log (.committed operation key record.resourceId))
  pure outcome

/-- The claim was lost to a request that committed: had that one rolled back, the insert
would have succeeded. -/
def replayWinner : App Outcome := do
  match ← perform (.getKey key) with
  | none => do
    perform (.log (.recordVanished operation key))
    .raise (.ledger .vanished)
  | some winner => replay winner operation requestHash true

/-- The `except` clauses around the write transaction. -/
def onException : Exn → App Outcome
  | .integrity state => do
    perform .rollback
    if state ≠ some .uniqueViolation then .raise (.integrity state)
    else replayWinner key operation requestHash
  | .data state => do
    perform .rollback
    if state ≠ some .numericOutOfRange then .raise (.data state)
    else do
      perform (.log (.valueOutOfRange operation key))
      .raise (.ledger .amountOutOfRange)
  | .operational state => do
    perform .rollback
    if state = some .lockNotAvailable then do
      perform (.log (.lockTimeout operation key))
      .raise (.ledger .busy)
    else if state = some .deadlockDetected then do
      perform (.log (.deadlock operation key))
      .raise (.ledger .contention)
    else .raise (.operational state)
  | .ledger error => do
    perform .rollback
    .raise (.ledger error)
  | .other => do
    perform .rollback
    .raise .other

def executeOnce (work : IdempotencyKey → App (IdempotencyKey × Outcome)) : App Outcome := do
  match ← fastPath key operation requestHash with
  | some outcome => pure outcome
  | none =>
    (claimAndPerform key operation requestHash work).tryExcept
      (onException key operation requestHash)

end execute_once

end Ledger
