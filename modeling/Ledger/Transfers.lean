import Ledger.Idempotency

namespace Ledger

open Lib

/-- The precision of the default decimal context. -/
def precision : Nat := 28

/-- Row locks in ascending order of id, one statement at a time. -/
def lockInTurn : List Uuid → App (List (Uuid × Account))
  | [] => pure []
  | id :: ids => do
    match ← perform (.lockAccount id) with
    | none => .raise (.ledger (.accountNotFound id))
    | some account => do
      let locked ← lockInTurn ids
      pure ((id, account) :: locked)

def lockAccounts (ids : List Uuid) : App (List (Uuid × Account)) :=
  lockInTurn (ids.insertionSort (· ≤ ·))

/-- `accounts[id]` -/
def item (accounts : List (Uuid × Account)) (id : Uuid) : App Account :=
  match accounts.lookup id with
  | none => .raise .other
  | some account => pure account

/-- The statements of the flush: the balances, the two legs, the response on the key row. -/
def flushTransfer (draws : Draws) (source destination : Account)
    (sourceBalance destinationBalance amount : Decimal) (key : String) (body : Body) :
    App Unit := do
  perform (.updateBalance source.id sourceBalance)
  perform (.updateBalance destination.id destinationBalance)
  perform (.insertEntry draws.second draws.first source.id (amount.neg precision))
  perform (.insertEntry draws.third draws.first destination.id amount)
  perform (.updateKey key draws.first 201 body)

def moveMoney (draws : Draws) (req : TransferRequest) (record : IdempotencyKey) :
    App (IdempotencyKey × Outcome) := do
  let accounts ← lockAccounts [req.fromAccountId, req.toAccountId]
  let source ← item accounts req.fromAccountId
  let destination ← item accounts req.toAccountId
  if source.balance.toDecimal.lt req.amount.value then
    .raise (.ledger (.insufficientFunds source.id (serializeMoney source.balance.toDecimal)
      (serializeMoney req.amount.value)))
  else do
    let amount := req.amount.value
    let createdAt ← perform .selectNow
    let body := Body.transfer
      { transferId := draws.first
        fromAccountId := source.id
        toAccountId := destination.id
        amount := serializeMoney amount
        createdAt }
    flushTransfer draws source destination (source.balance.toDecimal.sub precision amount)
      (destination.balance.toDecimal.add precision amount) amount record.key body
    pure ({ record with
        resourceId := some draws.first
        responseStatus := some 201
        responseBody := some body },
      { statusCode := 201, body := some body, replayed := false })

/-- The log line of a transfer that was executed now. -/
def logTransfer (draws : Draws) (key : String) (req : TransferRequest) (outcome : Outcome) :
    App Outcome :=
  if outcome.replayed then pure outcome
  else do
    perform (.log (.transferCommitted (some draws.first) key req.fromAccountId req.toAccountId
      req.amount.value))
    pure outcome

def executeTransfer (sha256 : String → String) (draws : Draws) (key : String)
    (req : TransferRequest) : App Outcome :=
  if req.fromAccountId = req.toAccountId then .raise (.ledger .sameAccountTransfer)
  else do
    let outcome ← executeOnce key .createTransfer (fingerprint sha256 (.transfer req))
      (moveMoney draws req)
    logTransfer draws key req outcome

end Ledger
