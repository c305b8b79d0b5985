import Ledger.Idempotency
import Mathlib.Data.Prod.Lex

namespace Ledger

open Lib

def openAccount (draws : Draws) (req : CreateAccountRequest) (record : IdempotencyKey) :
    App (IdempotencyKey × Outcome) := do
  perform (.insertAccount draws.first req.initialBalance.value req.initialBalance.value)
  let account ← perform (.refreshAccount draws.first)
  let body := Body.account
    { id := account.id
      balance := serializeMoney account.balance.toDecimal
      createdAt := account.createdAt }
  perform (.updateKey record.key account.id 201 body)
  pure ({ record with
      resourceId := some account.id
      responseStatus := some 201
      responseBody := some body },
    { statusCode := 201, body := some body, replayed := false })

def createAccount (sha256 : String → String) (draws : Draws) (key : String)
    (req : CreateAccountRequest) : App Outcome :=
  executeOnce key .createAccount (fingerprint sha256 (.account req)) (openAccount draws req)

def maxTransactions : Nat := 100

def getAccount (t : Tables) (accountId : Uuid) : Except LedgerError Account :=
  match t.account? accountId with
  | none => .error (.accountNotFound accountId)
  | some account => .ok account

/-- `mine JOIN theirs`, for the entries `mine` of one account. -/
def selfJoin (entries : List LedgerEntry) (accountId : Uuid) : List (LedgerEntry × LedgerEntry) :=
  (entries.filter (·.accountId = accountId)).flatMap fun mine =>
    (entries.filter fun theirs => theirs.transferId = mine.transferId ∧ theirs.id ≠ mine.id).map
      fun theirs => (mine, theirs)

/-- `mine.created_at, mine.id` -/
def sortKey (row : LedgerEntry × LedgerEntry) : Timestamp ×ₗ Uuid :=
  toLex (row.1.createdAt, row.1.id)

def transactionRows (t : Tables) (accountId : Uuid) : List (LedgerEntry × LedgerEntry) :=
  Rows.orderByDesc sortKey (selfJoin t.ledgerEntries accountId)

def transactionItem : LedgerEntry × LedgerEntry → TransactionItem
  | (mine, theirs) =>
    { transferId := mine.transferId
      amount := mine.amount.toDecimal
      direction := if mine.amount.toDecimal.lt ⟨false, 0, 0⟩ then .debit else .credit
      counterpartyAccountId := theirs.accountId
      createdAt := mine.createdAt }

def listTransactions (t : Tables) (accountId : Uuid) :
    Except LedgerError (List TransactionItem) := do
  let _ ← getAccount t accountId
  pure (((transactionRows t accountId).take maxTransactions).map transactionItem)

end Ledger
