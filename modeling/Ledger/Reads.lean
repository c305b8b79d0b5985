import Ledger.Api
import Ledger.World

namespace Ledger

open Lib

inductive ReadCall
  /-- `db.get(Account, account_id)` -/
  | getAccount (accountId : Uuid)
  /-- the self-join of the ledger, newest first and capped -/
  | selectTransactions (accountId : Uuid)
  | log (line : LogLine)

abbrev ReadCall.Reply : ReadCall → Type
  | .getAccount _ => Option Account
  | .selectTransactions _ => List (LedgerEntry × LedgerEntry)
  | .log _ => Unit

abbrev ReadApp (α : Type) := Prog ReadCall ReadCall.Reply Exn α

structure BalanceResponse where
  accountId : Uuid
  balance : Decimal
  deriving DecidableEq

structure TransactionListResponse where
  accountId : Uuid
  items : List TransactionItem
  deriving DecidableEq

/-- The path of a `GET`, with the account id parsed. -/
inductive ReadRequest
  | balance (accountId : Uuid)
  | transactions (accountId : Uuid)

def ReadRequest.accountId : ReadRequest → Uuid
  | .balance accountId | .transactions accountId => accountId

inductive ReadResponse
  | balance (body : BalanceResponse)
  | transactions (body : TransactionListResponse)
  | envelope (error : LedgerError) (retryAfter : Bool)
  | plainText
  deriving DecidableEq

namespace ReadApp

abbrev perform (c : ReadCall) : ReadApp c.Reply := Prog.perform c

def getAccount (accountId : Uuid) : ReadApp Account := do
  match ← perform (.getAccount accountId) with
  | none => .raise (.ledger (.accountNotFound accountId))
  | some account => pure account

/-- 404 rather than an empty list for an unknown account. -/
def listTransactions (accountId : Uuid) : ReadApp (List TransactionItem) := do
  let _ ← getAccount accountId
  let rows ← perform (.selectTransactions accountId)
  pure (rows.map transactionItem)

def endpoint : ReadRequest → ReadApp ReadResponse
  | .balance accountId => do
    let account ← getAccount accountId
    pure (.balance ⟨account.id, account.balance.toDecimal⟩)
  | .transactions accountId => do
    let items ← listTransactions accountId
    pure (.transactions ⟨accountId, items⟩)

def handleException : Exn → ReadApp ReadResponse
  | .ledger error => pure (.envelope error error.retryable)
  | e =>
    Prog.tryExcept
      (do
        perform (.log (.unhandledError e))
        pure (.envelope .unexpected false))
      fun _ => pure .plainText

def serve (request : ReadRequest) : ReadApp ReadResponse :=
  (endpoint request).attempt.bind fun
    | .ok response => pure response
    | .error e => handleException e

end ReadApp

def Tables.read (t : Tables) : (c : ReadCall) → c.Reply
  | .getAccount accountId => t.account? accountId
  | .selectTransactions accountId => (transactionRows t accountId).take maxTransactions
  | .log _ => ()

def Tables.readAtOnce (t : Tables) (request : ReadRequest) : Except Exn ReadResponse :=
  ((ReadApp.serve request).drive (fun t c => (t, .ok (t.read c))) t).2

section alone

variable (t : Tables) (accountId : Uuid)

theorem Tables.readAtOnce_balance : t.readAtOnce (.balance accountId) = .ok
    (match Ledger.getAccount t accountId with
      | .error e => .envelope e e.retryable
      | .ok account => .balance ⟨account.id, account.balance.toDecimal⟩) := by
  unfold Ledger.getAccount
  cases h : t.account? accountId with
  | none => simp [readAtOnce, ReadApp.serve, ReadApp.endpoint, ReadApp.getAccount,
      ReadApp.handleException, Prog.drive, read, h]
  | some account => simp [readAtOnce, ReadApp.serve, ReadApp.endpoint, ReadApp.getAccount,
      Prog.drive, read, h]

theorem Tables.readAtOnce_transactions : t.readAtOnce (.transactions accountId) = .ok
    (match Ledger.listTransactions t accountId with
      | .error e => .envelope e e.retryable
      | .ok items => .transactions ⟨accountId, items⟩) := by
  unfold Ledger.listTransactions Ledger.getAccount
  cases h : t.account? accountId with
  | none => simp [readAtOnce, ReadApp.serve, ReadApp.endpoint, ReadApp.listTransactions,
      ReadApp.getAccount, ReadApp.handleException, Prog.drive, read, h, bind, Except.bind]
  | some account => simp [readAtOnce, ReadApp.serve, ReadApp.endpoint, ReadApp.listTransactions,
      ReadApp.getAccount, Prog.drive, read, h, bind, Except.bind, pure, Except.pure]

end alone

def ReadRequest.found (t : Tables) (account : Account) : ReadRequest → ReadResponse
  | .balance _ => .balance ⟨account.id, account.balance.toDecimal⟩
  | .transactions accountId => .transactions
      ⟨accountId, ((transactionRows t accountId).take maxTransactions).map transactionItem⟩

theorem Tables.readAtOnce_eq (t : Tables) (request : ReadRequest) :
    t.readAtOnce request = .ok (match t.account? request.accountId with
      | none => .envelope (.accountNotFound request.accountId) false
      | some account => request.found t account) := by
  cases request with
  | balance accountId =>
    rw [readAtOnce_balance, ReadRequest.accountId, Ledger.getAccount]
    cases t.account? accountId <;> rfl
  | transactions accountId =>
    rw [readAtOnce_transactions, ReadRequest.accountId, Ledger.listTransactions, Ledger.getAccount]
    cases t.account? accountId <;> rfl

structure Reader where
  request : ReadRequest
  prog : ReadApp ReadResponse

/-- Everything that clients and servers do. -/
structure Site where
  world : World
  reader : Nat → Option Reader

inductive SiteEvent
  | write (e : Event)
  | arrive (q : Nat) (request : ReadRequest)
  | serve (q : Nat)
  | fail (q : Nat) (fault : Fault)

namespace Site

def init : Site := { world := .init, reader := fun _ => none }

abbrev tables (s : Site) : Tables := s.world.server.committed

def put (s : Site) (q : Nat) (reader : Reader) : Site :=
  { s with reader := Function.update s.reader q (some reader) }

@[simp] theorem put_world (s : Site) (q : Nat) (reader : Reader) :
    (s.put q reader).world = s.world := rfl

@[simp] theorem put_self (s : Site) (q : Nat) (reader : Reader) :
    (s.put q reader).reader q = some reader := Function.update_self ..

theorem put_other (s : Site) {q q' : Nat} (reader : Reader) (h : q ≠ q') :
    (s.put q' reader).reader q = s.reader q := Function.update_of_ne h ..

def call (s : Site) (q : Nat) (reply : (c : ReadCall) → Except Exn c.Reply) : Option Site :=
  match s.reader q with
  | some ⟨request, .call c k⟩ => some (s.put q ⟨request, k (reply c)⟩)
  | _ => none

def step (app : Job → App Response) (s : Site) : SiteEvent → Option Site
  | .write e => (s.world.step app e).map fun world => { s with world }
  | .arrive q request =>
    if (s.reader q).isNone then some (s.put q ⟨request, ReadApp.serve request⟩) else none
  | .serve q => s.call q fun c => .ok (s.world.server.committed.read c)
  | .fail q fault => s.call q fun _ => .error fault.exn

def readAnswer (s : Site) (q : Nat) : Option ReadResponse :=
  (s.reader q).bind fun reader =>
    match reader.prog with
    | .pure a => some a
    | _ => none

end Site

end Ledger
