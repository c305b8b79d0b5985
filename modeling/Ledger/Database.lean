import Ledger.Models
import Ledger.Lib.Interaction
import Ledger.Lib.Locks

namespace Ledger

open Lib

/-! What the application asks of its environment. -/

inductive LogLine
  | replayed (operation : Operation) (key : String) (resourceId : Option Uuid)
      (originalStatus : Option Nat) (raced : Bool)
  | committed (operation : Operation) (key : String) (resourceId : Option Uuid)
  | recordVanished (operation : Operation) (key : String)
  | valueOutOfRange (operation : Operation) (key : String)
  | lockTimeout (operation : Operation) (key : String)
  | deadlock (operation : Operation) (key : String)
  | transferCommitted (transferId : Option Uuid) (key : String) (fromAccountId toAccountId : Uuid)
      (amount : Decimal)
  | unhandledError (exn : Exn)

inductive Call
  | getKey (key : String)
  | insertKey (row : IdempotencyKey)
  | lockAccount (id : Uuid)
  | selectNow
  | updateBalance (id : Uuid) (balance : Decimal)
  | insertEntry (id transferId accountId : Uuid) (amount : Decimal)
  | insertAccount (id : Uuid) (balance openingBalance : Decimal)
  | refreshAccount (id : Uuid)
  | updateKey (key : String) (resourceId : Uuid) (responseStatus : Nat) (responseBody : Body)
  | commit
  | rollback
  | log (line : LogLine)

abbrev Call.Reply : Call → Type
  | .getKey _ => Option IdempotencyKey
  | .lockAccount _ => Option Account
  | .selectNow => Timestamp
  | .refreshAccount _ => Account
  | _ => Unit

abbrev App (α : Type) := Prog Call Call.Reply Exn α

abbrev perform (c : Call) : App c.Reply := Prog.perform c

/-! The database server. -/

inductive Resource
  | key (key : String)
  | account (id : Uuid)
  deriving DecidableEq

structure Tx where
  startedAt : Timestamp
  writes : List Write

/-- `broken` is a transaction the server has already undone: every statement up to the
rollback raises. -/
inductive Session
  | idle
  | active (tx : Tx)
  | broken

/-- What `uuid4()` gives the process that serves a request, in the order it asks. -/
structure Draws where
  first : Uuid
  second : Uuid
  third : Uuid
  deriving DecidableEq

def Draws.toList (d : Draws) : List Uuid := [d.first, d.second, d.third]

structure Request where
  idempotencyKey : Option String
  payload : Payload

structure Job where
  request : Request
  draws : Draws

/-- A transaction that took effect: whose it was and when it began. -/
structure Commit where
  owner : Nat
  job : Job
  startedAt : Timestamp

structure Server where
  committed : Tables
  locks : Locks Resource Nat
  clock : Timestamp
  history : List Commit

/-- What a call comes to, given the committed tables. -/
inductive Effect (α : Type)
  /-- nothing happens on the server -/
  | stay (reply : Except Exn α)
  | done (tx : Tx) (reply : Except Exn α)
  /-- as `done`, once the lock is taken -/
  | locked (x : Resource) (tx : Tx) (reply : α)
  /-- a failed statement undoes its whole transaction -/
  | failed (e : Exn)
  | committed (tx : Tx) (reply : α)
  | rolledBack (reply : α)

/-- The first statement opens a transaction, whose timestamp is `now()` from then on. -/
def inTx {α : Type} (clock : Timestamp) (session : Session) (body : Tx → Effect α) : Effect α :=
  match session with
  | .idle => body ⟨clock, []⟩
  | .active tx => body tx
  | .broken => .stay (.error (.operational none))

def Tx.write (tx : Tx) (write : Write) : Tx := { tx with writes := tx.writes ++ [write] }

namespace Tables

/-- The tables as a transaction sees them: the committed rows and its own writes. -/
def view (t : Tables) (tx : Tx) : Tables := t.after tx.writes

/-- The deferred trigger, once for each row the transaction inserted. -/
def checkDeferred (t : Tables) (tx : Tx) : Except Exn Unit :=
  (tx.writes.filterMap Write.leg?).forM (assertTransferConservesMoney (t.view tx).ledgerEntries)

def leg? (t : Tables) (id : Uuid) : Option LedgerEntry :=
  Rows.lookup LedgerEntry.id id t.ledgerEntries

def effect (t : Tables) (clock : Timestamp) (session : Session) : (c : Call) → Effect c.Reply
  | .getKey key => inTx clock session fun tx => .done tx (.ok ((t.view tx).key? key))
  | .insertKey row => inTx clock session fun tx =>
    if ((t.view tx).key? row.key).isSome then .failed (.integrity (some .uniqueViolation))
    else .locked (.key row.key) (tx.write (.insertKey row)) ()
  | .lockAccount id => inTx clock session fun tx =>
    match (t.view tx).account? id with
    | none => .done tx (.ok none)
    | some row => .locked (.account id) tx (some row)
  | .selectNow => inTx clock session fun tx => .done tx (.ok tx.startedAt)
  | .updateBalance id balance => inTx clock session fun tx =>
    if ((t.view tx).account? id).isNone then .failed .other
    else
      match Balance.ofDecimal balance with
      | .error e => .failed e
      | .ok balance => .locked (.account id) (tx.write (.updateBalance id balance)) ()
  | .insertEntry id transferId accountId amount => inTx clock session fun tx =>
    match Amount.ofDecimal amount with
    | .error e => .failed e
    | .ok amount =>
      if ((t.view tx).leg? id).isSome then .failed (.integrity (some .uniqueViolation))
      else if ((t.view tx).account? accountId).isNone then
        .failed (.integrity (some .foreignKeyViolation))
      else
        .done (tx.write (.insertEntry ⟨id, transferId, accountId, amount, tx.startedAt⟩)) (.ok ())
  | .insertAccount id balance openingBalance => inTx clock session fun tx =>
    match Balance.ofDecimal balance, Balance.ofDecimal openingBalance with
    | .error e, _ => .failed e
    | _, .error e => .failed e
    | .ok balance, .ok openingBalance =>
      if ((t.view tx).account? id).isSome then .failed (.integrity (some .uniqueViolation))
      else
        .locked (.account id)
          (tx.write (.insertAccount ⟨id, balance, openingBalance, tx.startedAt⟩)) ()
  | .refreshAccount id => inTx clock session fun tx =>
    match (t.view tx).account? id with
    | none => .done tx (.error .other)
    | some row => .done tx (.ok row)
  | .updateKey key resourceId responseStatus responseBody => inTx clock session fun tx =>
    if ((t.view tx).key? key).isNone then .failed .other
    else .locked (.key key) (tx.write (.updateKey key resourceId responseStatus responseBody)) ()
  | .commit => inTx clock session fun tx =>
    match t.checkDeferred tx with
    | .error e => .failed e
    | .ok _ => .committed tx ()
  | .rollback => .rolledBack ()
  | .log _ => .stay (.ok ())

end Tables

namespace Server

def release (s : Server) (me : Nat) : Server := { s with locks := s.locks.release me }

/-- Carry out a call, or answer `none` while it has to wait for a lock. -/
def exec (s : Server) (me : Nat) (job : Job) (session : Session) (c : Call) :
    Option (Server × Session × Except Exn c.Reply) :=
  match s.committed.effect s.clock session c with
  | .stay reply => some (s, session, reply)
  | .done tx reply => some (s, .active tx, reply)
  | .locked x tx reply =>
    (s.locks.acquire me x).map fun locks => ({ s with locks }, .active tx, .ok reply)
  | .failed e => some (s.release me, .broken, .error e)
  | .committed tx reply => some
    ({ s.release me with
        committed := s.committed.view tx
        history := s.history ++ [⟨me, job, tx.startedAt⟩] }, .idle, .ok reply)
  | .rolledBack reply => some (s.release me, .idle, .ok reply)

end Server

end Ledger
