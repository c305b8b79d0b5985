import Ledger.Accounts
import Ledger.Transfers

namespace Ledger

open Lib

/-- What reaches the client. -/
inductive Response
  | outcome (o : Outcome)
  /-- an error envelope, and whether it carries `Retry-After` -/
  | envelope (error : LedgerError) (retryAfter : Bool)
  /-- the server's bare 500, when the catch-all handler itself fails -/
  | plainText
  /-- the process died before it answered -/
  | lost
  deriving DecidableEq

/-- The exception handlers around every endpoint. -/
def handleException : Exn → App Response
  | .ledger error => pure (.envelope error error.retryable)
  | e =>
    Prog.tryExcept
      (do
        perform (.log (.unhandledError e))
        pure (.envelope .unexpected false))
      fun _ => pure .plainText

def respond (endpoint : App Outcome) : App Response :=
  endpoint.attempt.bind fun
    | .ok outcome => pure (.outcome outcome)
    | .error e => handleException e

/-- `POST /transfers` and `POST /accounts` with a validated body. -/
def endpoint (sha256 : String → String) (job : Job) : App Outcome :=
  match requireKey job.request.idempotencyKey with
  | .error e => .raise (.ledger e)
  | .ok key =>
    match job.request.payload with
    | .transfer req => executeTransfer sha256 job.draws key req
    | .account req => createAccount sha256 job.draws key req

def serveRequest (sha256 : String → String) (job : Job) : App Response :=
  respond (endpoint sha256 job)

end Ledger
