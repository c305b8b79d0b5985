import Ledger.Schemas

namespace Ledger

inductive ErrorType
  | accountNotFound
  | insufficientFunds
  | sameAccountTransfer
  | idempotencyKeyConflict
  | lockTimeout
  | missingIdempotencyKey
  | invalidIdempotencyKey
  | amountOutOfRange
  | internalError
  /-- documentation only, never raised by hand -/
  | validationFailed
  deriving DecidableEq

namespace ErrorType

def statusCode : ErrorType → Nat
  | accountNotFound => 404
  | insufficientFunds => 422
  | sameAccountTransfer => 400
  | idempotencyKeyConflict => 409
  | lockTimeout => 503
  | missingIdempotencyKey => 400
  | invalidIdempotencyKey => 400
  | amountOutOfRange => 422
  | internalError => 500
  | validationFailed => 422

def code : ErrorType → String
  | accountNotFound => "ACCOUNT_NOT_FOUND"
  | insufficientFunds => "INSUFFICIENT_FUNDS"
  | sameAccountTransfer => "SAME_ACCOUNT_TRANSFER"
  | idempotencyKeyConflict => "IDEMPOTENCY_KEY_CONFLICT"
  | lockTimeout => "LOCK_TIMEOUT"
  | missingIdempotencyKey => "IDEMPOTENCY_KEY_REQUIRED"
  | invalidIdempotencyKey => "IDEMPOTENCY_KEY_INVALID"
  | amountOutOfRange => "AMOUNT_OUT_OF_RANGE"
  | internalError => "INTERNAL_ERROR"
  | validationFailed => "VALIDATION_ERROR"

def summary : ErrorType → String
  | accountNotFound => "No account exists with the given id."
  | insufficientFunds =>
    "The source account's balance is lower than the requested amount. " ++
    "Nothing was moved and the idempotency key was not consumed, so the same " ++
    "request may be retried once the account is funded."
  | sameAccountTransfer => "Source and destination are the same account."
  | idempotencyKeyConflict =>
    "This Idempotency-Key was already used for a request with a different body. " ++
    "Use a fresh key for a different request."
  | lockTimeout =>
    "The accounts were locked by other transfers for longer than the configured " ++
    "lock timeout. No money moved. Safe to retry with the SAME idempotency key."
  | missingIdempotencyKey => "The Idempotency-Key header is missing or blank."
  | invalidIdempotencyKey => "The Idempotency-Key header is longer than 255 characters."
  | amountOutOfRange =>
    "The resulting balance would exceed the maximum the ledger can represent. " ++
    "Nothing was moved and the idempotency key was not consumed."
  | internalError => "An unexpected internal error occurred. The request was not applied."
  | validationFailed => "The request body or a path parameter failed schema validation."

@[simp] def retryable : ErrorType → Bool
  | lockTimeout => true
  | internalError => true
  | _ => false

end ErrorType

inductive LedgerError
  | accountNotFound (accountId : Uuid)
  | insufficientFunds (accountId : Uuid) (balance requested : String)
  | sameAccountTransfer
  | idempotencyKeyConflict (key : String) (operation : Operation)
  | lockTimeout (message : String)
  | missingIdempotencyKey
  | invalidIdempotencyKey (length : Nat)
  | amountOutOfRange
  | internalError (message : String)
  deriving DecidableEq

inductive Detail
  | text : String → Detail
  | number : Nat → Detail
  deriving DecidableEq

/-- What stands under `error`. -/
structure ErrorBody where
  code : String
  message : String
  details : Option (List (String × Detail))

/-- Matches the width of the key column. -/
def maxKeyLength : Nat := 255

namespace LedgerError

@[simp] def errorType : LedgerError → ErrorType
  | accountNotFound _ => .accountNotFound
  | insufficientFunds .. => .insufficientFunds
  | sameAccountTransfer => .sameAccountTransfer
  | idempotencyKeyConflict .. => .idempotencyKeyConflict
  | lockTimeout _ => .lockTimeout
  | missingIdempotencyKey => .missingIdempotencyKey
  | invalidIdempotencyKey _ => .invalidIdempotencyKey
  | amountOutOfRange => .amountOutOfRange
  | internalError _ => .internalError

def statusCode (error : LedgerError) : Nat := error.errorType.statusCode

def retryable (error : LedgerError) : Bool := error.errorType.retryable

def message : LedgerError → String
  | accountNotFound _ => "Account does not exist."
  | insufficientFunds .. => "Source account has insufficient funds."
  | sameAccountTransfer => "Cannot transfer to the same account."
  | idempotencyKeyConflict .. => "This idempotency key was already used for a different request."
  | lockTimeout message => message
  | missingIdempotencyKey => "The Idempotency-Key header is required."
  | invalidIdempotencyKey _ =>
    "The Idempotency-Key header must be at most " ++ toString maxKeyLength ++ " characters."
  | amountOutOfRange => "The resulting balance would exceed the maximum the ledger can represent."
  | internalError message => message

def details : LedgerError → List (String × Detail)
  | accountNotFound accountId => [("account_id", .text accountId.text)]
  | insufficientFunds accountId balance requested =>
    [("account_id", .text accountId.text), ("balance", .text balance),
      ("requested", .text requested)]
  | idempotencyKeyConflict key operation =>
    [("idempotency_key", .text key), ("operation", .text operation.text)]
  | invalidIdempotencyKey length =>
    [("length", .number length), ("max_length", .number maxKeyLength)]
  | _ => []

def body (error : LedgerError) : ErrorBody where
  code := error.errorType.code
  message := error.message
  details := if error.details.isEmpty then none else some error.details

/-- `Resource is busy` after a lock wait that gave up, `Transient contention` after
a deadlock. -/
def busy : LedgerError := lockTimeout "Resource is busy, retry with the same idempotency key."

def contention : LedgerError := lockTimeout "Transient contention, retry with the same key."

def vanished : LedgerError :=
  internalError "Idempotency record vanished during a concurrent retry."

def unexpected : LedgerError :=
  internalError "An unexpected error occurred. The request was not applied."

end LedgerError

/-- The PostgreSQL errors that the application names, and those that its schema raises. -/
inductive SqlState
  | uniqueViolation -- 23505
  | lockNotAvailable -- 55P03
  | deadlockDetected -- 40P01
  | numericOutOfRange -- 22003
  | checkViolation -- 23514
  | foreignKeyViolation -- 23503
  deriving DecidableEq

/-- What travels up the Python stack: a domain error, one of the three database
error classes with its sqlstate if it has one, or anything else. -/
inductive Exn
  | ledger (error : LedgerError)
  | integrity (state : Option SqlState)
  | data (state : Option SqlState)
  | operational (state : Option SqlState)
  | other
  deriving DecidableEq

end Ledger
