import Ledger.Lib.Decimal
import Mathlib.Data.List.Sort

namespace Ledger

open Lib

/-- The endpoint a key was consumed by. -/
inductive Operation
  | createTransfer
  | createAccount
  deriving DecidableEq

def Operation.text : Operation → String
  | .createTransfer => "create_transfer"
  | .createAccount => "create_account"

abbrev Uuid := Fin (2 ^ 128)

instance (priority := 2000) Uuid.instNeZero : NeZero (2 ^ 128 : Nat) := ⟨by decide⟩

def hexDigits (n : Nat) : List Char :=
  (List.range 32).reverse.map fun i => Nat.digitChar (n / 16 ^ i % 16)

/-- The canonical text of a UUID: five groups of hexadecimal digits. -/
def Uuid.text (u : Uuid) : String :=
  let digits := hexDigits u.val
  String.ofList (digits.take 8 ++ '-' :: (digits.drop 8).take 4 ++ '-' :: (digits.drop 12).take 4 ++
    '-' :: (digits.drop 16).take 4 ++ '-' :: digits.drop 20)

/-- A strictly positive amount of at most 20 digits, 4 of them decimal places. -/
structure PositiveMoney where
  value : Decimal
  decimalPlaces : value.Multiple 4
  maxDigits : (value.units 4).natAbs < 10 ^ 20
  positive : 0 < value.units 4

/-- A parsed amount, if it keeps to the documented bounds of the field.  The digits counted are
those of the exact value; an implementation that first rounds it to 28 of them accepts more. -/
def PositiveMoney.validate (value : Decimal) : Option PositiveMoney :=
  if h : value.Multiple 4 ∧ (value.units 4).natAbs < 10 ^ 20 ∧ 0 < value.units 4 then
    some ⟨value, h.1, h.2.1, h.2.2⟩
  else none

/-- Zero is a legitimate opening balance. -/
structure NonNegativeMoney where
  value : Decimal
  decimalPlaces : value.Multiple 4
  maxDigits : (value.units 4).natAbs < 10 ^ 20
  nonNegative : 0 ≤ value.units 4

def NonNegativeMoney.zero : NonNegativeMoney := ⟨⟨false, 0, 0⟩, by decide, by decide, by decide⟩

/-- Every money field renders with four places, whatever scale the client sent. -/
def serializeMoney (v : Decimal) : String := v.format 4

structure CreateAccountRequest where
  initialBalance : NonNegativeMoney := .zero

structure TransferRequest where
  fromAccountId : Uuid
  toAccountId : Uuid
  amount : PositiveMoney

structure AccountResponse where
  id : Uuid
  balance : String
  createdAt : Nat
  deriving DecidableEq

structure TransferResponse where
  transferId : Uuid
  fromAccountId : Uuid
  toAccountId : Uuid
  amount : String
  createdAt : Nat
  deriving DecidableEq

inductive Direction
  | debit
  | credit
  deriving DecidableEq

/-- One account's view of a transfer, signed from its own perspective. -/
structure TransactionItem where
  transferId : Uuid
  amount : Decimal
  direction : Direction
  counterpartyAccountId : Uuid
  createdAt : Nat
  deriving DecidableEq

/-- The JSON object an endpoint answers with, as it is stored on the key row. -/
inductive Body
  | account : AccountResponse → Body
  | transfer : TransferResponse → Body
  deriving DecidableEq

inductive Payload
  | account : CreateAccountRequest → Payload
  | transfer : TransferRequest → Payload

def Payload.operation : Payload → Operation
  | .account _ => .createAccount
  | .transfer _ => .createTransfer

def Payload.modelDump : Payload → List (String × String)
  | .account req => [("initial_balance", serializeMoney req.initialBalance.value)]
  | .transfer req =>
    [("from_account_id", req.fromAccountId.text), ("to_account_id", req.toAccountId.text),
      ("amount", serializeMoney req.amount.value)]

def jsonFields : List (String × String) → String
  | [] => ""
  | [(name, value)] => "\"" ++ name ++ "\":\"" ++ value ++ "\""
  | (name, value) :: rest => "\"" ++ name ++ "\":\"" ++ value ++ "\"," ++ jsonFields rest

def jsonDumps (fields : List (String × String)) : String :=
  "\x7b" ++ jsonFields (fields.insertionSort fun a b => a.1 ≤ b.1) ++ "\x7d"

def Payload.canonical (req : Payload) : String := jsonDumps req.modelDump

def fingerprint (sha256 : String → String) (req : Payload) : String := sha256 req.canonical

end Ledger
