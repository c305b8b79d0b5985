import Ledger.Transfers
import Ledger.Accounts

namespace Ledger

open Lib

def Call.Plain : Call → Prop
  | .getKey _ | .log (.recordVanished _ _) => False
  | _ => True

def Exn.Plain : Exn → Prop
  | .ledger (.lockTimeout _) => False
  | .ledger _ | .other => True
  | _ => False

abbrev Plain {α : Type} (app : App α) : Prop := app.Straight Call.Plain Exn.Plain

theorem Plain.perform (c : Call) (plain : c.Plain := by exact trivial) : Plain (perform c) :=
  Prog.Straight.perform plain

theorem replay_plain (record : IdempotencyKey) (operation : Operation) (requestHash : String)
    (raced : Bool) : Plain (replay record operation requestHash raced) := by
  unfold replay
  split
  · exact trivial
  · exact (Plain.perform _).bind fun _ => trivial

theorem lockInTurn_plain (ids : List Uuid) : Plain (lockInTurn ids) := by
  induction ids with
  | nil => exact trivial
  | cons id ids ih =>
    refine (Plain.perform _).bind fun row => ?_
    cases row with
    | none => exact trivial
    | some account => exact ih.bind fun _ => trivial

theorem item_plain (accounts : List (Uuid × Account)) (id : Uuid) : Plain (item accounts id) := by
  unfold item
  split
  · exact trivial
  · exact trivial

theorem flushTransfer_plain (draws : Draws) (source destination : Account)
    (sourceBalance destinationBalance amount : Decimal) (key : String) (body : Body) :
    Plain (flushTransfer draws source destination sourceBalance destinationBalance amount key
      body) :=
  (Plain.perform _).bind fun _ => (Plain.perform _).bind fun _ => (Plain.perform _).bind fun _ =>
    (Plain.perform _).bind fun _ => Plain.perform _

theorem moveMoney_plain (draws : Draws) (req : TransferRequest) (record : IdempotencyKey) :
    Plain (moveMoney draws req record) := by
  refine (lockInTurn_plain _).bind fun accounts => (item_plain accounts _).bind fun source =>
    (item_plain accounts _).bind fun destination => ?_
  split
  · exact trivial
  · refine (Plain.perform _).bind fun createdAt => ?_
    exact (flushTransfer_plain _ _ _ _ _ _ _ _).bind fun _ => trivial

theorem openAccount_plain (draws : Draws) (req : CreateAccountRequest) (record : IdempotencyKey) :
    Plain (openAccount draws req record) :=
  (Plain.perform _).bind fun _ => (Plain.perform _).bind fun _ =>
    (Plain.perform _).bind fun _ => trivial

theorem logTransfer_plain (draws : Draws) (key : String) (req : TransferRequest)
    (outcome : Outcome) : Plain (logTransfer draws key req outcome) := by
  unfold logTransfer
  split
  · exact trivial
  · exact (Plain.perform _).bind fun _ => trivial

theorem claimAndPerform_plain (key : String) (operation : Operation) (requestHash : String)
    {work : IdempotencyKey → App (IdempotencyKey × Outcome)} (h : ∀ record, Plain (work record)) :
    Plain (claimAndPerform key operation requestHash work) :=
  (Plain.perform _).bind fun _ => (h _).bind fun _ => (Plain.perform _).bind fun _ =>
    (Plain.perform _).bind fun _ => trivial

end Ledger
