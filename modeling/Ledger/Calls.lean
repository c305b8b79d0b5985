import Ledger.Stages
import Ledger.Lib.Budget

namespace Ledger

open Lib

def Job.Names (job : Job) (id : Uuid) : Prop :=
  ∃ req, job.request.payload = .transfer req ∧ (id = req.fromAccountId ∨ id = req.toAccountId)

def Job.Makes (job : Job) : Call → Prop
  | .getKey key => key = job.key
  | .insertKey row => row.key = job.key
  | .lockAccount id => job.Names id
  | .insertAccount id _ _ => id = job.draws.first ∧ ∃ req, job.request.payload = .account req
  | _ => True

abbrev AtMost {α : Type} (job : Job) (app : App α) (n : Nat) : Prop := Prog.AtMost job.Makes app n

theorem AtMost.perform {job : Job} (c : Call) (makes : job.Makes c) :
    AtMost job (perform c) 1 :=
  Prog.AtMost.perform makes

variable {job : Job} {operation : Operation} {requestHash : String}

theorem replay_atMost (record : IdempotencyKey) (raced : Bool) :
    AtMost job (replay record operation requestHash raced) 1 := by
  unfold replay
  split
  · exact trivial
  · exact (AtMost.perform _ (by trivial)).bind (n := 0) fun _ => trivial

theorem lockInTurn_atMost {ids : List Uuid} (names : ∀ id ∈ ids, job.Names id) :
    AtMost job (lockInTurn ids) ids.length := by
  induction ids with
  | nil => exact trivial
  | cons id ids ih =>
    have lock : AtMost job (perform (.lockAccount id)) 1 := .perform _ (names id (by simp))
    rw [List.length_cons, Nat.add_comm]
    refine lock.bind fun row => ?_
    cases row with
    | none => exact trivial
    | some account =>
      exact (ih fun id hid => names id (List.mem_cons_of_mem _ hid)).bind (n := 0) fun _ => trivial

theorem lockAccounts_atMost {ids : List Uuid} (names : ∀ id ∈ ids, job.Names id) :
    AtMost job (lockAccounts ids) ids.length := by
  rw [← List.length_insertionSort (· ≤ ·) ids]
  exact lockInTurn_atMost fun id hid => names id ((List.mem_insertionSort _).mp hid)

theorem item_atMost (accounts : List (Uuid × Account)) (id : Uuid) :
    AtMost job (item accounts id) 0 := by
  unfold item
  split <;> exact trivial

theorem flushTransfer_atMost (draws : Draws) (source destination : Account)
    (sourceBalance destinationBalance amount : Decimal) (key : String) (body : Body) :
    AtMost job
      (flushTransfer draws source destination sourceBalance destinationBalance amount key body) 5 :=
  (AtMost.perform _ (by trivial)).bind (n := 4) fun _ =>
    (AtMost.perform _ (by trivial)).bind (n := 3) fun _ =>
      (AtMost.perform _ (by trivial)).bind (n := 2) fun _ =>
        (AtMost.perform _ (by trivial)).bind (n := 1) fun _ => AtMost.perform _ (by trivial)

theorem moveMoney_atMost {req : TransferRequest} (hreq : job.request.payload = .transfer req)
    (draws : Draws) (record : IdempotencyKey) : AtMost job (moveMoney draws req record) 8 := by
  have names : ∀ id ∈ [req.fromAccountId, req.toAccountId], job.Names id :=
    fun id hid => ⟨req, hreq, by simpa using hid⟩
  refine (lockAccounts_atMost names).bind (n := 0 + (0 + 6)) fun accounts =>
    (item_atMost accounts _).bind fun source => (item_atMost accounts _).bind fun destination => ?_
  split
  · exact trivial
  · refine (AtMost.perform _ (by trivial)).bind (n := 5) fun createdAt => ?_
    exact (flushTransfer_atMost _ _ _ _ _ _ _ _).bind (n := 0) fun _ => trivial

theorem openAccount_atMost {req : CreateAccountRequest} (hreq : job.request.payload = .account req)
    (record : IdempotencyKey) : AtMost job (openAccount job.draws req record) 3 := by
  have insert (balance openingBalance : Decimal) :
      AtMost job (perform (.insertAccount job.draws.first balance openingBalance)) 1 :=
    .perform _ ⟨rfl, req, hreq⟩
  exact (insert _ _).bind (n := 2) fun _ => (AtMost.perform _ (by trivial)).bind (n := 1) fun _ =>
    (AtMost.perform _ (by trivial)).bind (n := 0) fun _ => trivial

theorem logTransfer_atMost (draws : Draws) (key : String) (req : TransferRequest)
    (outcome : Outcome) : AtMost job (logTransfer draws key req outcome) 1 := by
  unfold logTransfer
  split
  · exact trivial
  · exact (AtMost.perform _ (by trivial)).bind (n := 0) fun _ => trivial

theorem getKey_atMost : AtMost job (perform (.getKey job.key)) 1 := .perform _ rfl

theorem fastPath_atMost : AtMost job (fastPath job.key operation requestHash) 3 := by
  refine Prog.AtMost.tryFinally (m := 2) (getKey_atMost.bind (n := 1) fun existing => ?_)
    (AtMost.perform _ (by trivial))
  cases existing with
  | none => exact trivial
  | some existing => exact (replay_atMost _ _).bind (n := 0) fun _ => trivial

theorem claimAndPerform_atMost {work : IdempotencyKey → App (IdempotencyKey × Outcome)} {n : Nat}
    (h : ∀ record, AtMost job (work record) n) :
    AtMost job (claimAndPerform job.key operation requestHash work) (n + 3) := by
  have claim : AtMost job (perform (.insertKey { key := job.key, operation, requestHash })) 1 :=
    .perform _ rfl
  refine Prog.AtMost.mono (m := 1 + (n + (1 + 1))) ?_ (by omega)
  exact claim.bind fun _ => (h _).bind fun _ => (AtMost.perform _ (by trivial)).bind fun _ =>
    (AtMost.perform _ (by trivial)).bind (n := 0) fun _ => trivial

theorem replayWinner_atMost : AtMost job (replayWinner job.key operation requestHash) 2 := by
  refine getKey_atMost.bind (n := 1) fun winner => ?_
  cases winner with
  | none => exact (AtMost.perform _ (by trivial)).bind (n := 0) fun _ => trivial
  | some winner => exact replay_atMost _ _

theorem reported_atMost {α : Type} {line : LogLine} (e : Exn) :
    AtMost job (((perform (.log line)).bind fun _ => .raise e) : App α) 2 :=
  (AtMost.perform _ (by trivial)).bind (n := 1) fun _ => trivial

theorem onException_atMost (e : Exn) :
    AtMost job (onException job.key operation requestHash e) 3 := by
  cases e with
  | integrity state =>
    refine (AtMost.perform _ (by trivial)).bind (n := 2) fun _ => ?_
    split
    · exact trivial
    · exact replayWinner_atMost
  | data state =>
    refine (AtMost.perform _ (by trivial)).bind (n := 2) fun _ => ?_
    split
    · exact trivial
    · exact reported_atMost _
  | operational state =>
    refine (AtMost.perform _ (by trivial)).bind (n := 2) fun _ => ?_
    split
    · exact reported_atMost _
    · split
      · exact reported_atMost _
      · exact trivial
  | ledger error => exact (AtMost.perform _ (by trivial)).bind (n := 2) fun _ => trivial
  | other => exact (AtMost.perform _ (by trivial)).bind (n := 2) fun _ => trivial

theorem executeOnce_atMost {work : IdempotencyKey → App (IdempotencyKey × Outcome)} {n : Nat}
    (h : ∀ record, AtMost job (work record) n) :
    AtMost job (executeOnce job.key operation requestHash work) (n + 9) := by
  refine Prog.AtMost.mono (m := 3 + (n + 3 + 3)) ?_ (by omega)
  refine fastPath_atMost.bind fun replayed => ?_
  cases replayed with
  | some outcome => exact trivial
  | none => exact (claimAndPerform_atMost h).tryExcept onException_atMost

theorem endpoint_atMost (sha256 : String → String) (job : Job) :
    AtMost job (endpoint sha256 job) 18 := by
  unfold endpoint
  split
  · exact trivial
  · next key hk =>
    obtain rfl : job.key = key := by simp [Job.key, hk, Except.toOption]
    split
    · next req hreq =>
      unfold executeTransfer
      split
      · exact trivial
      · exact (executeOnce_atMost fun record => moveMoney_atMost hreq _ record).bind (n := 1)
          fun _ => logTransfer_atMost _ _ _ _
    · next req hreq =>
      exact (executeOnce_atMost fun record => openAccount_atMost hreq record).mono (by omega)

theorem handleException_atMost (e : Exn) : AtMost job (handleException e) 1 := by
  have reported {line : LogLine} {a b : Response} : AtMost job
      (((perform (.log line)).bind fun _ => .pure a).tryExcept fun _ => .pure b) 1 := by
    refine Prog.AtMost.tryExcept (m := 1) (n := 0) ?_ fun _ => trivial
    exact (AtMost.perform _ (by trivial)).bind (n := 0) fun _ => trivial
  cases e with
  | ledger error => exact trivial
  | _ => exact reported

theorem respond_atMost {app : App Outcome} {n : Nat} (h : AtMost job app n) :
    AtMost job (respond app) (n + 1) := by
  refine h.attempt_bind fun result => ?_
  cases result with
  | ok outcome => exact trivial
  | error e => exact handleException_atMost e

theorem serveRequest_atMost (sha256 : String → String) (job : Job) :
    AtMost job (serveRequest sha256 job) 19 :=
  respond_atMost (endpoint_atMost sha256 job)

theorem Job.work_atMost (job : Job) (record : IdempotencyKey) : AtMost job (job.work record) 8 := by
  unfold Job.work
  cases hreq : job.request.payload with
  | transfer req => exact moveMoney_atMost hreq _ _
  | account req => exact (openAccount_atMost hreq _).mono (by omega)

theorem Job.finish_atMost {body : App Outcome} {n : Nat} (h : AtMost job body n) :
    AtMost job (job.finish body) (n + 2) := by
  unfold Job.finish
  split
  · exact respond_atMost (h.bind fun _ => logTransfer_atMost _ _ _ _)
  · exact (respond_atMost h).mono (by omega)

theorem Job.claimed_atMost (sha256 : String → String) (job : Job) :
    AtMost job (job.claimed sha256) 15 := by
  refine finish_atMost (n := 13) (Prog.AtMost.tryExcept (m := 10) ?_ onException_atMost)
  refine (job.work_atMost _).bind (n := 2) fun done => ?_
  exact (AtMost.perform _ (by trivial)).bind (n := 1) fun _ =>
    (AtMost.perform _ (by trivial)).bind (n := 0) fun _ => trivial

end Ledger
