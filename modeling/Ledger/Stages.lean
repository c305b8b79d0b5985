import Ledger.World
import Mathlib.Order.WithBot
import Mathlib.Order.Fin.Basic

namespace Ledger

open Lib

namespace Job

def key (job : Job) : String := (requireKey job.request.idempotencyKey).toOption.getD ""

def operation (job : Job) : Operation := job.request.payload.operation

def work (job : Job) : IdempotencyKey → App (IdempotencyKey × Outcome) :=
  match job.request.payload with
  | .transfer req => moveMoney job.draws req
  | .account req => openAccount job.draws req

def finish (job : Job) (body : App Outcome) : App Response :=
  match job.request.payload with
  | .transfer req => respond (body.bind (logTransfer job.draws job.key req))
  | .account _ => respond body

def conclude (job : Job) (done : IdempotencyKey × Outcome) : App Outcome :=
  (perform .commit).bind fun _ =>
    (perform (.log (.committed job.operation job.key done.1.resourceId))).bind fun _ => .pure done.2

section shapes

variable (sha256 : String → String) (job : Job)

def requestHash : String := fingerprint sha256 job.request.payload

def record : IdempotencyKey :=
  { key := job.key, operation := job.operation, requestHash := job.requestHash sha256 }

def failing (e : Exn) : App Response :=
  job.finish (onException job.key job.operation (job.requestHash sha256) e)

/-- A part of the write transaction, with everything that comes after it. -/
def attempt (body : App Outcome) : App Response :=
  job.finish (body.tryExcept (onException job.key job.operation (job.requestHash sha256)))

def claim : App Response :=
  job.attempt sha256 (claimAndPerform job.key job.operation (job.requestHash sha256) job.work)

def claimed : App Response :=
  job.attempt sha256 ((job.work (job.record sha256)).bind job.conclude)

def missed : App Response :=
  .call .rollback fun
    | .ok _ => job.claim sha256
    | .error e => handleException e

def reread : App Response :=
  job.finish (replayWinner job.key job.operation (job.requestHash sha256))

def replayed (row : IdempotencyKey) : Response :=
  if row.operation ≠ job.operation ∨ row.requestHash ≠ job.requestHash sha256 then
    .envelope (.idempotencyKeyConflict row.key row.operation) false
  else .outcome { statusCode := 200, body := row.responseBody, replayed := true }

end shapes

structure Admitted (job : Job) : Prop where
  key : requireKey job.request.idempotencyKey = .ok job.key
  distinct : ∀ req, job.request.payload = .transfer req → req.fromAccountId ≠ req.toAccountId

end Job

variable {sha256 : String → String} {job : Job}

theorem serveRequest_of_admitted (h : job.Admitted) : serveRequest sha256 job =
    job.finish (executeOnce job.key job.operation (job.requestHash sha256) job.work) := by
  unfold serveRequest endpoint Job.finish Job.operation Job.requestHash Job.work
  rw [h.key]
  cases hp : job.request.payload with
  | transfer req => simp [executeTransfer, h.distinct req hp, Payload.operation]
  | account req => rfl

theorem requireKey_error {raw : Option String} {e : LedgerError} (h : requireKey raw = .error e) :
    e = .missingIdempotencyKey ∨ ∃ length, e = .invalidIdempotencyKey length := by
  unfold requireKey at h
  cases raw with
  | none =>
    cases h
    exact .inl rfl
  | some raw =>
    dsimp only at h
    split at h
    · cases h
      exact .inl rfl
    · split at h
      · cases h
        exact .inr ⟨_, rfl⟩
      · cases h

def LedgerError.Early (e : LedgerError) : Prop :=
  e = .sameAccountTransfer ∨ e = .missingIdempotencyKey ∨
    ∃ length, e = .invalidIdempotencyKey length

theorem serveRequest_of_not_admitted (sha256 : String → String) (h : ¬ job.Admitted) :
    ∃ e, serveRequest sha256 job = .pure (.envelope e false) ∧ e.Early := by
  unfold serveRequest endpoint
  cases hk : requireKey job.request.idempotencyKey with
  | error e =>
    refine ⟨e, ?_, .inr (requireKey_error hk)⟩
    rcases requireKey_error hk with rfl | ⟨length, rfl⟩ <;> rfl
  | ok key =>
    have hkey : key = job.key := by simp [Job.key, hk, Except.toOption]
    cases hp : job.request.payload with
    | account req =>
      refine (h ⟨hkey ▸ hk, fun req hreq => ?_⟩).elim
      rw [hp] at hreq
      cases hreq
    | transfer req =>
      by_cases hd : req.fromAccountId = req.toAccountId
      · exact ⟨.sameAccountTransfer, by simp [executeTransfer, hd, respond, handleException,
          LedgerError.retryable], .inl rfl⟩
      · refine (h ⟨hkey ▸ hk, fun req' hreq => ?_⟩).elim
        rw [hp] at hreq
        cases hreq
        exact hd

namespace Job

@[simp] theorem finish_call (c : Call) (k : Except Exn c.Reply → App Outcome) :
    job.finish (.call c k) = .call c fun reply => job.finish (k reply) := by
  unfold finish
  cases job.request.payload <;> rfl

@[simp] theorem finish_raise (e : Exn) : job.finish (.raise e) = handleException e := by
  unfold finish
  cases job.request.payload <;> rfl

@[simp] theorem attempt_call (c : Call) (k : Except Exn c.Reply → App Outcome) :
    job.attempt sha256 (.call c k) = .call c fun reply => job.attempt sha256 (k reply) := by
  simp [attempt]

@[simp] theorem attempt_raise (e : Exn) :
    job.attempt sha256 (.raise e) = job.failing sha256 e := rfl

@[simp] theorem attempt_pure (o : Outcome) :
    job.attempt sha256 (.pure o) = job.finish (.pure o) := rfl

end Job

def Call.Quiet : Call → Prop
  | .rollback | .log _ => True
  | _ => False

def Exn.Raised (e : Exn) : Prop := ∃ fault : Fault, e = fault.exn

def Response.Upset (a : Response) : Prop := a = .envelope .unexpected false ∨ a = .plainText

def Exn.verdict : Exn → Response
  | .ledger error => .envelope error error.retryable
  | .data (some .numericOutOfRange) => .envelope .amountOutOfRange false
  | .operational (some .lockNotAvailable) => .envelope .busy true
  | .operational (some .deadlockDetected) => .envelope .contention true
  | _ => .envelope .unexpected false

abbrev Response.Settles (a : Response) (prog : App Response) : Prop :=
  prog.Settles Call.Quiet Exn.Raised Response.Upset a

abbrev Upset (prog : App Response) : Prop :=
  prog.Within Call.Quiet Exn.Raised Response.Upset

theorem handleException_settles {e : Exn} (h : ∀ error, e ≠ .ledger error) :
    (Response.envelope .unexpected false).Settles (handleException e) := by
  cases e with
  | ledger error => exact (h error rfl).elim
  | _ => exact ⟨trivial, fun _ => rfl, fun _ _ => .inr rfl⟩

theorem handleException_upset {e : Exn} (h : e.Raised) : Upset (handleException e) := by
  obtain ⟨fault, rfl⟩ := h
  cases fault <;> exact ⟨trivial, fun _ => .inl rfl, fun _ _ => .inr rfl⟩

theorem handleException_ledger (error : LedgerError) :
    handleException (.ledger error) = .pure (.envelope error error.retryable) := rfl

namespace Job

theorem failing_upset {e : Exn} (h : e.Raised) : Upset (job.failing sha256 e) := by
  have raised : ∀ e : Exn, e.Raised → Upset (handleException e) := fun _ => handleException_upset
  have unexpected := raised _ h
  obtain ⟨fault, rfl⟩ := h
  cases fault <;>
    simpa [failing, onException, Fault.exn, Prog.Within, Call.Quiet] using ⟨unexpected, raised⟩

theorem failing_settles (sha256 : String → String) (job : Job) {e : Exn}
    (h : e ≠ .integrity (some .uniqueViolation)) :
    e.verdict.Settles (job.failing sha256 e) := by
  have raised : ∀ e : Exn, e.Raised → Upset (handleException e) := fun _ => handleException_upset
  have unexpected : ∀ e : Exn, (∀ error, e ≠ .ledger error) →
      (Response.envelope .unexpected false).Settles (handleException e) :=
    fun _ => handleException_settles
  cases e with
  | ledger error =>
    simpa [failing, onException, Exn.verdict, Prog.Settles, Call.Quiet, handleException_ledger]
      using raised
  | other =>
    simpa [failing, onException, Exn.verdict, Prog.Settles, Call.Quiet] using
      ⟨unexpected _ (by simp), raised⟩
  | integrity state =>
    have hs : state ≠ some .uniqueViolation := by simpa using h
    simpa [failing, onException, Exn.verdict, Prog.Settles, Call.Quiet, hs] using
      ⟨unexpected _ (by simp), raised⟩
  | data state =>
    by_cases hs : state = some .numericOutOfRange
    · simpa [failing, onException, Exn.verdict, Prog.Settles, Prog.Within, Call.Quiet, hs,
        handleException_ledger, LedgerError.retryable] using raised
    · have hv : (Exn.data state).verdict = .envelope .unexpected false := by
        unfold Exn.verdict
        split <;> simp_all
      simpa [failing, onException, hv, Prog.Settles, Call.Quiet, hs] using
        ⟨unexpected _ (by simp), raised⟩
  | operational state =>
    by_cases hl : state = some .lockNotAvailable
    · simpa [failing, onException, Exn.verdict, Prog.Settles, Prog.Within, Call.Quiet, hl,
        handleException_ledger, LedgerError.busy, LedgerError.retryable] using raised
    · by_cases hd : state = some .deadlockDetected
      · simpa [failing, onException, Exn.verdict, Prog.Settles, Prog.Within, Call.Quiet, hd,
          handleException_ledger, LedgerError.contention, LedgerError.retryable] using raised
      · have hv : (Exn.operational state).verdict = .envelope .unexpected false := by
          unfold Exn.verdict
          split <;> simp_all
        simpa [failing, onException, hv, Prog.Settles, Call.Quiet, hl, hd] using
          ⟨unexpected _ (by simp), raised⟩

theorem failing_unique : job.failing sha256 (.integrity (some .uniqueViolation)) =
    .call .rollback fun
      | .ok _ => job.reread sha256
      | .error e => handleException e := by
  simp only [failing, onException, Prog.monad_bind, Prog.perform_bind, finish_call]
  congr 1
  funext reply
  cases reply with
  | ok x =>
    simp only [Prog.ofExcept_ok, Prog.pure_bind, ne_eq, not_true_eq_false, if_false, reread]
  | error e => exact finish_raise e

theorem finish_replayed (o : Outcome) (h : o.replayed = true) :
    job.finish (.pure o) = .pure (.outcome o) := by
  unfold finish
  cases job.request.payload with
  | transfer req => simp [logTransfer, h, respond]
  | account req => rfl

theorem finish_fresh {o : Outcome} (h : o.replayed = false) :
    (Response.outcome o).Settles (job.finish (.pure o)) := by
  unfold finish
  cases job.request.payload with
  | transfer req =>
    simpa [logTransfer, h, respond, Prog.Settles, Call.Quiet] using
      fun e => handleException_upset
  | account req => exact rfl

theorem conclude_settles (record : IdempotencyKey) {o : Outcome} (h : o.replayed = false) :
    (Response.outcome o).Settles (job.attempt sha256
      ((perform (.log (.committed job.operation job.key record.resourceId))).bind fun _ =>
        .pure o)) := by
  rw [Prog.perform_bind, attempt_call]
  exact ⟨trivial, fun _ => finish_fresh h, fun e he => failing_upset he⟩

theorem reread_settles (sha256 : String → String) (job : Job) :
    ∃ k, job.reread sha256 = .call (.getKey job.key) k ∧
    (∀ row, (job.replayed sha256 row).Settles (k (.ok (some row)))) ∧
    ∀ e : Exn, e.Raised → Upset (k (.error e)) := by
  refine ⟨_, finish_call _ _, fun row => ?_, fun e he => ?_⟩
  · by_cases hc : row.operation ≠ job.operation ∨ row.requestHash ≠ job.requestHash sha256
    · simp [replay, replayed, hc, handleException_ledger, LedgerError.retryable, Prog.Settles]
    · simpa [replay, replayed, hc, Prog.Settles, Call.Quiet, finish_replayed]
        using fun e => handleException_upset
  · simpa using handleException_upset he

theorem claim_eq (sha256 : String → String) (job : Job) :
    ∃ k, job.claim sha256 = .call (.insertKey (job.record sha256)) k ∧
    k (.ok ()) = job.claimed sha256 ∧ ∀ e, k (.error e) = job.failing sha256 e := by
  exact ⟨_, attempt_call _ _, rfl, fun e => rfl⟩

theorem executeOnce_eq (sha256 : String → String) (job : Job) : ∃ k, job.finish
      (executeOnce job.key job.operation (job.requestHash sha256) job.work) =
        .call (.getKey job.key) k ∧
    k (.ok none) = job.missed sha256 ∧
    (∀ row, (job.replayed sha256 row).Settles (k (.ok (some row)))) ∧
    ∀ e : Exn, e.Raised → Upset (k (.error e)) := by
  refine ⟨_, finish_call _ _, ?_, fun row => ?_, fun e he => ?_⟩
  · simp only [missed, Prog.ofExcept_ok, Prog.monad_bind, Prog.perform_bind, Prog.pure_bind,
      Prog.monad_pure, Prog.attempt_pure, Prog.call_bind, finish_call]
    congr 1
    funext reply
    cases reply with
    | ok x => rfl
    | error e => exact finish_raise e
  · have raised : ∀ e : Exn, e.Raised → Upset (handleException e) := fun _ => handleException_upset
    by_cases hc : row.operation ≠ job.operation ∨ row.requestHash ≠ job.requestHash sha256
    · simpa [replay, replayed, hc, handleException_ledger, LedgerError.retryable, Prog.Settles,
        Call.Quiet] using raised
    · simpa [replay, replayed, hc, Prog.Settles, Prog.Within, Call.Quiet, finish_replayed]
        using ⟨raised, fun e he => ⟨raised e he, raised⟩⟩
  · have raised : ∀ e : Exn, e.Raised → Upset (handleException e) := fun _ => handleException_upset
    simpa [Prog.Within, Call.Quiet] using ⟨raised e he, raised⟩

end Job

end Ledger
