import Ledger.Services
import Ledger.Stages
import Ledger.Lib.Monitor

namespace Ledger

open Lib

inductive Known
  | looking (again : Bool)
  | found (row : IdempotencyKey) (again : Bool)
  | working
  | committed
  | raised (e : Exn)

def Known.next (known : Known) : (c : Call) → c.Reply → Known
  | .getKey _, row =>
    match known, row with
    | .looking again, some row => .found row again
    | _, _ => .working
  | .commit, _ => .committed
  | .rollback, _ =>
    match known with
    | .raised (.integrity (some .uniqueViolation)) => .looking true
    | _ => known
  | _, _ => known

def Call.lines : Call → List LogLine
  | .log line => [line]
  | _ => []

/-- What a request knows, and the lines it wrote whose receipt it was told of. -/
structure Diary where
  known : Known
  lines : List LogLine

def Diary.next (s : Diary) (c : Call) : Except Exn c.Reply → Diary
  | .ok reply => ⟨s.known.next c reply, s.lines ++ c.lines⟩
  | .error e => ⟨.raised e, s.lines⟩

def Exn.Told : Exn → Prop
  | .ledger _ | .operational (some .deadlockDetected) => False
  | _ => True

def Call.Raises : Call → Exn → Prop
  | .getKey _, e | .rollback, e | .log _, e => e.Raised
  | _, e => e.Told

def Diary.Expects (s : Diary) : (c : Call) → c.Reply → Prop
  | .getKey _, found => s.known = .looking true → found.isSome
  | .refreshAccount id, account => account.id = id
  | _, _ => True

namespace Job

variable (job : Job)

def committedLine : LogLine := .committed job.operation job.key (some job.draws.first)

def replayedLine (row : IdempotencyKey) (raced : Bool) : LogLine :=
  .replayed job.operation row.key row.resourceId row.responseStatus raced

def booked : List LogLine :=
  match job.request.payload with
  | .transfer req => [job.committedLine, .transferCommitted (some job.draws.first) job.key
      req.fromAccountId req.toAccountId req.amount.value]
  | .account _ => [job.committedLine]

end Job

def Exn.Unmapped (e : Exn) : Prop :=
  e.verdict = .envelope .unexpected false ∧ e ≠ .integrity (some .uniqueViolation)

/-- The line that a request may write next. -/
inductive Diary.Writes (job : Job) : Diary → LogLine → Prop
  | replayed (row : IdempotencyKey) (again : Bool) : row.operation = job.operation →
      Writes job ⟨.found row again, []⟩ (job.replayedLine row again)
  | committed : Writes job ⟨.committed, []⟩ job.committedLine
  | transferCommitted (req : TransferRequest) : job.request.payload = .transfer req →
      Writes job ⟨.committed, [job.committedLine]⟩ (.transferCommitted (some job.draws.first)
        job.key req.fromAccountId req.toAccountId req.amount.value)
  | valueOutOfRange : Writes job ⟨.raised (.data (some .numericOutOfRange)), []⟩
      (.valueOutOfRange job.operation job.key)
  | lockTimeout : Writes job ⟨.raised (.operational (some .lockNotAvailable)), []⟩
      (.lockTimeout job.operation job.key)
  | unhandledError (e : Exn) (lines : List LogLine) : e.Unmapped →
      Writes job ⟨.raised e, lines⟩ (.unhandledError e)

def diaryMonitor (job : Job) : Monitor Call Call.Reply Exn Diary where
  admits
    | s, .log line => s.Writes job line
    | s, .getKey key => key = job.key ∧ ∃ again, s.known = .looking again
    | _, .rollback => True
    | s, _ => s = ⟨.working, []⟩
  expects
    | s, c, .ok reply => s.Expects c reply
    | _, c, .error e => c.Raises e
  next := Diary.next

theorem Exn.Raised.told {e : Exn} (h : e.Raised) : e.Told := by
  obtain ⟨fault, rfl⟩ := h
  cases fault <;> exact trivial

theorem Exn.Raised.unmapped {e : Exn} (h : e.Raised) : e.Unmapped := by
  obtain ⟨fault, rfl⟩ := h
  cases fault <;> exact ⟨rfl, by simp [Fault.exn]⟩

theorem Call.Raises.told {c : Call} {e : Exn} (h : c.Raises e) : e.Told := by
  cases c with
  | getKey key => exact Exn.Raised.told h
  | rollback => exact Exn.Raised.told h
  | log line => exact Exn.Raised.told h
  | _ => exact h

def LedgerError.Silent : LedgerError → Prop
  | amountOutOfRange | lockTimeout _ | internalError _ => False
  | _ => True

inductive Worked {α : Type} (post : α → Prop) : Except Exn α → Diary → Prop
  | done (a : α) : post a → Worked post (.ok a) ⟨.working, []⟩
  | refused (error : LedgerError) : error.Silent →
      Worked post (.error (.ledger error)) ⟨.working, []⟩
  | raised (e : Exn) : e.Told → Worked post (.error e) ⟨.raised e, []⟩

abbrev Works {α : Type} (job : Job) (post : α → Prop) (app : App α) : Prop :=
  app.Meets (diaryMonitor job) (Worked post) ⟨.working, []⟩

def Call.Works : Call → Prop
  | .getKey _ | .commit | .rollback | .log _ => False
  | _ => True

section work

variable {job : Job} {α β : Type} {post : α → Prop} {post' : β → Prop}

theorem Works.pure {a : α} (h : post a) : Works job post (.pure a) := .done a h

theorem Works.refuse {error : LedgerError} (h : error.Silent) :
    Works job post (.raise (.ledger error)) := .refused error h

theorem Works.bind {app : App α} (h : Works job post app) {f : α → App β}
    (hf : ∀ a, post a → Works job post' (f a)) : Works job post' (app.bind f) := by
  refine Prog.Meets.bind h (fun a s hs => ?_) fun e s hs => ?_
  · cases hs with
    | done _ ha => exact hf a ha
  · cases hs with
    | refused error silent => exact .refused error silent
    | raised _ told => exact .raised e told

theorem Works.perform (c : Call) (works : c.Works) :
    Works job (Diary.Expects ⟨.working, []⟩ c) (perform c) := by
  have admits : (diaryMonitor job).admits ⟨.working, []⟩ c := by
    cases c <;> first | exact works.elim | rfl
  refine Prog.Meets.perform admits fun reply expected => ?_
  cases reply with
  | error e => exact .raised e expected.told
  | ok reply =>
    have stays : (diaryMonitor job).next ⟨.working, []⟩ c (.ok reply) = ⟨.working, []⟩ := by
      cases c <;> first | exact works.elim | rfl
    rw [stays]
    exact .done reply expected

theorem lockInTurn_works (ids : List Uuid) :
    Works job (fun accounts => accounts.map Prod.fst = ids) (lockInTurn ids) := by
  induction ids with
  | nil => exact .pure rfl
  | cons id ids ih =>
    refine (Works.perform _ (by trivial)).bind fun row _ => ?_
    cases row with
    | none => exact .refuse trivial
    | some account => exact ih.bind fun accounts h => .pure (by simp [h])

theorem item_works {accounts : List (Uuid × Account)} {id : Uuid}
    (h : id ∈ accounts.map Prod.fst) : Works job (fun _ => True) (item accounts id) := by
  have found : (accounts.lookup id).isSome := by simpa using h
  obtain ⟨account, ha⟩ := Option.isSome_iff_exists.mp found
  rw [item, ha]
  exact .pure trivial

abbrev Done (job : Job) (done : IdempotencyKey × Outcome) : Prop :=
  done.1.resourceId = some job.draws.first ∧ done.2.replayed = false

theorem moveMoney_works (req : TransferRequest) (record : IdempotencyKey) :
    Works job (Done job) (moveMoney job.draws req record) := by
  have locked (id : Uuid) (h : id ∈ [req.fromAccountId, req.toAccountId])
      {accounts : List (Uuid × Account)} (ids : accounts.map Prod.fst =
        [req.fromAccountId, req.toAccountId].insertionSort (· ≤ ·)) :
      Works job (fun _ => True) (item accounts id) :=
    item_works (ids ▸ (List.perm_insertionSort _ _).mem_iff.mpr h)
  refine (lockInTurn_works _).bind fun accounts ids => ?_
  refine (locked _ (by simp) ids).bind fun source _ => ?_
  refine (locked _ (by simp) ids).bind fun destination _ => ?_
  split
  · exact .refuse trivial
  · refine (Works.perform _ (by trivial)).bind fun createdAt _ => ?_
    have flushed : Works job (fun _ => True) (flushTransfer job.draws source destination
        (source.balance.toDecimal.sub precision req.amount.value)
        (destination.balance.toDecimal.add precision req.amount.value) req.amount.value record.key
        (.transfer ⟨job.draws.first, source.id, destination.id, serializeMoney req.amount.value,
          createdAt⟩)) :=
      (Works.perform _ (by trivial)).bind fun _ _ => (Works.perform _ (by trivial)).bind fun _ _ =>
        (Works.perform _ (by trivial)).bind fun _ _ =>
          (Works.perform _ (by trivial)).bind fun _ _ =>
          Works.perform _ (by trivial)
    exact flushed.bind fun _ _ => .pure ⟨rfl, rfl⟩

theorem openAccount_works (req : CreateAccountRequest) (record : IdempotencyKey) :
    Works job (Done job) (openAccount job.draws req record) := by
  refine (Works.perform _ (by trivial)).bind fun _ _ => ?_
  refine (Works.perform _ (by trivial)).bind fun account (same : account.id = job.draws.first) => ?_
  exact (Works.perform _ (by trivial)).bind fun _ _ => .pure ⟨congrArg some same, rfl⟩

theorem work_works (record : IdempotencyKey) : Works job (Done job) (job.work record) := by
  unfold Job.work
  cases job.request.payload with
  | transfer req => exact moveMoney_works req record
  | account req => exact openAccount_works req record

end work

inductive Leaves (job : Job) (booked : List LogLine) : Except Exn Outcome → Diary → Prop
  | replayed (row : IdempotencyKey) (again : Bool) : row.operation = job.operation →
      Leaves job booked (.ok { statusCode := 200, body := row.responseBody, replayed := true })
        ⟨.found row again, [job.replayedLine row again]⟩
  | conflict (row : IdempotencyKey) (again : Bool) :
      Leaves job booked (.error (.ledger (.idempotencyKeyConflict row.key row.operation)))
        ⟨.found row again, []⟩
  | earned (o : Outcome) : o.replayed = false → Leaves job booked (.ok o) ⟨.committed, booked⟩
  | refused (error : LedgerError) : error.Silent →
      Leaves job booked (.error (.ledger error)) ⟨.working, []⟩
  | valueOutOfRange : Leaves job booked (.error (.ledger .amountOutOfRange))
      ⟨.raised (.data (some .numericOutOfRange)), [.valueOutOfRange job.operation job.key]⟩
  | lockTimeout : Leaves job booked (.error (.ledger .busy))
      ⟨.raised (.operational (some .lockNotAvailable)), [.lockTimeout job.operation job.key]⟩
  | raised (e : Exn) (lines : List LogLine) : e.Unmapped →
      Leaves job booked (.error e) ⟨.raised e, lines⟩

theorem Leaves.of_raised {job : Job} {booked : List LogLine} {e : Exn} (h : e.Raised)
    (lines : List LogLine) : Leaves job booked (.error e) ⟨.raised e, lines⟩ :=
  .raised e lines h.unmapped

theorem Diary.next_rollback {s : Diary}
    (h : s.known ≠ .raised (.integrity (some .uniqueViolation))) :
    s.next .rollback (.ok ()) = s := by
  have stays : s.known.next .rollback () = s.known := by
    unfold Known.next
    split <;> simp_all
  simp [Diary.next, stays, Call.lines]

theorem Leaves.next_rollback {job : Job} {booked : List LogLine} {result : Except Exn Outcome}
    {s : Diary} (h : Leaves job booked result s) : s.next .rollback (.ok ()) = s := by
  apply Diary.next_rollback
  cases h with
  | raised e lines unmapped => simpa using unmapped.2
  | _ => simp

section execute_once

variable {job : Job} {requestHash : String}

theorem replay_leaves (row : IdempotencyKey) (again : Bool) :
    (replay row job.operation requestHash again).Meets (diaryMonitor job)
      (Leaves job [job.committedLine]) ⟨.found row again, []⟩ := by
  unfold replay
  split
  · exact .conflict row again
  · next same =>
    have operation : row.operation = job.operation := by simp_all
    refine ⟨.replayed row again operation, fun reply expected => ?_⟩
    cases reply with
    | error e => exact .of_raised expected _
    | ok _ => exact .replayed row again operation

def Looked (job : Job) : Except Exn (Option Outcome) → Diary → Prop
  | .ok none, s => s = ⟨.working, []⟩
  | .ok (some o), s => Leaves job [job.committedLine] (.ok o) s
  | .error e, s => Leaves job [job.committedLine] (.error e) s

theorem Looked.rollback {result : Except Exn (Option Outcome)} {s : Diary}
    (h : Looked job result s) : Looked job result (s.next .rollback (.ok ())) := by
  match result, h with
  | .ok none, rfl => exact rfl
  | .ok (some o), h => exact (Leaves.next_rollback h).symm ▸ h
  | .error e, h => exact (Leaves.next_rollback h).symm ▸ h

theorem fastPath_looked : (fastPath job.key job.operation requestHash).Meets (diaryMonitor job)
    (Looked job) ⟨.looking false, []⟩ := by
  refine Prog.Meets.tryFinally (?read : Prog.Meets _ (Looked job) _ _) fun result s looked =>
    ⟨trivial, fun reply expected => ?close⟩
  case read =>
    refine ⟨⟨rfl, false, rfl⟩, fun reply expected => ?_⟩
    cases reply with
    | error e => exact Leaves.of_raised expected _
    | ok existing =>
      cases existing with
      | none => exact rfl
      | some row => exact (replay_leaves row false).bind (fun o s h => h) fun e s h => h
  case close =>
    cases reply with
    | error e => exact Leaves.of_raised expected _
    | ok _ => exact .ofExcept looked.rollback

def Claimed (job : Job) : Except Exn Outcome → Diary → Prop
  | .ok o, s => Leaves job [job.committedLine] (.ok o) s
  | .error e, s => Worked (fun _ : Outcome => False) (.error e) s

theorem Works.claims {α : Type} {post : α → Prop} {app : App α} (h : Works job post app)
    {f : α → App Outcome} (hf : ∀ a, post a →
      (f a).Meets (diaryMonitor job) (Claimed job) ⟨.working, []⟩) :
    (app.bind f).Meets (diaryMonitor job) (Claimed job) ⟨.working, []⟩ := by
  refine Prog.Meets.bind h (fun a s hs => ?_) fun e s hs => ?_
  · cases hs with
    | done _ ha => exact hf a ha
  · cases hs with
    | refused error silent => exact .refused error silent
    | raised _ told => exact .raised e told

theorem conclude_claimed {done : IdempotencyKey × Outcome} (h : Done job done) :
    (job.conclude done).Meets (diaryMonitor job) (Claimed job) ⟨.working, []⟩ := by
  obtain ⟨id, fresh⟩ := h
  have line : LogLine.committed job.operation job.key done.1.resourceId = job.committedLine :=
    congrArg _ id
  refine ⟨rfl, fun reply expected => ?_⟩
  cases reply with
  | error e => exact .raised e expected
  | ok _ =>
    refine ⟨line ▸ .committed, fun reply expected => ?_⟩
    cases reply with
    | error e => exact .raised e (Exn.Raised.told expected)
    | ok _ =>
      have earned : Claimed job (.ok done.2) ⟨.committed, [job.committedLine]⟩ :=
        .earned done.2 fresh
      exact line ▸ earned

theorem claimAndPerform_claimed :
    (claimAndPerform job.key job.operation requestHash job.work).Meets (diaryMonitor job)
      (Claimed job) ⟨.working, []⟩ :=
  (Works.perform _ (by trivial)).claims fun _ _ =>
    (work_works _).claims fun _ done => conclude_claimed done

theorem replayWinner_leaves : (replayWinner job.key job.operation requestHash).Meets
    (diaryMonitor job) (Leaves job [job.committedLine]) ⟨.looking true, []⟩ := by
  refine ⟨⟨rfl, true, rfl⟩, fun reply expected => ?_⟩
  cases reply with
  | error e => exact .of_raised expected _
  | ok winner =>
    cases winner with
    | none => cases expected rfl
    | some row => exact replay_leaves row true

theorem log_leaves {line : LogLine} {error : LedgerError} {s : Diary} (writes : s.Writes job line)
    (h : Leaves job [job.committedLine] (.error (.ledger error)) ⟨s.known, s.lines ++ [line]⟩) :
    ((perform (.log line)).bind fun _ => (.raise (.ledger error) : App Outcome)).Meets
      (diaryMonitor job) (Leaves job [job.committedLine]) s := by
  refine ⟨writes, fun reply expected => ?_⟩
  cases reply with
  | error e => exact .of_raised expected _
  | ok _ => exact h

theorem rollback_leaves {app : App Outcome} {s : Diary}
    (h : app.Meets (diaryMonitor job) (Leaves job [job.committedLine])
    (s.next .rollback (.ok ()))) :
    ((perform .rollback).bind fun _ => app).Meets (diaryMonitor job)
      (Leaves job [job.committedLine]) s := by
  refine ⟨trivial, fun reply expected => ?_⟩
  cases reply with
  | error e => exact .of_raised expected _
  | ok _ => exact h

theorem onException_leaves {e : Exn} {s : Diary} (h : Claimed job (.error e) s) :
    (onException job.key job.operation requestHash e).Meets (diaryMonitor job)
      (Leaves job [job.committedLine]) s := by
  cases h with
  | refused error silent => exact rollback_leaves (.refused error silent)
  | raised _ told =>
    cases e with
    | ledger error => exact told.elim
    | other => exact rollback_leaves (.raised .other _ ⟨rfl, by simp⟩)
    | integrity state =>
      apply rollback_leaves
      split
      · next hs =>
        have other : Exn.integrity state ≠ .integrity (some .uniqueViolation) := by simpa using hs
        rw [Diary.next_rollback (by simpa using hs)]
        exact .raised _ _ ⟨rfl, other⟩
      · next hs =>
        obtain rfl := not_not.mp hs
        exact replayWinner_leaves
    | data state =>
      apply rollback_leaves
      rw [Diary.next_rollback (by simp)]
      split
      · next hs => exact .raised _ _ ⟨by unfold Exn.verdict; split <;> simp_all, by simp⟩
      · next hs =>
        obtain rfl := not_not.mp hs
        exact log_leaves .valueOutOfRange .valueOutOfRange
    | operational state =>
      apply rollback_leaves
      rw [Diary.next_rollback (by simp)]
      split
      · next hs =>
        subst hs
        exact log_leaves .lockTimeout .lockTimeout
      · split
        · next hs =>
          subst hs
          exact told.elim
        · exact .raised _ _ ⟨by unfold Exn.verdict; split <;> simp_all, by simp⟩

theorem executeOnce_leaves :
    (executeOnce job.key job.operation requestHash job.work).Meets (diaryMonitor job)
      (Leaves job [job.committedLine]) ⟨.looking false, []⟩ := by
  refine fastPath_looked.bind (fun replayed s looked => ?_) fun e s h => h
  cases replayed with
  | some o => exact looked
  | none =>
    cases looked
    exact claimAndPerform_claimed.tryExcept (fun o s h => h) fun e s h => onException_leaves h

end execute_once

inductive Tells (job : Job) : Except Exn Response → Diary → Prop
  | served {o : Outcome} {s : Diary} : Leaves job job.booked (.ok o) s →
      Tells job (.ok (.outcome o)) s
  | refused {error : LedgerError} {s : Diary} : Leaves job job.booked (.error (.ledger error)) s →
      Tells job (.ok (.envelope error error.retryable)) s
  | early (e : LedgerError) : e.Early → Tells job (.ok (.envelope e false)) ⟨.looking false, []⟩
  | unhandled (e : Exn) (lines : List LogLine) : e.Unmapped →
      Tells job (.ok (.envelope .unexpected false)) ⟨.raised e, lines ++ [.unhandledError e]⟩
  | failed (e : Exn) (lines : List LogLine) : e.Raised →
      Tells job (.ok .plainText) ⟨.raised e, lines⟩

section serve_request

variable {job : Job}

theorem handleException_tells {e : Exn} {s : Diary} (h : Leaves job job.booked (.error e) s) :
    (handleException e).Meets (diaryMonitor job) (Tells job) s := by
  cases e with
  | ledger error => exact .refused h
  | _ =>
    cases h with
    | raised _ lines unmapped =>
      refine ⟨.unhandledError _ lines unmapped, fun reply expected => ?_⟩
      cases reply with
      | error e => exact .failed e lines expected
      | ok _ => exact .unhandled _ lines unmapped

theorem respond_tells {body : App Outcome} {s : Diary}
    (h : body.Meets (diaryMonitor job) (Leaves job job.booked) s) :
    (respond body).Meets (diaryMonitor job) (Tells job) s := by
  refine h.attempt_bind fun result s hs => ?_
  cases result with
  | ok o => exact .served hs
  | error e => exact handleException_tells hs

theorem logTransfer_leaves {req : TransferRequest} (hreq : job.request.payload = .transfer req)
    {o : Outcome} {s : Diary} (h : Leaves job [job.committedLine] (.ok o) s) :
    (logTransfer job.draws job.key req o).Meets (diaryMonitor job) (Leaves job job.booked) s := by
  unfold logTransfer
  cases h with
  | replayed row again operation => exact .replayed row again operation
  | earned _ fresh =>
    rw [if_neg (by simp [fresh])]
    refine ⟨.transferCommitted req hreq, fun reply expected => ?_⟩
    cases reply with
    | error e => exact .of_raised expected _
    | ok _ =>
      have all : job.booked = [job.committedLine] ++ [.transferCommitted (some job.draws.first)
          job.key req.fromAccountId req.toAccountId req.amount.value] := by
        simp [Job.booked, hreq]
      exact all ▸ .earned o fresh

theorem Leaves.error {booked booked' : List LogLine} {e : Exn} {s : Diary}
    (h : Leaves job booked (.error e) s) : Leaves job booked' (.error e) s := by
  cases h with
  | conflict row again => exact .conflict row again
  | refused error silent => exact .refused error silent
  | valueOutOfRange => exact .valueOutOfRange
  | lockTimeout => exact .lockTimeout
  | raised e lines unmapped => exact .raised e lines unmapped

theorem serveRequest_tells (sha256 : String → String) (job : Job) :
    (serveRequest sha256 job).Meets (diaryMonitor job) (Tells job) ⟨.looking false, []⟩ := by
  by_cases admitted : job.Admitted
  · rw [serveRequest_of_admitted admitted]
    unfold Job.finish
    cases hreq : job.request.payload with
    | transfer req =>
      exact respond_tells (executeOnce_leaves.bind (fun o s h => logTransfer_leaves hreq h)
        fun e s h => h.error)
    | account req =>
      have all : job.booked = [job.committedLine] := by simp [Job.booked, hreq]
      exact respond_tells (all ▸ executeOnce_leaves)
  · obtain ⟨e, he, early⟩ := serveRequest_of_not_admitted sha256 admitted
    rw [he]
    exact .early e early

end serve_request

end Ledger
