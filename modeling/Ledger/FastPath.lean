import Ledger.Lockstep

namespace Ledger

open Lib

/-- `execute_once` without the read that comes first. -/
def plainExecuteOnce (key : String) (operation : Operation) (requestHash : String)
    (work : IdempotencyKey → App (IdempotencyKey × Outcome)) : App Outcome :=
  (claimAndPerform key operation requestHash work).tryExcept
    (onException key operation requestHash)

section plain

variable (sha256 : String → String) (draws : Draws) (key : String)

def plainExecuteTransfer (req : TransferRequest) : App Outcome :=
  if req.fromAccountId = req.toAccountId then .raise (.ledger .sameAccountTransfer)
  else do
    let outcome ← plainExecuteOnce key .createTransfer (fingerprint sha256 (.transfer req))
      (moveMoney draws req)
    logTransfer draws key req outcome

def plainCreateAccount (req : CreateAccountRequest) : App Outcome :=
  plainExecuteOnce key .createAccount (fingerprint sha256 (.account req)) (openAccount draws req)

end plain

def plainEndpoint (sha256 : String → String) (job : Job) : App Outcome :=
  match requireKey job.request.idempotencyKey with
  | .error e => .raise (.ledger e)
  | .ok key =>
    match job.request.payload with
    | .transfer req => plainExecuteTransfer sha256 job.draws key req
    | .account req => plainCreateAccount sha256 job.draws key req

def plainServeRequest (sha256 : String → String) (job : Job) : App Response :=
  respond (plainEndpoint sha256 job)

theorem plainServeRequest_of_admitted {sha256 : String → String} {job : Job} (h : job.Admitted) :
    plainServeRequest sha256 job = job.claim sha256 := by
  unfold plainServeRequest plainEndpoint Job.claim Job.attempt Job.finish Job.operation
    Job.requestHash Job.work
  rw [h.key]
  cases hp : job.request.payload with
  | transfer req =>
    simp [plainExecuteTransfer, plainExecuteOnce, h.distinct req hp, Payload.operation]
  | account req => rfl

theorem plainServeRequest_of_not_admitted {sha256 : String → String} {job : Job}
    (h : ¬ job.Admitted) : plainServeRequest sha256 job = serveRequest sha256 job := by
  unfold plainServeRequest plainEndpoint serveRequest endpoint
  cases hk : requireKey job.request.idempotencyKey with
  | error e => rfl
  | ok key =>
    have hkey : key = job.key := by simp [Job.key, hk, Except.toOption]
    cases hp : job.request.payload with
    | account req =>
      refine (h ⟨hkey ▸ hk, fun req hreq => ?_⟩).elim
      rw [hp] at hreq
      cases hreq
    | transfer req =>
      by_cases hd : req.fromAccountId = req.toAccountId
      · simp [plainExecuteTransfer, executeTransfer, hd]
      · refine (h ⟨hkey ▸ hk, fun req' hreq => ?_⟩).elim
        rw [hp] at hreq
        cases hreq
        exact hd

namespace Job

variable (sha256 : String → String) (job : Job) (t : Tables)

def reading : App Response :=
  job.finish (executeOnce job.key job.operation (job.requestHash sha256) job.work)

inductive Ends : App Response → Prop
  | found (row : IdempotencyKey) : t.key? job.key = some row →
      Ends (.pure (job.replayed sha256 row))
  | upset (fault : Fault) : Ends (handleException fault.exn)

abbrev Closing (prog : App Response) : Prop :=
  prog.LeadsTo Call.Quiet Exn.Raised (job.Ends sha256 t)

variable {sha256 job t}

theorem Closing.later {t' : Tables} (kept : t.KeepsKeys t') {prog : App Response}
    (h : job.Closing sha256 t prog) : job.Closing sha256 t' prog := by
  refine h.mono fun p hp => ?_
  cases hp with
  | found row hrow => exact .found row (kept _ _ hrow)
  | upset fault => exact .upset fault

theorem closing_raised {e : Exn} (h : e.Raised) : job.Closing sha256 t (handleException e) := by
  obtain ⟨fault, rfl⟩ := h
  exact .ended (.upset fault)

theorem closing_rollback {e : Exn} (h : e.Raised) : job.Closing sha256 t
    (.call .rollback fun
      | .ok _ => handleException e
      | .error e => handleException e) :=
  .call trivial (fun _ => closing_raised h) fun _ h' => closing_raised h'

theorem closing_failing (fault : Fault) :
    job.Closing sha256 t (job.failing sha256 fault.exn) := by
  rw [failing_fault]
  exact closing_rollback ⟨fault, rfl⟩

theorem executeOnce_closing (sha256 : String → String) (job : Job) : ∃ k,
    job.reading sha256 = .call (.getKey job.key) k ∧ k (.ok none) = job.missed sha256 ∧
    (∀ t row, t.key? job.key = some row → job.Closing sha256 t (k (.ok (some row)))) ∧
    ∀ e, k (.error e) = .call .rollback fun
      | .ok _ => handleException e
      | .error e => handleException e := by
  refine ⟨_, finish_call _ _, ?_, fun t row hrow => ?_, fun e => ?_⟩
  · simp only [missed, Prog.ofExcept_ok, Prog.monad_bind, Prog.perform_bind, Prog.pure_bind,
      Prog.monad_pure, Prog.attempt_pure, Prog.call_bind, finish_call]
    congr 1
    funext reply
    cases reply with
    | ok x => rfl
    | error e => exact finish_raise e
  · have found : job.Ends sha256 t (.pure (job.replayed sha256 row)) := .found row hrow
    by_cases hc : row.operation ≠ job.operation ∨ row.requestHash ≠ job.requestHash sha256
    · simp only [replayed, if_pos hc] at found
      simp only [Prog.ofExcept_ok, Prog.monad_bind, Prog.pure_bind, replay, if_pos hc,
        Prog.raise_bind, Prog.attempt_raise, Prog.perform_bind, Prog.call_bind, finish_call]
      refine .call trivial (fun _ => .ended ?_) fun e he => ?_
      · simpa [handleException_ledger, LedgerError.retryable] using found
      · simpa using closing_raised he
    · simp only [replayed, if_neg hc] at found
      simp only [Prog.ofExcept_ok, Prog.monad_bind, Prog.pure_bind, replay, if_neg hc,
        Prog.attempt_call, Prog.perform_bind, Prog.call_bind, finish_call]
      refine .call trivial (fun _ => ?_) fun e he => ?_
      · simp only [Prog.ofExcept_ok, Prog.pure_bind, Prog.monad_pure, Prog.attempt_pure,
          Prog.call_bind, finish_call]
        refine .call trivial (fun _ => .ended ?_) fun e he => ?_
        · simpa [finish_replayed] using found
        · simpa using closing_raised he
      · simp only [Prog.ofExcept_error, Prog.raise_bind, Prog.attempt_raise, Prog.pure_bind,
          Prog.call_bind, finish_call]
        refine .call trivial (fun _ => ?_) fun e' he' => ?_
        · simpa using closing_raised he
        · simpa using closing_raised he'
  · simp only [Prog.ofExcept_error, Prog.monad_bind, Prog.raise_bind, Prog.attempt_raise,
      Prog.pure_bind, Prog.perform_bind, Prog.call_bind, finish_call]
    congr 1
    funext reply
    cases reply with
    | ok x => exact finish_raise e
    | error e => exact finish_raise e

theorem reread_closing (sha256 : String → String) (job : Job) : ∃ k,
    job.reread sha256 = .call (.getKey job.key) k ∧
    (∀ t row, t.key? job.key = some row → job.Closing sha256 t (k (.ok (some row)))) ∧
    ∀ e, k (.error e) = handleException e := by
  refine ⟨_, finish_call _ _, fun t row hrow => ?_, fun e => finish_raise e⟩
  have found : job.Ends sha256 t (.pure (job.replayed sha256 row)) := .found row hrow
  by_cases hc : row.operation ≠ job.operation ∨ row.requestHash ≠ job.requestHash sha256
  · simp only [replayed, if_pos hc] at found
    simp only [Prog.ofExcept_ok, Prog.pure_bind, replay, if_pos hc]
    refine .ended ?_
    simpa [handleException_ledger, LedgerError.retryable] using found
  · simp only [replayed, if_neg hc] at found
    simp only [Prog.ofExcept_ok, Prog.pure_bind, replay, if_neg hc, Prog.monad_bind,
      Prog.perform_bind, finish_call]
    refine .call trivial (fun _ => .ended ?_) fun e he => ?_
    · simpa [finish_replayed] using found
    · simpa using closing_raised he

end Job

section exec

variable {server : Server} {q : Nat} {job : Job}

theorem exec_insertKey_taken (free : server.locks.Holds q []) {row record : IdempotencyKey}
    (hrow : server.committed.key? record.key = some row) :
    server.exec q job .idle (.insertKey record) =
      some (server, .broken, .error (.integrity (some .uniqueViolation))) := by
  have refused : server.committed.effect server.clock .idle (.insertKey record) =
      .failed (.integrity (some .uniqueViolation)) :=
        if_pos (by simp [Tables.view, Tables.after, hrow])
  simp only [Server.exec, refused, Server.release_of_holds_nil free]

theorem exec_getKey (key : String) : server.exec q job .idle (.getKey key) =
    some (server, .active ⟨server.clock, []⟩, .ok (server.committed.key? key)) := rfl

end exec

theorem met_getKey {w : World} {q : Nat} {job : Job} {key : String} {e : Event} {server : Server}
    {session' : Session} {reply : Except Exn (Call.Reply (.getKey key))}
    (h : w.Met q job .idle (.getKey key) e server session' reply)
    (he : ∀ cycle, e ≠ .deadlock q cycle) : server = w.server ∧
      (reply = .ok (w.server.committed.key? key) ∨ ∃ fault : Fault, reply = .error fault.exn) := by
  cases h with
  | served hx =>
    cases hx
    exact ⟨rfl, .inl rfl⟩
  | timedOut hx => cases hx
  | @deadlocked cycle _ _ => exact (he cycle rfl).elim
  | failedBefore fault => exact ⟨rfl, .inr ⟨fault, rfl⟩⟩
  | failedAfter fault hx =>
    cases hx
    exact ⟨rfl, .inr ⟨fault, rfl⟩⟩

theorem met_rollback {w : World} {q : Nat} {job : Job} {session session' : Session} {e : Event}
    {server : Server} {reply : Except Exn (Call.Reply .rollback)}
    (free : w.server.locks.Holds q [])
    (h : w.Met q job session .rollback e server session' reply) : server = w.server ∧
      (reply = .ok () ∧ session' = .idle ∨ ∃ fault : Fault, reply = .error fault.exn) := by
  have rolledBack : w.server.exec q job session .rollback = some (w.server, .idle, .ok ()) :=
    exec_rollback free session
  cases h with
  | served hx =>
    cases rolledBack.symm.trans hx
    exact ⟨rfl, .inl ⟨rfl, rfl⟩⟩
  | timedOut hx => cases hx
  | deadlocked hx _ => cases hx
  | failedBefore fault => exact ⟨rfl, .inr ⟨fault, rfl⟩⟩
  | failedAfter fault hx =>
    cases rolledBack.symm.trans hx
    exact ⟨rfl, .inr ⟨fault, rfl⟩⟩

theorem met_insertKey {w : World} {q : Nat} {job : Job} {record : IdempotencyKey}
    {session session' : Session} {e : Event} {server : Server}
    {reply : Except Exn (Call.Reply (.insertKey record))}
    (h : w.Met q job session (.insertKey record) e server session' reply) :
    server.committed = w.server.committed ∧ server.history = w.server.history := by
  have executed {reply' : Except Exn (Call.Reply (.insertKey record))}
      (hx : w.server.exec q job session (.insertKey record) = some (server, session', reply')) :
      server.committed = w.server.committed ∧ server.history = w.server.history := by
    refine (Server.exec_committed hx).resolve_right ?_
    rintro ⟨tx, rep, heffect, -⟩
    cases session with
    | broken => cases heffect
    | _ =>
      simp only [Tables.effect, inTx] at heffect
      split at heffect <;> cases heffect
  cases h with
  | served hx => exact executed hx
  | timedOut _ => exact ⟨rfl, rfl⟩
  | deadlocked _ _ => exact ⟨rfl, rfl⟩
  | failedBefore fault => exact ⟨rfl, rfl⟩
  | failedAfter fault hx => exact executed hx

theorem Response.Settles.reaches {app : Job → App Response} {w : World} {q : Nat} {job : Job}
    {server : Server} {a : Response} (free : server.locks.Holds q []) {prog : App Response}
    (h : a.Settles prog) (session : Session) : ∃ session', Reaches (World.step app)
      (w.put q ⟨job, prog, session⟩ server) (w.put q ⟨job, .pure a, session'⟩ server) := by
  induction prog generalizing session with
  | pure b =>
    cases h
    exact ⟨session, .refl _⟩
  | raise e => exact h.elim
  | call c k ih =>
    obtain ⟨hq, hok, -⟩ := h
    obtain ⟨x, answered⟩ := hq.exec_eq free
    obtain ⟨session₁, hx⟩ := answered session
    obtain ⟨session', rest⟩ := ih _ (hok x) session₁
    exact ⟨session', World.reaches_serve hx rest⟩

/-- What the variant that is behind can do in one go. -/
structure CatchesUp (sha256 : String → String) (waiting : Job → App Response)
    (Ahead : Tables → Job → App Response → Session → Prop) (lag : Job → App Response) : Prop where
  found : ∀ (w : World) {q job server row}, server.locks.Holds q [] →
    server.committed.key? job.key = some row → ∃ session, Reaches (World.step lag)
      (w.put q ⟨job, waiting job, .idle⟩ server)
      (w.put q ⟨job, .pure (job.replayed sha256 row), session⟩ server)
  upset : ∀ (w : World) {q job server} (fault : Fault), server.locks.Holds q [] →
    Reaches (World.step lag) (w.put q ⟨job, waiting job, .idle⟩ server)
      (w.put q ⟨job, handleException fault.exn, .idle⟩ server)
  closing : ∀ {t job c k session}, c.Quiet → (∀ reply, job.Closing sha256 t (k (.ok reply))) →
    (∀ e : Exn, e.Raised → job.Closing sha256 t (k (.error e))) → Ahead t job (.call c k) session

namespace CatchesUp

variable {sha256 : String → String} {waiting lag : Job → App Response}
  {Ahead : Tables → Job → App Response → Session → Prop} {q : Nat} {job : Job}

theorem follow (C : CatchesUp sha256 waiting Ahead lag) {server : Server} {prog : App Response}
    (h : job.Closing sha256 server.committed prog) (free : server.locks.Holds q [])
    (session : Session) (w' : World) : ∃ p', Reaches (World.step lag)
        (w'.put q ⟨job, waiting job, .idle⟩ server) (w'.put q p' server) ∧
      Paired waiting Ahead server q (some ⟨job, prog, session⟩) (some p') := by
  cases h with
  | ended h =>
    cases h with
    | found row hrow =>
      obtain ⟨session', reaches⟩ := C.found w' free hrow
      exact ⟨_, reaches, .tail _ _ trivial free⟩
    | upset fault => exact ⟨_, C.upset w' fault free, .tail _ _ (handleException_tail fault) free⟩
  | call hq hok herror => exact ⟨_, .refl _, .ahead (C.closing hq hok herror) free⟩

theorem met (C : CatchesUp sha256 waiting Ahead lag) {w : World} {c : Call}
    {k : Except Exn c.Reply → App Response} {session session' : Session} {e : Event}
    {server : Server} {reply : Except Exn c.Reply} (hq : c.Quiet)
    (hok : ∀ reply, job.Closing sha256 w.server.committed (k (.ok reply)))
    (herror : ∀ e : Exn, e.Raised → job.Closing sha256 w.server.committed (k (.error e)))
    (free : w.server.locks.Holds q []) (hm : w.Met q job session c e server session' reply) :
    server = w.server ∧ ∀ w' : World, ∃ p', Reaches (World.step lag)
        (w'.put q ⟨job, waiting job, .idle⟩ w.server) (w'.put q p' server) ∧
      Paired waiting Ahead server q (some ⟨job, k reply, session'⟩) (some p') := by
  obtain ⟨rfl, answered, -⟩ := hq.met free hm
  refine ⟨rfl, C.follow ?_ free session'⟩
  rcases answered with ⟨x, rfl⟩ | ⟨fault, rfl⟩
  · exact hok x
  · exact herror _ ⟨fault, rfl⟩

end CatchesUp

/-! The fast path, and the service that follows without it. -/

inductive Fast (sha256 : String → String) (t : Tables) (job : Job) :
    App Response → Session → Prop
  | reading : Fast sha256 t job (job.reading sha256) .idle
  | missed (session : Session) : Fast sha256 t job (job.missed sha256) session
  | closing {c : Call} {k : Except Exn c.Reply → App Response} (session : Session) : c.Quiet →
      (∀ reply, job.Closing sha256 t (k (.ok reply))) →
      (∀ e : Exn, e.Raised → job.Closing sha256 t (k (.error e))) →
      Fast sha256 t job (.call c k) session

theorem plain_catchesUp (sha256 : String → String) :
    CatchesUp sha256 (Job.claim sha256) (Fast sha256) (plainServeRequest sha256) where
  found := by
    intro w q job server row free hrow
    obtain ⟨k, hk, -, hfail⟩ := Job.claim_eq sha256 job
    obtain ⟨k', hk', hsettles, -⟩ := Job.reread_settles sha256 job
    obtain ⟨session, reaches⟩ := (hsettles row).reaches (w := w) free (.active ⟨server.clock, []⟩)
    refine ⟨session, ?_⟩
    rw [hk]
    apply World.reaches_serve (exec_insertKey_taken free hrow)
    rw [hfail, Job.failing_unique]
    apply World.reaches_serve (exec_rollback free _)
    change Reaches _ (w.put q ⟨job, job.reread sha256, .idle⟩ server) _
    rw [hk']
    exact World.reaches_serve (exec_getKey job.key) (by rwa [hrow])
  upset := by
    intro w q job server fault free
    obtain ⟨k, hk, -, hfail⟩ := Job.claim_eq sha256 job
    rw [hk]
    apply World.reaches_fail fault
    rw [hfail, Job.failing_fault]
    exact World.reaches_serve (exec_rollback free _) (.refl _)
  closing := .closing _

theorem fast_leads (sha256 : String → String) :
    Leads (Job.claim sha256) (Fast sha256) (serveRequest sha256) (plainServeRequest sha256) where
  starts := by
    intro t job
    by_cases admitted : job.Admitted
    · exact .inr ⟨plainServeRequest_of_admitted admitted,
        serveRequest_of_admitted admitted ▸ .reading⟩
    · exact .inl (plainServeRequest_of_not_admitted admitted).symm
  calls := by
    intro t job prog session h
    cases h with
    | reading =>
      obtain ⟨k, hk, -⟩ := Job.executeOnce_closing sha256 job
      exact ⟨_, k, hk⟩
    | missed session => exact ⟨_, _, rfl⟩
    | closing session _ _ _ => exact ⟨_, _, rfl⟩
  waits := by
    intro job
    obtain ⟨k, hk, -⟩ := Job.claim_eq sha256 job
    exact ⟨_, k, hk⟩
  later := by
    intro t t' job prog session kept h
    cases h with
    | reading => exact .reading
    | missed session => exact .missed session
    | closing session hq hok herror =>
      exact .closing session hq (fun reply => (hok reply).later kept) fun e he =>
        (herror e he).later kept
  killed := by
    intro t job prog tx h
    generalize hs : Session.active tx = session at h
    cases h with
    | reading => cases hs
    | missed session => exact .missed _
    | closing session hq hok herror => exact .closing _ hq hok herror
  met := by
    intro w q job c k session e server session' reply h free hm he
    have C := plain_catchesUp sha256
    generalize hp : Prog.call c k = prog at h
    cases h with
    | reading =>
      obtain ⟨k', hk, hmissed, hfound, hraised⟩ := Job.executeOnce_closing sha256 job
      cases hp.trans hk
      obtain ⟨rfl, answered⟩ := met_getKey hm he
      refine ⟨rfl, rfl, fun w' => ?_⟩
      rcases answered with rfl | ⟨fault, rfl⟩
      · cases hrow : w.server.committed.key? job.key with
        | none =>
          rw [hmissed]
          exact ⟨_, .refl _, .ahead (.missed session') free⟩
        | some row => exact C.follow (hfound _ row hrow) free session' w'
      · rw [hraised]
        exact C.follow (Job.closing_rollback ⟨fault, rfl⟩) free session' w'
    | missed session =>
      cases hp
      obtain ⟨rfl, answered⟩ := met_rollback free hm
      refine ⟨rfl, rfl, fun w' => ?_⟩
      rcases answered with ⟨rfl, rfl⟩ | ⟨fault, rfl⟩
      · exact ⟨_, .refl _, .same _⟩
      · exact C.follow (Job.closing_raised ⟨fault, rfl⟩) free session' w'
    | closing session hq hok herror =>
      cases hp
      obtain ⟨rfl, follow⟩ := C.met hq hok herror free hm
      exact ⟨rfl, rfl, follow⟩

/-! The service without the fast path, and the fast path that follows. -/

inductive Slow (sha256 : String → String) (t : Tables) (job : Job) :
    App Response → Session → Prop
  | claiming : Slow sha256 t job (job.claim sha256) .idle
  | losing (row : IdempotencyKey) (session : Session) : t.key? job.key = some row →
      Slow sha256 t job (job.failing sha256 (.integrity (some .uniqueViolation))) session
  | rereading (row : IdempotencyKey) : t.key? job.key = some row →
      Slow sha256 t job (job.reread sha256) .idle
  | closing {c : Call} {k : Except Exn c.Reply → App Response} (session : Session) : c.Quiet →
      (∀ reply, job.Closing sha256 t (k (.ok reply))) →
      (∀ e : Exn, e.Raised → job.Closing sha256 t (k (.error e))) →
      Slow sha256 t job (.call c k) session

theorem real_catchesUp (sha256 : String → String) :
    CatchesUp sha256 (Job.reading sha256) (Slow sha256) (serveRequest sha256) where
  found := by
    intro w q job server row free hrow
    obtain ⟨k, hk, -, hsettles, -⟩ := Job.executeOnce_eq sha256 job
    obtain ⟨session, reaches⟩ := (hsettles row).reaches (w := w) free (.active ⟨server.clock, []⟩)
    refine ⟨session, ?_⟩
    rw [Job.reading, hk]
    exact World.reaches_serve (exec_getKey job.key) (by rwa [hrow])
  upset := by
    intro w q job server fault free
    obtain ⟨k, hk, -, -, hraised⟩ := Job.executeOnce_closing sha256 job
    rw [hk]
    apply World.reaches_fail fault
    rw [hraised]
    exact World.reaches_serve (exec_rollback free _) (.refl _)
  closing := .closing _

theorem reaches_claim (sha256 : String → String) {job : Job} {server : Server} {q : Nat}
    (free : server.locks.Holds q []) (hkey : server.committed.key? job.key = none) (w : World) :
    Reaches (World.step (serveRequest sha256)) (w.put q ⟨job, job.reading sha256, .idle⟩ server)
      (w.put q ⟨job, job.claim sha256, .idle⟩ server) := by
  obtain ⟨k, hk, hmissed, -⟩ := Job.executeOnce_closing sha256 job
  rw [hk]
  apply World.reaches_serve (exec_getKey job.key)
  rw [hkey, hmissed]
  exact World.reaches_serve (exec_rollback free _) (.refl _)

theorem slow_leads (sha256 : String → String) :
    Leads (Job.reading sha256) (Slow sha256) (plainServeRequest sha256) (serveRequest sha256) where
  starts := by
    intro t job
    by_cases admitted : job.Admitted
    · exact .inr ⟨serveRequest_of_admitted admitted,
        plainServeRequest_of_admitted admitted ▸ .claiming⟩
    · exact .inl (plainServeRequest_of_not_admitted admitted)
  calls := by
    intro t job prog session h
    cases h with
    | claiming =>
      obtain ⟨k, hk, -⟩ := Job.claim_eq sha256 job
      exact ⟨_, k, hk⟩
    | losing row session _ => exact ⟨_, _, Job.failing_unique⟩
    | rereading row _ =>
      obtain ⟨k, hk, -⟩ := Job.reread_closing sha256 job
      exact ⟨_, k, hk⟩
    | closing session _ _ _ => exact ⟨_, _, rfl⟩
  waits := by
    intro job
    obtain ⟨k, hk, -⟩ := Job.executeOnce_closing sha256 job
    exact ⟨_, k, hk⟩
  later := by
    intro t t' job prog session kept h
    cases h with
    | claiming => exact .claiming
    | losing row session hrow => exact .losing row session (kept _ _ hrow)
    | rereading row hrow => exact .rereading row (kept _ _ hrow)
    | closing session hq hok herror =>
      exact .closing session hq (fun reply => (hok reply).later kept) fun e he =>
        (herror e he).later kept
  killed := by
    intro t job prog tx h
    generalize hs : Session.active tx = session at h
    cases h with
    | claiming => cases hs
    | losing row session hrow => exact .losing row _ hrow
    | rereading row _ => cases hs
    | closing session hq hok herror => exact .closing _ hq hok herror
  met := by
    intro w q job c k session e server session' reply h free hm he
    have C := real_catchesUp sha256
    generalize hp : Prog.call c k = prog at h
    cases h with
    | claiming =>
      obtain ⟨k', hk, -, hfail⟩ := Job.claim_eq sha256 job
      cases hp.trans hk
      cases hrow : w.server.committed.key? job.key with
      | none =>
        obtain ⟨hc, hh⟩ := met_insertKey hm
        refine ⟨hc, hh, fun w' => ⟨_, (reaches_claim sha256 free hrow w').trans ?_, .same _⟩⟩
        rw [hk]
        exact .head (World.step_put hm rfl he) (.refl _)
      | some row =>
        have refused : w.server.exec q job .idle (.insertKey (job.record sha256)) =
          some (w.server, .broken, .error (.integrity (some .uniqueViolation))) :=
            exec_insertKey_taken free hrow
        cases hm with
        | served hx =>
          cases refused.symm.trans hx
          exact ⟨rfl, rfl, fun w' => ⟨_, .refl _, .ahead (hfail _ ▸ .losing row _ hrow) free⟩⟩
        | timedOut hx => cases refused.symm.trans hx
        | @deadlocked cycle _ _ => exact (he cycle rfl).elim
        | failedBefore fault =>
          exact ⟨rfl, rfl, hfail _ ▸ C.follow (Job.closing_failing fault) free _⟩
        | failedAfter fault hx =>
          cases refused.symm.trans hx
          exact ⟨rfl, rfl, hfail _ ▸ C.follow (Job.closing_failing fault) free _⟩
    | losing row session hrow =>
      cases hp.trans Job.failing_unique
      obtain ⟨rfl, answered⟩ := met_rollback free hm
      refine ⟨rfl, rfl, fun w' => ?_⟩
      rcases answered with ⟨rfl, rfl⟩ | ⟨fault, rfl⟩
      · exact ⟨_, .refl _, .ahead (.rereading row hrow) free⟩
      · exact C.follow (Job.closing_raised ⟨fault, rfl⟩) free session' w'
    | rereading row hrow =>
      obtain ⟨k', hk, hfound, hraised⟩ := Job.reread_closing sha256 job
      cases hp.trans hk
      obtain ⟨rfl, answered⟩ := met_getKey hm he
      refine ⟨rfl, rfl, fun w' => ?_⟩
      rcases answered with rfl | ⟨fault, rfl⟩
      · exact C.follow (hrow ▸ hfound _ row hrow) free session' w'
      · exact C.follow (hraised _ ▸ Job.closing_raised ⟨fault, rfl⟩) free session' w'
    | closing session hq hok herror =>
      cases hp
      obtain ⟨rfl, follow⟩ := C.met hq hok herror free hm
      exact ⟨rfl, rfl, follow⟩

section runs

variable {sha256 : String → String} {es : List Event} {w w' : World} {e : Event}

theorem keepsKeys_of_step (ran : run (World.step (serveRequest sha256)) World.init es = some w)
    (hstep : w.step (serveRequest sha256) e = some w') :
    w.server.committed.KeepsKeys w'.server.committed := by
  exact (Inv.books ran).keepsKeys (Inv.books (run_next ran hstep)) (World.step_cases hstep).history

theorem plain_follows (ran : run (World.step (serveRequest sha256)) World.init es = some w) :
    ∃ es' w', run (World.step (plainServeRequest sha256)) World.init es' = some w' ∧
      Lockstep (Job.claim sha256) (Fast sha256) w w' ∧
      observe (World.step (plainServeRequest sha256)) World.commits World.init es' =
        observe (World.step (serveRequest sha256)) World.commits World.init es := by
  refine run_simulation (P := fun es w es' w' => Lockstep (Job.claim sha256) (Fast sha256) w w' ∧
      observe (World.step (plainServeRequest sha256)) World.commits World.init es' =
        observe (World.step (serveRequest sha256)) World.commits World.init es)
    ⟨⟨rfl, rfl, fun _ => .same _⟩, rfl⟩ ?next ran
  rintro es w es' w' e w₁ ran ran' ⟨h, same⟩ hstep
  have inv := Inv.of_run ran
  obtain ⟨fs, w₁', hfs, h₁, same₁⟩ := h.step (fast_leads sha256) hstep
    (fun _ => inv.unlocked) inv.deadlock_eq_none fun _ _ _ => keepsKeys_of_step ran hstep
  refine ⟨fs, w₁', hfs, h₁, ?_⟩
  rw [observe_append _ ran', observe_append _ ran, observe_singleton _ hstep, same, same₁]

theorem real_follows (ran : run (World.step (plainServeRequest sha256)) World.init es = some w) :
    ∃ es' w', run (World.step (serveRequest sha256)) World.init es' = some w' ∧
      Lockstep (Job.reading sha256) (Slow sha256) w w' ∧
      observe (World.step (serveRequest sha256)) World.commits World.init es' =
        observe (World.step (plainServeRequest sha256)) World.commits World.init es := by
  refine run_simulation (P := fun es w es' w' => Lockstep (Job.reading sha256) (Slow sha256) w w' ∧
      observe (World.step (serveRequest sha256)) World.commits World.init es' =
        observe (World.step (plainServeRequest sha256)) World.commits World.init es)
    ⟨⟨rfl, rfl, fun _ => .same _⟩, rfl⟩ ?next ran
  rintro es w es' w' e w₁ ran ran' ⟨h, same⟩ hstep
  -- the invariant is known of the run that follows
  have inv := Inv.of_run ran'
  have unlocked (q : Nat) (absent : w.party q = none) : w.server.locks.Holds q [] := by
    have := h.job_eq q
    rw [absent, Option.map_none, Option.map_eq_none_iff] at this
    exact h.server ▸ inv.unlocked this
  have acyclic (q : Nat) (cycle : List Nat) :
      w.step (plainServeRequest sha256) (.deadlock q cycle) = none :=
    World.deadlock_eq_none (h.acyclic inv.acyclic) q cycle
  obtain ⟨fs, w₁', hfs, h₁, same₁⟩ := h.step (slow_leads sha256) hstep unlocked acyclic
    fun w₁' hstep' hc => by
      rw [← h.server, ← hc]
      exact keepsKeys_of_step ran' hstep'
  refine ⟨fs, w₁', hfs, h₁, ?_⟩
  rw [observe_append _ ran', observe_append _ ran, observe_singleton _ hstep, same, same₁]

end runs

structure Indistinguishable {app app' : Job → App Response} (x : Run app) (y : Run app') :
    Prop where
  requests : ∀ r, (x.last.party r).map Party.job = (y.last.party r).map Party.job
  answers : ∀ r, x.last.answer r = y.last.answer r
  commits : observe (World.step app) World.commits World.init x.events =
    observe (World.step app') World.commits World.init y.events
  history : x.last.server.history = y.last.server.history

theorem fast_path_only_optimises (sha256 : String → String) :
    (∀ x : Run (serveRequest sha256), ∃ y : Run (plainServeRequest sha256),
      Indistinguishable x y) ∧
    ∀ y : Run (plainServeRequest sha256), ∃ x : Run (serveRequest sha256),
      Indistinguishable x y := by
  refine ⟨fun x => ?_, fun y => ?_⟩
  · obtain ⟨es', w', ran', h, same⟩ := plain_follows x.ran
    refine ⟨⟨es', w', ran'⟩, fun r => (h.job_eq r).symm, fun r => ?_, same.symm, ?_⟩
    · exact (h.answer_eq (fast_leads sha256) r).symm
    · rw [h.server]
  · obtain ⟨es', w', ran', h, same⟩ := real_follows y.ran
    refine ⟨⟨es', w', ran'⟩, fun r => h.job_eq r, fun r => ?_, same, ?_⟩
    · exact h.answer_eq (slow_leads sha256) r
    · rw [h.server]

end Ledger
