import Ledger.Influence
import Ledger.ExactlyOnce
import Ledger.Services
import Ledger.Lib.Monitor

namespace Ledger

open Lib

inductive Stage
  | looking
  | working
  | lost
  | rolledBack

def Stage.next : Stage → (c : Call) → Except Exn c.Reply → Stage
  | _, _, .error (.integrity (some .uniqueViolation)) => .lost
  | .lost, .rollback, .ok _ => .rolledBack
  | _, _, _ => .working

/-- The key is looked up at first and when the race for it is lost.  Then it is there, and nobody
has to report that it vanished. -/
def keyMonitor (key : String) : Monitor Call Call.Reply Exn Stage where
  admits
    | stage, .getKey key' => key' = key ∧ (stage = .looking ∨ stage = .rolledBack)
    | _, .log (.recordVanished _ _) => False
    | _, _ => True
  expects
    | .rolledBack, .getKey _, .ok none => False
    | _, _, _ => True
  next := Stage.next

def Told {α : Type} (result : Except Exn α) (stage : Stage) : Prop :=
  result = .error (.integrity (some .uniqueViolation)) → stage = .lost

theorem told_next (stage : Stage) (c : Call) (reply : Except Exn c.Reply) :
    Told reply (stage.next c reply) := by
  rintro rfl
  cases stage <;> rfl

theorem Told.error {α β : Type} {e : Exn} {stage : Stage}
    (h : Told (.error e : Except Exn α) stage) :
    Told (.error e : Except Exn β) stage :=
  fun he => h (congrArg _ (Except.error.inj he))

abbrev Heeds {α : Type} (key : String) (app : App α) (stage : Stage) : Prop :=
  app.Meets (keyMonitor key) (fun _ _ => True) stage

abbrev Careful {α : Type} (key : String) (app : App α) : Prop :=
  ∀ stage, app.Meets (keyMonitor key) Told stage

section services

variable {key : String} {α β : Type}

theorem Careful.heeds {app : App α} (h : Careful key app) (stage : Stage) : Heeds key app stage :=
  (h stage).mono fun _ _ _ => trivial

theorem Careful.pure (a : α) : Careful key (.pure a : App α) :=
  fun _ h => by cases h

theorem Careful.raise {e : Exn} (h : e ≠ .integrity (some .uniqueViolation)) :
    Careful key (.raise e : App α) :=
  fun _ he => (h (Except.error.inj he)).elim

theorem Careful.perform (c : Call)
    (admits : ∀ stage, (keyMonitor key).admits stage c := by exact fun _ => trivial) :
    Careful key (perform c) :=
  fun stage => .perform (admits stage) fun reply _ => told_next stage c reply

theorem Careful.bind {app : App α} (h : Careful key app) {f : α → App β}
    (hf : ∀ a, Careful key (f a)) : Careful key (app.bind f) :=
  fun stage => (h stage).bind (fun a stage _ => hf a stage) fun _ _ => Told.error

theorem Heeds.tryFinally_rollback {app : App α} {stage : Stage} (h : Heeds key app stage) :
    Heeds key (app.tryFinally (perform .rollback)) stage := by
  refine Prog.Meets.tryFinally h fun result stage _ => ⟨trivial, fun reply _ => ?_⟩
  cases reply <;> exact trivial

theorem Plain.careful {app : App α} (h : Plain app) : Careful key app := by
  intro stage
  refine h.meets (fun stage c hc => ?_) (fun a stage h => by cases h) (fun e stage he h => ?_)
    fun stage c e => (told_next stage c (.error e)).error
  · cases c with
    | getKey key => exact hc.elim
    | log line =>
      cases line with
      | recordVanished operation key => exact hc.elim
      | _ => exact trivial
    | _ => exact trivial
  · cases h
    exact he.elim

section execute_once

variable (operation : Operation) (requestHash : String)

theorem fastPath_heeds : Heeds key (fastPath key operation requestHash) .looking := by
  refine Heeds.tryFinally_rollback ⟨⟨rfl, .inl rfl⟩, fun reply _ => ?_⟩
  cases reply with
  | error e => exact trivial
  | ok existing =>
    cases existing with
    | none => exact trivial
    | some existing => exact ((replay_plain _ _ _ _).careful.bind fun _ => .pure _).heeds _

theorem replayWinner_heeds : Heeds key (replayWinner key operation requestHash) .rolledBack := by
  refine ⟨⟨rfl, .inr rfl⟩, fun reply expected => ?_⟩
  cases reply with
  | error e => exact trivial
  | ok winner =>
    cases winner with
    | none => exact expected.elim
    | some winner => exact (replay_plain _ _ _ _).careful.heeds _

theorem onException_heeds {e : Exn} {stage : Stage}
    (told : Told (.error e : Except Exn Outcome) stage) :
    Heeds key (onException key operation requestHash e) stage := by
  cases e with
  | integrity state =>
    refine ⟨trivial, fun reply _ => ?_⟩
    cases reply with
    | error e => exact trivial
    | ok reply =>
      simp only [Prog.ofExcept_ok, Prog.pure_bind]
      split
      · exact trivial
      · next hs =>
        obtain rfl := not_not.mp hs
        obtain rfl := told rfl
        exact replayWinner_heeds operation requestHash
  | data state =>
    refine Careful.heeds ((Careful.perform _).bind fun _ => ?_) stage
    split
    · exact .raise (by simp)
    · exact (Careful.perform _).bind fun _ => .raise (by simp)
  | operational state =>
    refine Careful.heeds ((Careful.perform _).bind fun _ => ?_) stage
    split
    · exact (Careful.perform _).bind fun _ => .raise (by simp)
    · split
      · exact (Careful.perform _).bind fun _ => .raise (by simp)
      · exact .raise (by simp)
  | ledger error =>
    exact ((Careful.perform _).bind fun _ => .raise (by simp)).heeds stage
  | other =>
    exact ((Careful.perform _).bind fun _ => .raise (by simp)).heeds stage

theorem executeOnce_heeds {work : IdempotencyKey → App (IdempotencyKey × Outcome)}
    (h : ∀ record, Plain (work record)) :
    Heeds key (executeOnce key operation requestHash work) .looking := by
  refine (fastPath_heeds operation requestHash).bind (fun replayed stage _ => ?_) fun _ _ _ =>
    trivial
  cases replayed with
  | some outcome => exact trivial
  | none =>
    have careful : Careful key (claimAndPerform key operation requestHash work) :=
      (claimAndPerform_plain key operation requestHash h).careful
    exact (careful stage).tryExcept (fun _ _ _ => trivial) fun e _ told =>
      onException_heeds operation requestHash told

end execute_once

theorem handleException_heeds (e : Exn) (stage : Stage) : Heeds key (handleException e) stage := by
  cases e with
  | ledger error => exact trivial
  | _ => exact ⟨trivial, fun reply _ => by cases reply <;> exact trivial⟩

theorem endpoint_heeds (sha256 : String → String) (job : Job) :
    Heeds job.key (endpoint sha256 job) .looking := by
  unfold endpoint
  split
  · exact trivial
  · next key hk =>
    obtain rfl : job.key = key := by simp [Job.key, hk, Except.toOption]
    split
    · next req _ =>
      unfold executeTransfer
      split
      · exact trivial
      · exact (executeOnce_heeds _ _ fun record => moveMoney_plain _ req record).bind
          (fun _ stage _ => (logTransfer_plain _ _ _ _).careful.heeds stage) fun _ _ _ => trivial
    · next req _ => exact executeOnce_heeds _ _ fun record => openAccount_plain _ req record

theorem serveRequest_heeds (sha256 : String → String) (job : Job) :
    Heeds job.key (serveRequest sha256 job) .looking := by
  refine (endpoint_heeds sha256 job).attempt_bind fun result stage _ => ?_
  cases result with
  | ok outcome => exact trivial
  | error e => exact handleException_heeds e stage

end services

def Stage.Sound (job : Job) (t : Tables) (session : Session) : Stage → Prop
  | .looking => session = .idle
  | .working => True
  | .lost => (t.key? job.key).isSome
  | .rolledBack => (t.key? job.key).isSome ∧ session = .idle

def Party.Heeding (p : Party) (t : Tables) : Prop :=
  ∃ stage : Stage, stage.Sound p.job t p.session ∧ Heeds p.job.key p.prog stage

namespace Party

variable {p : Party} {t t' : Tables}

theorem Heeding.later (h : p.Heeding t)
    (taken : (t.key? p.job.key).isSome → (t'.key? p.job.key).isSome) : p.Heeding t' := by
  obtain ⟨stage, sound, heeds⟩ := h
  refine ⟨stage, ?_, heeds⟩
  cases stage with
  | looking => exact sound
  | working => exact trivial
  | lost => exact taken sound
  | rolledBack => exact sound.imp_left taken

theorem heeding_of_finished (h : ∀ c k, p.prog ≠ .call c k) (t : Tables) : p.Heeding t := by
  refine ⟨.working, trivial, ?_⟩
  cases hp : p.prog with
  | pure a => exact trivial
  | raise e => exact trivial
  | call c k => exact (h c k hp).elim

theorem Heeding.closed (h : p.Heeding t) : p.closed.Heeding t := by
  cases hp : p.prog with
  | call c k => exact (closed_of_call hp).symm ▸ h
  | pure a => exact heeding_of_finished (by simp [hp]) t
  | raise e => exact heeding_of_finished (by simp [hp]) t

end Party

section run

variable {sha256 : String → String} {es : List Event} {w w' : World} {e : Event} {r : Nat}
  {p : Party}

theorem Inv.of_uniqueViolation (inv : Inv sha256 es w) {job : Job} {c : Call}
    {k : Except Exn c.Reply → App Response} {session session' : Session} {server : Server}
    (hp : w.party r = some ⟨job, .call c k, session⟩)
    (hm : w.Met r job session c e server session' (.error (.integrity (some .uniqueViolation)))) :
    e = .serve r ∧ .call c k = job.claim sha256 ∧ session = .idle ∧ ¬ w.CommittedBy r ∧
      (w.server.committed.key? job.key).isSome := by
  generalize hreply : (.error (.integrity (some .uniqueViolation)) : Except Exn c.Reply) =
    reply at hm
  cases hm with
  | served hx =>
    exact ⟨rfl, (inv.phases r _ hp).of_uniqueViolation rfl (inv.fresh hp) (hreply ▸ hx)⟩
  | timedOut _ => cases hreply
  | deadlocked _ _ => cases hreply
  | failedBefore fault => cases fault <;> cases hreply
  | failedAfter fault _ => cases fault <;> cases hreply

theorem Inv.heeding_met (inv : Inv sha256 es w) {job : Job} {c : Call}
    {k : Except Exn c.Reply → App Response} {session session' : Session} {server : Server}
    {reply : Except Exn c.Reply} (hp : w.party r = some ⟨job, .call c k, session⟩)
    (hm : w.Met r job session c e server session' reply)
    (heeding : Party.Heeding ⟨job, .call c k, session⟩ w.server.committed)
    (taken : (w.server.committed.key? job.key).isSome → (server.committed.key? job.key).isSome) :
    Party.Heeding ⟨job, k reply, session'⟩ server.committed := by
  obtain ⟨stage, sound, admits, heeds⟩ := heeding
  have expected : (keyMonitor job.key).expects stage c reply := by
    cases stage with
    | rolledBack =>
      cases c with
      | getKey key =>
        obtain ⟨(rfl : key = job.key), -⟩ := admits
        obtain ⟨taken, (rfl : session = .idle)⟩ := sound
        cases reply with
        | error e => exact trivial
        | ok found =>
          cases found with
          | some row => exact trivial
          | none =>
            cases hm with
            | served hx =>
              have gone : w.server.committed.key? job.key = none :=
                Except.ok.inj (congrArg (·.2.2) (Option.some.inj hx))
              rw [gone] at taken
              cases taken
      | _ => exact trivial
    | _ => exact trivial
  refine ⟨stage.next c reply, ?_, heeds reply expected⟩
  fun_cases Stage.next stage c reply with
  | case1 => exact taken (inv.of_uniqueViolation hp hm).2.2.2.2
  | case2 =>
    refine ⟨taken sound, ?_⟩
    cases hm with
    | served hx =>
      cases hx
      rfl
  | case3 => exact trivial

theorem Inv.heeding (ran : run (World.step (serveRequest sha256)) World.init es = some w)
    (hp : w.party r = some p) : p.Heeding w.server.committed := by
  refine run_induction (P := fun _ w => ∀ r p, w.party r = some p → p.Heeding w.server.committed)
    (fun r p hp => by cases hp) ?next ran r p hp
  intro es w e w' ran ih hstep r p hp
  have inv := Inv.of_run ran
  have stepped := World.step_cases hstep
  by_cases hr : e.actor = some r
  · cases stepped with
    | arrived absent _ =>
      cases hr
      rw [World.put_self] at hp
      cases hp
      rw [World.put_committed]
      exact Party.Heeding.closed ⟨.looking, rfl, serveRequest_heeds sha256 _⟩
    | @met _ r' job c k session session' server reply hp' hm =>
      obtain rfl := hm.eq_of_actor hr
      rw [World.put_self] at hp
      cases hp
      have taken : (w.server.committed.key? job.key).isSome → _ := inv.taken_mono (.met hp' hm)
      rw [World.put_committed] at taken ⊢
      exact (inv.heeding_met hp' hm (ih _ _ hp') taken).closed
    | @killed _ job prog tx hp' =>
      cases hr
      simp only [Function.update_self, Option.some.injEq] at hp
      cases hp
      obtain ⟨stage, sound, heeds⟩ := ih _ _ hp'
      refine ⟨stage, ?_, heeds⟩
      cases stage with
      | looking => cases sound
      | working => exact trivial
      | lost => exact sound
      | rolledBack => cases sound.2
    | crashed hp' =>
      cases hr
      rw [World.put_self] at hp
      cases hp
      exact Party.heeding_of_finished (by simp) _
    | ticked d => cases hr
  · rw [(stepped.other hr).1] at hp
    exact (ih r p hp).later (inv.taken_mono stepped)

end run

structure IdempotencyKey.Complete (row : IdempotencyKey) : Prop where
  resourceId : row.resourceId.isSome
  responseStatus : row.responseStatus.isSome
  responseBody : row.responseBody.isSome

theorem Commit.row_complete {sha256 : String → String} (c : Commit) : (c.row sha256).Complete :=
  ⟨rfl, rfl, rfl⟩

structure Winner (sha256 : String → String) (w : World) (r : Nat) (job : Job)
    (row : IdempotencyKey) : Prop where
  found : w.server.committed.key? job.key = some row
  others : ∃ c ∈ w.server.history, c.owner ≠ r ∧ c.row sha256 = row
  complete : row.Complete

namespace World

def Violates (w : World) (e : Event) (r : Nat) : Prop :=
  ∃ job c k session server session', w.party r = some ⟨job, .call c k, session⟩ ∧
    w.Met r job session c e server session' (.error (.integrity (some .uniqueViolation)))

def Reads (w : World) (r : Nat) (found : Option IdempotencyKey) : Prop :=
  ∃ job k session server session', w.party r = some ⟨job, .call (.getKey job.key) k, session⟩ ∧
    w.server.exec r job session (.getKey job.key) = some (server, session', .ok found)

theorem pending?_eq {w : World} {r : Nat} {p : Party} {c : Call} (hp : w.party r = some p)
    (h : w.pending? r = some c) : ∃ k, p.prog = .call c k := by
  simp only [pending?, hp, Option.bind_some] at h
  split at h
  · next c' k hprog =>
    cases h
    exact ⟨k, hprog⟩
  · cases h

end World

section run

variable {sha256 : String → String} {es : List Event} {w w' : World} {e : Event} {r : Nat}
  {p : Party}

theorem Winner.later {rest : List Event} {job : Job} {row : IdempotencyKey}
    (h : Winner sha256 w r job row)
    (ran : run (World.step (serveRequest sha256)) World.init es = some w)
    (next : run (World.step (serveRequest sha256)) w rest = some w') :
    Winner sha256 w' r job row := by
  obtain ⟨c, hc, hne, rfl⟩ := h.others
  have hc' := (World.run_history next).subset hc
  have hkey : (c.row sha256).key = job.key := Rows.key_of_lookup h.found
  refine ⟨?_, ⟨c, hc', hne, rfl⟩, h.complete⟩
  rw [← hkey]
  exact (Inv.books (run_concat ran next)).key_of_commit hc'

theorem Inv.reads (ran : run (World.step (serveRequest sha256)) World.init es = some w)
    (hp : w.party r = some p) {key : String} (h : w.pending? r = some (.getKey key)) :
    w.Reads r (w.server.committed.key? p.job.key) := by
  obtain ⟨k, hprog⟩ := World.pending?_eq hp h
  obtain ⟨stage, sound, heeds⟩ := Inv.heeding ran hp
  rw [hprog] at heeds
  obtain ⟨⟨rfl, hstage⟩, -⟩ := heeds
  have idle : p.session = .idle := by
    rcases hstage with rfl | rfl
    · exact sound
    · exact sound.2
  refine ⟨p.job, k, p.session, _, _, ?_, by rw [idle]; rfl⟩
  rw [hp, ← hprog]

theorem reread_of_violates {job : Job} {c : Call} {k : Except Exn c.Reply → App Response}
    {session session' : Session} {server : Server}
    (hp : w.party r = some ⟨job, .call c k, session⟩)
    (hm : w.Met r job session c e server session' (.error (.integrity (some .uniqueViolation))))
    (hk : k (.error (.integrity (some .uniqueViolation))) =
      job.failing sha256 (.integrity (some .uniqueViolation))) :
    ∃ w', run (World.step (serveRequest sha256)) w [e, .serve r] = some w' ∧
      w'.pending? r = some (.getKey job.key) := by
  obtain ⟨k₁, hfailing, hreread⟩ : ∃ k₁, job.failing sha256 (.integrity (some .uniqueViolation)) =
      .call .rollback k₁ ∧ k₁ (.ok ()) = job.reread sha256 := ⟨_, Job.failing_unique, rfl⟩
  obtain ⟨k₂, hread, -⟩ := Job.reread_settles sha256 job
  have lost : w.step (serveRequest sha256) e =
      some (w.put r ⟨job, .call .rollback k₁, session'⟩ server) := by
    rw [← hfailing, ← hk]
    exact World.step_of_stepped (.met hp hm)
  have hparty : (w.put r ⟨job, .call .rollback k₁, session'⟩ server).party r =
      some ⟨job, .call .rollback k₁, session'⟩ := World.put_self
  have rolledBack : World.step (serveRequest sha256) _ (.serve r) = some _ :=
    World.step_of_stepped (.met hparty (.served rfl))
  refine ⟨_, run_concat (run_singleton lost) (run_singleton rolledBack), ?_⟩
  simp [World.pending?, hreread, hread]

theorem Inv.lost_race (ran : run (World.step (serveRequest sha256)) World.init es = some w)
    (hp : w.party r = some p) (h : w.Violates e r) :
    w.pending? r = some (.insertKey (p.job.record sha256)) ∧
    ∃ row, Winner sha256 w r p.job row ∧
      (∃ w', run (World.step (serveRequest sha256)) w [e, .serve r] = some w' ∧
        w'.Reads r (some row)) ∧
      ∀ rest w', run (World.step (serveRequest sha256)) w (e :: rest) = some w' →
        Winner sha256 w' r p.job row ∧
          ∀ key, w'.pending? r = some (.getKey key) → w'.Reads r (some row) := by
  have inv := Inv.of_run ran
  obtain ⟨job, c, k, session, server, session', hp', hm⟩ := h
  cases hp.symm.trans hp'
  obtain ⟨rfl, hclaim, rfl, hown, taken⟩ := inv.of_uniqueViolation hp' hm
  obtain ⟨k', hk, -, hfail⟩ := Job.claim_eq sha256 job
  cases hclaim.trans hk
  obtain ⟨row, hrow⟩ := Option.isSome_iff_exists.mp taken
  obtain ⟨c, hc, rfl, -⟩ := (Inv.books ran).commit_of_key hrow
  have winner : Winner sha256 w r job (c.row sha256) :=
    ⟨hrow, ⟨c, hc, fun ho => hown ⟨c, hc, ho⟩, rfl⟩, c.row_complete⟩
  have later (rest : List Event) (w' : World)
      (next : run (World.step (serveRequest sha256)) w (.serve r :: rest) = some w') :
      Winner sha256 w' r job (c.row sha256) ∧
        ∀ key, w'.pending? r = some (.getKey key) → w'.Reads r (some (c.row sha256)) := by
    have still := winner.later ran next
    refine ⟨still, fun key hpending => ?_⟩
    obtain ⟨new, hnew, hjob⟩ := World.run_stays next hp
    have reads := Inv.reads (run_concat ran next) hnew hpending
    rwa [hjob, still.found] at reads
  obtain ⟨w', next, hpending⟩ := reread_of_violates hp' hm (hfail _)
  exact ⟨by simp [World.pending?, hp], _, winner,
    ⟨w', next, (later [.serve r] w' next).2 _ hpending⟩, later⟩

theorem Inv.not_vanished (ran : run (World.step (serveRequest sha256)) World.init es = some w)
    (hp : w.party r = some p) (retryAfter : Bool) :
    w.answer r ≠ some (.envelope .vanished retryAfter) := by
  intro ha
  obtain ⟨-, -, pre, m, clock, -, -, hs⟩ := Inv.decided ran hp ha (by simp [LedgerError.vanished])
    (by simp [LedgerError.vanished, LedgerError.unexpected])
    (by simp [LedgerError.vanished, LedgerError.Early])
  have decided := atomic_decided sha256 p.job clock m.server.committed
  rw [hs] at decided
  generalize hrow : (m.server.committed, Response.envelope .vanished retryAfter) = result at decided
  cases decided <;> cases congrArg Prod.snd hrow

end run

theorem lost_race_finds_winner {sha256 : String → String} (x : Run (serveRequest sha256)) {r : Nat}
    {p : Party} (hp : x.last.party r = some p) :
    (∀ e, x.last.Violates e r →
      x.last.pending? r = some (.insertKey (p.job.record sha256)) ∧
      ∃ row, Winner sha256 x.last r p.job row ∧
        (∃ w, run (World.step (serveRequest sha256)) x.last [e, .serve r] = some w ∧
          w.Reads r (some row)) ∧
        ∀ rest w, run (World.step (serveRequest sha256)) x.last (e :: rest) = some w →
          Winner sha256 w r p.job row ∧
            ∀ key, w.pending? r = some (.getKey key) → w.Reads r (some row)) ∧
    (∀ operation key, x.last.pending? r ≠ some (.log (.recordVanished operation key))) ∧
    (∀ retryAfter, x.last.answer r ≠ some (.envelope .vanished retryAfter)) ∧
    (∀ key, x.last.pending? r = some (.getKey key) → ∃ found, x.last.Reads r found ∧
      ∀ row, found = some row → row.Complete) ∧
    ∀ o, x.last.answer r = some (.outcome o) → o.body.isSome := by
  refine ⟨fun e => Inv.lost_race x.ran hp, fun operation key hpending => ?reported,
    Inv.not_vanished x.ran hp, fun key hpending => ⟨_, Inv.reads x.ran hp hpending, ?read⟩,
    fun o ha => ?answered⟩
  case reported =>
    obtain ⟨k, hprog⟩ := World.pending?_eq hp hpending
    obtain ⟨stage, -, heeds⟩ := Inv.heeding x.ran hp
    rw [hprog] at heeds
    cases stage <;> exact heeds.1
  case read =>
    intro row hrow
    obtain ⟨c, -, rfl, -⟩ := (Inv.books x.ran).commit_of_key hrow
    exact c.row_complete
  case answered =>
    obtain ⟨-, c, -, -, hbody, -⟩ := Inv.outcome x.ran hp ha
    simp [hbody]

def raced : Run (serveRequest swappedHash) :=
  .of (.arrive 0 ⟨some "key", .account {}⟩ ⟨1, 2, 3⟩ ::
    .arrive 1 ⟨some "key", .account {}⟩ ⟨4, 5, 6⟩ ::
    List.replicate 2 (.serve 0) ++ List.replicate 2 (.serve 1) ++ List.replicate 6 (.serve 0))
    (by decide +kernel)

theorem raced_finds_winner : ∃ row w,
    run (World.step (serveRequest swappedHash)) raced.last [.serve 1, .serve 1] = some w ∧
      w.Reads 1 (some row) ∧ row.Complete := by
  obtain ⟨p, hp⟩ : ∃ p, raced.last.party 1 = some p := ⟨_, rfl⟩
  have violates : raced.last.Violates (.serve 1) 1 := ⟨_, _, _, _, _, _, rfl, .served rfl⟩
  obtain ⟨-, row, winner, ⟨w, next, reads⟩, -⟩ := (lost_race_finds_winner raced hp).1 _ violates
  exact ⟨row, w, next, reads, winner.complete⟩

end Ledger
