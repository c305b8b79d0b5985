import Ledger.Answers
import Ledger.Deadlock
import Ledger.Services

namespace Ledger

open Lib

structure Exn.Calm (e : Exn) : Prop where
  lock : e ≠ .operational (some .lockNotAvailable)
  deadlock : e ≠ .operational (some .deadlockDetected)
  retry : ∀ message, e ≠ .ledger (.lockTimeout message)

abbrev Calm {α : Type} (app : App α) : Prop := app.Keeps Exn.Calm

section services

variable {sha256 : String → String}

theorem Plain.calm {α : Type} {app : App α} (h : Plain app) : Calm app :=
  h.keeps fun e he => by
    refine ⟨?_, ?_, ?_⟩
    · rintro rfl
      exact he
    · rintro rfl
      exact he
    · rintro message rfl
      exact he

section execute_once

variable (key : String) (operation : Operation) (requestHash : String)

theorem fastPath_calm : Calm (fastPath key operation requestHash) := by
  refine Prog.Keeps.tryFinally ((Prog.Keeps.perform _).bind fun existing => ?_)
    (Prog.Keeps.perform _)
  cases existing with
  | none => exact trivial
  | some existing => exact (replay_plain _ _ _ _).calm.bind fun _ => trivial

theorem replayWinner_calm : Calm (replayWinner key operation requestHash) := by
  refine (Prog.Keeps.perform _).bind fun winner => ?_
  cases winner with
  | none =>
    exact (Prog.Keeps.perform _).bind fun _ =>
      ⟨by simp, by simp, by simp [LedgerError.vanished]⟩
  | some winner => exact (replay_plain _ _ _ _).calm

theorem onException_calm {e : Exn} (h : e.Calm) :
    Calm (onException key operation requestHash e) := by
  cases e with
  | integrity state =>
    refine (Prog.Keeps.perform _).bind fun _ => ?_
    split
    · exact h
    · exact replayWinner_calm key operation requestHash
  | data state =>
    refine (Prog.Keeps.perform _).bind fun _ => ?_
    split
    · exact h
    · exact (Prog.Keeps.perform _).bind fun _ => ⟨by simp, by simp, by simp⟩
  | operational state =>
    refine (Prog.Keeps.perform _).bind fun _ => ?_
    split
    · next hs => exact (h.lock (congrArg Exn.operational hs)).elim
    · split
      · next hs => exact (h.deadlock (congrArg Exn.operational hs)).elim
      · exact h
  | ledger error => exact (Prog.Keeps.perform _).bind fun _ => h
  | other => exact (Prog.Keeps.perform _).bind fun _ => h

theorem executeOnce_calm {work : IdempotencyKey → App (IdempotencyKey × Outcome)}
    (h : ∀ record, Plain (work record)) :
    Calm (executeOnce key operation requestHash work) := by
  refine (fastPath_calm key operation requestHash).bind fun replayed => ?_
  cases replayed with
  | some outcome => exact trivial
  | none =>
    exact (claimAndPerform_plain key operation requestHash h).calm.tryExcept fun e he =>
      onException_calm key operation requestHash he

end execute_once

theorem endpoint_calm (sha256 : String → String) (job : Job) : Calm (endpoint sha256 job) := by
  unfold endpoint
  split
  · next e he =>
    refine ⟨by simp, by simp, fun message h => ?_⟩
    cases h
    rcases requireKey_error he with h | ⟨length, h⟩ <;> cases h
  · next key _ =>
    split
    · next req _ =>
      unfold executeTransfer
      split
      · exact ⟨by simp, by simp, by simp⟩
      · exact (executeOnce_calm _ _ _ fun record => moveMoney_plain _ req record).bind fun _ =>
          (logTransfer_plain _ _ _ _).calm
    · next req _ => exact executeOnce_calm _ _ _ fun record => openAccount_plain _ req record

theorem serveRequest_calm (sha256 : String → String) (job : Job) :
    (serveRequest sha256 job).Within (fun _ => True) Exn.Calm fun a => ¬ a.LockTimeout := by
  refine (endpoint_calm sha256 job).attempt_bind (fun outcome => ?_) fun e he => ?_
  · rintro ⟨message, h⟩
    cases h
  have bare : ¬ Response.plainText.LockTimeout := fun ⟨_, h⟩ => by cases h
  have unexpected : ¬ (Response.envelope .unexpected false).LockTimeout := fun ⟨_, h⟩ => by cases h
  cases e with
  | ledger error =>
    rintro ⟨message, h⟩
    cases h
    exact he.retry message rfl
  | _ => exact ⟨trivial, fun _ => unexpected, fun _ _ => bare⟩

end services

section server

variable {t : Tables} {clock : Timestamp} {session : Session} {c : Call}

def Effect.raised? {α : Type} : Effect α → Option Exn
  | .stay (.error e) | .done _ (.error e) | .failed e => some e
  | _ => none

theorem Exn.calm_of_state {state : Option SqlState} (h : state ≠ some .lockNotAvailable)
    (h' : state ≠ some .deadlockDetected) : (Exn.operational state).Calm :=
  ⟨by simpa using h, by simpa using h', by simp⟩

theorem inTx_calm {α : Type} {body : Tx → Effect α}
    (h : ∀ tx e, (body tx).raised? = some e → e.Calm)
    {e : Exn} (he : (inTx clock session body).raised? = some e) : e.Calm := by
  cases session with
  | idle => exact h _ e he
  | active tx => exact h _ e he
  | broken =>
    cases he
    exact Exn.calm_of_state (by simp) (by simp)

theorem Tables.effect_calm {e : Exn} (h : (t.effect clock session c).raised? = some e) :
    e.Calm := by
  have balance {d : Decimal} {e : Exn} (h : Balance.ofDecimal d = .error e) : e.Calm := by
    rcases Balance.ofDecimal_error h with rfl | rfl <;> exact ⟨by simp, by simp, by simp⟩
  have integrity (state : Option SqlState) : (Exn.integrity state).Calm :=
    ⟨by simp, by simp, by simp⟩
  have other : Exn.other.Calm := ⟨by simp, by simp, by simp⟩
  cases c <;> unfold Tables.effect at h
  case getKey key => exact inTx_calm (fun tx e h => by cases h) h
  case insertKey row =>
    refine inTx_calm (fun tx e h => ?_) h
    split at h <;> cases h
    exact integrity _
  case lockAccount id =>
    refine inTx_calm (fun tx e h => ?_) h
    split at h <;> cases h
  case selectNow => exact inTx_calm (fun tx e h => by cases h) h
  case updateBalance id d =>
    refine inTx_calm (fun tx e h => ?_) h
    split at h
    · cases h
      exact other
    · split at h <;> cases h
      next hd => exact balance hd
  case insertEntry id transferId accountId d =>
    refine inTx_calm (fun tx e h => ?_) h
    split at h
    · next hd =>
      cases h
      rcases Amount.ofDecimal_error hd with rfl | rfl <;> exact ⟨by simp, by simp, by simp⟩
    · split at h
      · cases h
        exact integrity _
      · split at h <;> cases h
        exact integrity _
  case insertAccount id d d' =>
    refine inTx_calm (fun tx e h => ?_) h
    split at h
    · next hd =>
      cases h
      exact balance hd
    · next hd _ =>
      cases h
      exact balance hd
    · split at h <;> cases h
      exact integrity _
  case refreshAccount id =>
    refine inTx_calm (fun tx e h => ?_) h
    split at h <;> cases h
    exact other
  case updateKey key resourceId responseStatus responseBody =>
    refine inTx_calm (fun tx e h => ?_) h
    split at h <;> cases h
    exact other
  case commit =>
    refine inTx_calm (fun tx e h => ?_) h
    split at h <;> cases h
    next hd => exact checkDeferred_error hd ▸ integrity _
  case rollback => cases h
  case log line => cases h

theorem Server.exec_calm {s s' : Server} {me : Nat} {job : Job} {session' : Session} {e : Exn}
    (h : s.exec me job session c = some (s', session', .error e)) : e.Calm := by
  suffices h : (s.committed.effect s.clock session c).raised? = some e from Tables.effect_calm h
  unfold exec at h
  cases he : s.committed.effect s.clock session c with
  | locked x tx reply =>
    rw [he] at h
    obtain ⟨locks, -, h⟩ := Option.map_eq_some_iff.mp h
    cases h
  | stay reply => rw [he] at h; cases h; rfl
  | done tx reply => rw [he] at h; cases h; rfl
  | failed e => rw [he] at h; cases h; rfl
  | committed tx reply => rw [he] at h; cases h
  | rolledBack reply => rw [he] at h; cases h

end server

section run

variable {sha256 : String → String} {es : List Event} {w w' : World} {r : Nat} {p : Party}

def Event.Peaceful (e : Event) (r : Nat) : Prop :=
  ¬ e.Disturbs r ∧ e ≠ .timeout r

theorem Inv.within (ran : run (World.step (serveRequest sha256)) World.init es = some w)
    (peaceful : ∀ e ∈ es, e.Peaceful r) (hp : w.party r = some p) :
    p.prog.Within (fun _ => True) Exn.Calm fun a => ¬ a.LockTimeout := by
  refine run_induction (P := fun es w => (∀ e ∈ es, e.Peaceful r) → ∀ p, w.party r = some p →
    p.prog.Within (fun _ => True) Exn.Calm fun a => ¬ a.LockTimeout)
    (by simp [World.init]) ?next ran peaceful p hp
  intro es m e m' ran ih hstep peaceful p hp
  replace ih := ih fun e he => peaceful e (List.mem_append_left _ he)
  obtain ⟨calm, patient⟩ := peaceful e (by simp)
  have stepped := World.step_cases hstep
  by_cases hr : e.actor = some r
  · cases stepped with
    | arrived absent _ =>
      cases hr
      rw [World.put_self] at hp
      cases hp
      rw [Party.closed_prog]
      exact serveRequest_calm sha256 _
    | @met e r' job c k session session' server reply hp' hm =>
      obtain rfl := hm.eq_of_actor hr
      rw [World.put_self] at hp
      cases hp
      rw [Party.closed_prog]
      have within := ih _ hp'
      cases hm with
      | served hx =>
        cases reply with
        | ok reply => exact within.2.1 reply
        | error e => exact within.2.2 e (Server.exec_calm hx)
      | timedOut _ => exact (patient rfl).elim
      | deadlocked _ _ =>
        rw [(Inv.of_run ran).deadlock_eq_none] at hstep
        cases hstep
      | failedBefore fault => exact (calm (.inl ⟨fault, .inl rfl⟩)).elim
      | failedAfter fault _ => exact (calm (.inl ⟨fault, .inr rfl⟩)).elim
    | killed _ =>
      cases hr
      exact (calm (.inr (.inl rfl))).elim
    | crashed _ =>
      cases hr
      exact (calm (.inr (.inr rfl))).elim
    | ticked d => cases hr
  · rw [(stepped.other hr).1] at hp
    exact ih p hp

/-- The answer was earned, or it is the one that the tables called for at some moment. -/
theorem Inv.answered_in_peace (ran : run (World.step (serveRequest sha256)) World.init es = some w)
    (peaceful : ∀ e ∈ es, e.Peaceful r) (hp : w.party r = some p) (admitted : p.job.Admitted)
    {a : Response} (ha : w.answer r = some a) :
    (∃ c ∈ w.server.history, c.owner = r ∧ c.job = p.job ∧ a = .outcome c.outcome) ∨
      ¬ w.CommittedBy r ∧ ¬ a.Fresh ∧ ∃ pre m clock, Earlier sha256 es pre m ∧ Current r pre m ∧
        atomic sha256 p.job clock m.server.committed = (m.server.committed, a) := by
  have undisturbed : ¬ Disturbed es r := fun ⟨e, he, hd⟩ => (peaceful e he).1 hd
  cases Inv.grounds ran hp ha with
  | lockTimeout _ h =>
    obtain ⟨p', hp', hprog⟩ := World.answer_eq.mp ha
    cases hp.symm.trans hp'
    have within := Inv.within ran peaceful hp
    rw [hprog] at within
    exact (within h).elim
  | upset hd _ _ => exact (undisturbed hd).elim
  | lost hd => exact (undisturbed hd).elim
  | refused e _ h _ => exact (h admitted).elim
  | decided pre m clock hr hfresh _ hm hcurrent hs =>
    exact .inr ⟨hr, hfresh, pre, m, clock, hm, hcurrent, hs⟩
  | earned c hc ho hj => exact .inl ⟨c, hc, ho, hj, rfl⟩

end run

end Ledger
