import Ledger.Canonical
import Ledger.Conservation
import Ledger.Deadlock

namespace Ledger

open Lib

/-! A request that fails might as well not have been sent. -/

inductive Act
  | arrived (r : Nat) (request : Request) (draws : Draws)
  | called (r : Nat) (c : Call)

def Act.actor : Act → Nat
  | .arrived r _ _ => r
  | .called r _ => r

namespace World

def pending? (w : World) (r : Nat) : Option Call :=
  (w.party r).bind fun p =>
    match p.prog with
    | .call c _ => some c
    | _ => none

def called (w : World) (r : Nat) : List Act :=
  match w.pending? r with
  | none => []
  | some (.log _) => []
  | some c => [.called r c]

def acts (w : World) (e : Event) (_ : World) : List Act :=
  match e with
  | .arrive r request draws => [.arrived r request draws]
  | .serve r | .timeout r | .deadlock r _ | .failBefore r _ | .failAfter r _ => w.called r
  | .kill _ | .crash _ | .tick _ => []

def commits (w : World) (_ : Event) (w' : World) : List Tables :=
  if w'.server.history.length = w.server.history.length then [] else [w'.server.committed]

theorem actor_of_called {w : World} {r : Nat} {act : Act} (h : act ∈ w.called r) :
    act.actor = r := by
  unfold called at h
  split at h
  · cases h
  · cases h
  · obtain rfl := List.mem_singleton.mp h
    rfl

theorem actor_of_acts {w w' : World} {e : Event} {act : Act} (h : act ∈ w.acts e w') :
    e.actor = some act.actor := by
  cases e with
  | arrive r request draws =>
    obtain rfl := List.mem_singleton.mp h
    rfl
  | kill r => cases h
  | crash r => cases h
  | tick d => cases h
  | _ => exact congrArg some (actor_of_called h).symm

theorem acts_congr {w w' : World} {e : Event}
    (h : ∀ q, e.actor = some q → w'.called q = w.called q) (w₁ w₁' : World) :
    w'.acts e w₁' = w.acts e w₁ := by
  cases e with
  | arrive r request draws => rfl
  | kill r => rfl
  | crash r => rfl
  | tick d => rfl
  | _ => exact h _ rfl

theorem called_congr {w w' : World} {q : Nat} (h : w'.party q = w.party q) :
    w'.called q = w.called q := by
  simp [called, pending?, h]

theorem acts_other {w w₁ : World} {e : Event} {R : Nat} (he : e.actor ≠ some R) :
    (w.acts e w₁).filter (·.actor ≠ R) = w.acts e w₁ := by
  rw [List.filter_eq_self]
  intro act hact
  have hne : act.actor ≠ R := by
    rintro rfl
    exact he (actor_of_acts hact)
  simpa using hne

theorem acts_own {w w₁ : World} {e : Event} {R : Nat} (he : e.actor = some R) :
    (w.acts e w₁).filter (·.actor ≠ R) = [] := by
  rw [List.filter_eq_nil_iff]
  intro act hact
  simpa using (Option.some.inj ((actor_of_acts hact).symm.trans he))

theorem commits_eq_nil {w w₁ : World} {e : Event}
    (h : w₁.server.history = w.server.history) : w.commits e w₁ = [] := by
  simp [commits, h]

end World

namespace Job

variable (sha256 : String → String) (job : Job)

def timedOut : App Response :=
  .call (.log (.lockTimeout job.operation job.key)) fun
    | .ok _ => .pure (.envelope .busy true)
    | .error e => handleException e

theorem failing_lockTimeout : job.failing sha256 (.operational (some .lockNotAvailable)) =
    .call .rollback fun
      | .ok _ => job.timedOut
      | .error e => handleException e := by
  simp only [failing, onException, Prog.monad_bind, Prog.perform_bind, finish_call]
  congr 1
  funext reply
  cases reply with
  | ok x =>
    simp only [Prog.ofExcept_ok, Prog.pure_bind, if_true, finish_call, timedOut]
    congr 1
    funext reply
    cases reply with
    | ok x => exact finish_raise _
    | error e => exact finish_raise e
  | error e => exact finish_raise e

theorem failing_fault (fault : Fault) : job.failing sha256 fault.exn =
    .call .rollback fun
      | .ok _ => handleException fault.exn
      | .error e => handleException e := by
  cases fault <;>
    · simp only [Fault.exn, failing, onException, Prog.monad_bind, Prog.perform_bind, finish_call]
      congr 1
      funext reply
      cases reply with
      | ok x => exact finish_raise _
      | error e => exact finish_raise e

theorem failing_connection : job.failing sha256 (.operational none) =
    .call .rollback fun
      | .ok _ => handleException (.operational none)
      | .error e => handleException e :=
  job.failing_fault sha256 .connection

end Job

theorem handleException_fault (fault : Fault) : handleException fault.exn =
    .call (.log (.unhandledError fault.exn)) fun
      | .ok _ => .pure (.envelope .unexpected false)
      | .error _ => .pure .plainText := by
  cases fault <;>
    · simp only [Fault.exn, handleException, Prog.monad_bind, Prog.perform_bind,
        Prog.tryExcept_call]
      congr 1
      funext reply
      cases reply <;> rfl

namespace Server

variable {s s' : Server} {q R : Nat} {job : Job} {session session' : Session} {c : Call}
  {reply : Except Exn c.Reply}

theorem release_comm (s : Server) (q R : Nat) :
    (s.release q).release R = (s.release R).release q := by
  simp [release, Locks.release_comm]

theorem exec_release (hq : R ≠ q) (h : s.exec q job session c = some (s', session', reply)) :
    (s.release R).exec q job session c = some (s'.release R, session', reply) := by
  unfold exec at h ⊢
  rw [release_committed, release_clock]
  cases he : s.committed.effect s.clock session c with
  | locked x tx rep =>
    rw [he] at h
    obtain ⟨locks, hl, h⟩ := Option.map_eq_some_iff.mp h
    cases h
    simp [release, Locks.acquire_release hq hl]
  | stay rep => rw [he] at h; cases h; rfl
  | done tx rep => rw [he] at h; cases h; rfl
  | failed e => rw [he] at h; cases h; simp [release_comm]
  | committed tx rep =>
    rw [he] at h
    cases h
    simp [release, Locks.release_comm]
  | rolledBack rep => rw [he] at h; cases h; simp [release_comm]

end Server

def Session.Inactive (session : Session) : Prop := ∀ tx, session ≠ .active tx

theorem Session.inactive_idle : Session.idle.Inactive := by simp [Inactive]

theorem Session.inactive_broken : Session.broken.Inactive := by simp [Inactive]

/-- A party, and what becomes of it when a request that it waited for in vain is not there: it
fails all the same. -/
inductive Shadow (sha256 : String → String) : Option Party → Option Party → Prop
  | same (p : Option Party) : Shadow sha256 p p
  | failing (job : Job) (session : Session) : session.Inactive →
      Shadow sha256 (some ⟨job, job.failing sha256 (.operational (some .lockNotAvailable)),
        .broken⟩)
        (some ⟨job, job.failing sha256 (.operational none), session⟩)
  | timedOut (job : Job) : Shadow sha256 (some ⟨job, job.timedOut, .idle⟩)
      (some ⟨job, handleException Fault.connection.exn, .idle⟩)
  | upset (job : Job) (fault fault' : Fault) (session session' : Session) :
      session.Inactive → session'.Inactive →
      Shadow sha256 (some ⟨job, handleException fault.exn, session⟩)
        (some ⟨job, handleException fault'.exn, session'⟩)

structure Without (sha256 : String → String) (R : Nat) (w w' : World) : Prop where
  server : w'.server = w.server.release R
  absent : w'.party R = none
  shadow : ∀ q ≠ R, Shadow sha256 (w.party q) (w'.party q)
  drawn : w'.drawn.Sublist w.drawn

namespace Without

variable {sha256 : String → String} {R q : Nat} {w w' w₁ w₁' : World} {e : Event}

theorem init : Without sha256 R World.init World.init where
  server := by
    have : Locks.release (fun _ : Resource => (none : Option Nat)) R = fun _ => none := by
      funext x
      simp [Locks.release]
    simp [World.init, Server.release, Server.init, this]
  absent := rfl
  shadow := fun _ _ => .same _
  drawn := List.Sublist.refl _

theorem committed (h : Without sha256 R w w') : w'.server.committed = w.server.committed := by
  rw [h.server, Server.release_committed]

theorem history (h : Without sha256 R w w') : w'.server.history = w.server.history := by
  rw [h.server, Server.release_history]

theorem commits_eq (h : Without sha256 R w w') (h₁ : Without sha256 R w₁ w₁') (e e' : Event) :
    w'.commits e' w₁' = w.commits e w₁ := by
  rw [World.commits, World.commits, h.history, h₁.history, h₁.committed]

theorem own (h : Without sha256 R w w') (stepped : w.Stepped (serveRequest sha256) e w₁)
    (he : e.actor = some R) (hc : w₁.server.committed = w.server.committed)
    (hh : w₁.server.history = w.server.history) : Without sha256 R w₁ w' where
  server := by
    have locks : w₁.server.locks.release R = w.server.locks.release R :=
      Locks.release_congr fun q hq x => (stepped.other (by simp [he, hq.symm])).2 x
    rw [h.server]
    simp [Server.release, locks, hc, hh, stepped.clock he]
  absent := h.absent
  shadow := fun q hq => (stepped.other (q := q) (by simp [he, hq.symm])).1 ▸ h.shadow q hq
  drawn := h.drawn.trans stepped.drawn.sublist

theorem put (h : Without sha256 R w w') (hq : q ≠ R) {p p' : Party} (server : Server)
    (calls : (∃ c k, p.prog = .call c k) ↔ ∃ c k, p'.prog = .call c k)
    (shadow : Shadow sha256 (some p.closed) (some p'.closed)) :
    Without sha256 R (w.put q p server) (w'.put q p' (server.release R)) where
  server := by
    by_cases hp : ∃ c k, p.prog = .call c k
    · obtain ⟨c, k, hp'⟩ := calls.mp hp
      obtain ⟨c, k, hp⟩ := hp
      rw [World.put_call hp, World.put_call hp']
    · have hp' := mt calls.mpr hp
      push Not at hp hp'
      rw [World.put_finished hp, World.put_finished hp', Server.release_comm]
  absent := (World.put_other hq.symm).trans h.absent
  shadow := by
    intro o ho
    by_cases hoq : o = q
    · subst hoq
      simpa using shadow
    · rw [World.put_other hoq, World.put_other hoq]
      exact h.shadow o ho
  drawn := by simpa using h.drawn

theorem met (h : Without sha256 R w w') (inv : ∀ r cycle,
      w.step (serveRequest sha256) (.deadlock r cycle) = none) (hq : q ≠ R) {job : Job}
    {c : Call} {k : Except Exn c.Reply → App Response} {session session' : Session}
    {server : Server} {reply : Except Exn c.Reply}
    (hp : w.party q = some ⟨job, .call c k, session⟩)
    (hm : w.Met q job session c e server session' reply)
    (others : ¬ (e = .timeout q ∧ w.WaitsFor q R)) :
    w'.Met q job session c e (server.release R) session' reply := by
  cases hm with
  | served hx => exact .served (h.server ▸ Server.exec_release hq.symm hx)
  | timedOut hx =>
    have : w'.server.exec q job session c = none := by
      obtain ⟨x, tx, rep, heffect, o, ho, hx'⟩ := Server.exec_eq_none.mp hx
      have hne : o ≠ R := by
        rintro rfl
        have hwants := World.wants_eq_some.mpr
          ⟨job, c, k, session, hp, hx, Tables.effect_locked heffect⟩
        exact others ⟨rfl, hq, x, hwants, hx'⟩
      rw [h.server]
      exact Server.exec_eq_none.mpr
        ⟨x, tx, rep, heffect, o, ho, (Locks.release_other hne x).mpr hx'⟩
    rw [Server.release_comm, ← h.server]
    exact .timedOut this
  | deadlocked hx chain =>
    have stepped : w.Stepped (serveRequest sha256) _ _ := .met hp (.deadlocked hx chain)
    have := World.step_of_stepped stepped
    rw [inv] at this
    cases this
  | failedBefore fault => exact h.server ▸ .failedBefore fault
  | failedAfter fault hx => exact .failedAfter fault (h.server ▸ Server.exec_release hq.symm hx)

theorem alike (h : Without sha256 R w w') (inv : ∀ r cycle,
      w.step (serveRequest sha256) (.deadlock r cycle) = none)
    (hstep : w.step (serveRequest sha256) e = some w₁) (he : e.actor ≠ some R)
    (same : ∀ q, e.actor = some q → w'.party q = w.party q)
    (others : ∀ q, ¬ (e = .timeout q ∧ w.WaitsFor q R)) :
    ∃ w₁', w'.step (serveRequest sha256) e = some w₁' ∧ Without sha256 R w₁ w₁' ∧
      ∀ q, e.actor = some q → w₁'.party q = w₁.party q := by
  cases World.step_cases hstep with
  | @arrived q request draws absent fresh =>
    have hq : q ≠ R := fun hq => he (congrArg some hq)
    have fresh' : (w'.drawn ++ draws.toList).Nodup :=
      fresh.sublist (h.drawn.append (List.Sublist.refl _))
    have drawn : Without sha256 R { w with drawn := w.drawn ++ draws.toList }
        { w' with drawn := w'.drawn ++ draws.toList } :=
      ⟨h.server, h.absent, h.shadow, h.drawn.append (List.Sublist.refl _)⟩
    refine ⟨_, World.step_of_stepped (.arrived ((same q rfl).trans absent) fresh'), ?_, ?_⟩
    · exact h.server ▸ drawn.put hq _ Iff.rfl (.same _)
    · rintro _ ⟨⟩
      simp
  | @met e q job c k session session' server reply hp hm =>
    have actor : e.actor = some q := hm.actor
    have hq : q ≠ R := fun h => he (h ▸ actor)
    have hp' := (same q actor).trans hp
    refine ⟨_, World.step_of_stepped (.met hp' (h.met inv hq hp hm (others q))),
      h.put hq server Iff.rfl (.same _), fun q' hq' => ?_⟩
    cases actor.symm.trans hq'
    simp
  | @killed q job prog tx hp =>
    have hq : q ≠ R := fun hq => he (congrArg some hq)
    have hp' := (same q rfl).trans hp
    refine ⟨_, World.step_of_stepped (.killed hp'), ⟨?_, ?_, ?_, h.drawn⟩, ?_⟩
    · simp only [h.server, Server.release_comm]
    · simpa [hq.symm] using h.absent
    · intro o ho
      by_cases hoq : o = q
      · subst hoq
        simpa using Shadow.same _
      · simpa [hoq] using h.shadow o ho
    · rintro _ ⟨⟩
      simp
  | @crashed q job c k session hp =>
    have hq : q ≠ R := fun hq => he (congrArg some hq)
    have hp' := (same q rfl).trans hp
    refine ⟨_, World.step_of_stepped (.crashed hp'), ?_, ?_⟩
    · exact h.server ▸ h.put hq _ Iff.rfl (.same _)
    · rintro _ ⟨⟩
      simp
  | ticked d =>
    refine ⟨_, rfl, ⟨by simp [h.server, Server.release], h.absent, h.shadow, h.drawn⟩, ?_⟩
    rintro _ ⟨⟩

end Without

structure Follows (sha256 : String → String) (R : Nat) (w w' : World) (e : Event) (w₁ : World)
    (es : List Event) (w₁' : World) : Prop where
  ran : run (World.step (serveRequest sha256)) w' es = some w₁'
  without : Without sha256 R w₁ w₁'
  acts : observe (World.step (serveRequest sha256)) World.acts w' es =
    (w.acts e w₁).filter (·.actor ≠ R)
  commits : observe (World.step (serveRequest sha256)) World.commits w' es = w.commits e w₁
  actors : ∀ f ∈ es, f.actor ≠ some R

namespace Without

variable {sha256 : String → String} {R q : Nat} {w w' w₁ w₁' : World} {e : Event}

theorem follows_one (h : Without sha256 R w w') (he : e.actor ≠ some R)
    (hstep : w'.step (serveRequest sha256) e = some w₁') (h₁ : Without sha256 R w₁ w₁')
    (called : ∀ q, e.actor = some q → w'.called q = w.called q) :
    Follows sha256 R w w' e w₁ [e] w₁' where
  ran := run_singleton hstep
  without := h₁
  acts := by rw [observe_singleton _ hstep, World.acts_other he, World.acts_congr called]
  commits := by rw [observe_singleton _ hstep, h.commits_eq h₁]
  actors := by simpa using he

theorem follows_none (h₁ : Without sha256 R w₁ w') (hh : w₁.server.history = w.server.history)
    (acts : (w.acts e w₁).filter (·.actor ≠ R) = []) : Follows sha256 R w w' e w₁ [] w' where
  ran := rfl
  without := h₁
  acts := acts.symm
  commits := (World.commits_eq_nil hh).symm
  actors := by simp

theorem put_failing (h : Without sha256 R w w') (hq : q ≠ R) (job : Job) (server : Server)
    {session : Session} (hs : session.Inactive) : Without sha256 R
      (w.put q ⟨job, job.failing sha256 (.operational (some .lockNotAvailable)), .broken⟩ server)
      (w'.put q ⟨job, job.failing sha256 (.operational none), session⟩ (server.release R)) := by
  obtain ⟨k, hk⟩ := Job.failing_call sha256 job (.operational (some .lockNotAvailable))
  obtain ⟨k', hk'⟩ := Job.failing_call sha256 job (.operational none)
  refine h.put hq server ⟨fun _ => ⟨_, k', hk'⟩, fun _ => ⟨_, k, hk⟩⟩ ?_
  rw [Party.closed_of_call hk, Party.closed_of_call hk']
  exact .failing job session hs

theorem gaveUp (h : Without sha256 R w w') {es : List Event} (inv : Inv sha256 es w) (hq : q ≠ R)
    (hstep : w.step (serveRequest sha256) (.timeout q) = some w₁)
    (same : w'.party q = w.party q) :
    ∃ es' w₁', Follows sha256 R w w' (.timeout q) w₁ es' w₁' := by
  cases World.step_cases hstep with
  | @met _ q job c k session session' server reply hp hm =>
    cases hm with
    | timedOut hx =>
      have hp' := same.trans hp
      obtain ⟨-, hfail, waits⟩ := (inv.phases q _ hp).of_blocked rfl hx
      have called : w'.called q = w.called q := World.called_congr same
      rw [hfail]
      rcases waits with ⟨rfl, holds⟩ | ⟨tx, fp, rfl, -, allowed⟩
      · have released : w.server.release q = w.server := Server.release_of_holds_nil holds
        have stepped : w'.Stepped (serveRequest sha256) (.failBefore q .connection) _ :=
          .met hp' (.failedBefore .connection)
        rw [hfail, h.server] at stepped
        have hstep' := World.step_of_stepped stepped
        have without := h.put_failing hq job w.server Session.inactive_idle
        rw [released]
        refine ⟨[.failBefore q .connection], _, run_singleton hstep', without, ?_, ?_, ?_⟩
        · rw [observe_singleton _ hstep', World.acts_other (by simpa [Event.actor] using hq)]
          exact called
        · rw [observe_singleton _ hstep', World.commits_eq_nil (by simp [h.history]),
            World.commits_eq_nil (by simp)]
        · simpa [Event.actor] using hq
      · obtain ⟨m, hm⟩ : ∃ m : World, m = { w' with
            server := w'.server.release q
            party := Function.update w'.party q (some ⟨job, .call c k, .broken⟩) } := ⟨_, rfl⟩
        have kill : w'.step (serveRequest sha256) (.kill q) = some m :=
          hm ▸ World.step_of_stepped (.killed hp')
        have hpm : m.party q = some ⟨job, .call c k, .broken⟩ := by simp [hm]
        have hx : m.server.exec q job .broken c =
            some (m.server, .broken, .error (.operational none)) := by
          simp [Server.exec, Phase.effect_broken allowed.not_quiet]
        have stepped : m.Stepped (serveRequest sha256) (.serve q) _ := .met hpm (.served hx)
        have hput (p : Party) (server : Server) : m.put q p server = w'.put q p server := by
          simp [hm, World.put, Function.update_idem]
        have hserver : m.server = (w.server.release q).release R := by
          simp [hm, h.server, Server.release_comm]
        rw [hfail, hput, hserver] at stepped
        have serve := World.step_of_stepped stepped
        have without := h.put_failing hq job (w.server.release q) Session.inactive_broken
        refine ⟨[.kill q, .serve q], _, by simp [kill, serve], without, ?_, ?_, ?_⟩
        · have pending : m.called q = w.called q := by
            simp [World.called, World.pending?, hpm, hp]
          rw [World.acts_other (by simpa [Event.actor] using hq)]
          simpa [observe, kill, serve, World.acts] using pending
        · rw [World.commits_eq_nil (by simp)]
          simp [observe, kill, serve, World.commits, hserver, h.history]
        · simpa [Event.actor] using hq

theorem put_upset (h : Without sha256 R w w') (hq : q ≠ R) (job : Job) (server : Server)
    (fault fault' : Fault) {session session' : Session} (hs : session.Inactive)
    (hs' : session'.Inactive) : Without sha256 R
      (w.put q ⟨job, handleException fault.exn, session⟩ server)
      (w'.put q ⟨job, handleException fault'.exn, session'⟩ (server.release R)) := by
  have hk := handleException_fault fault
  have hk' := handleException_fault fault'
  refine h.put hq server ⟨fun _ => ⟨_, _, hk'⟩, fun _ => ⟨_, _, hk⟩⟩ ?_
  rw [Party.closed_of_call hk, Party.closed_of_call hk']
  exact .upset job fault fault' session session' hs hs'

theorem put_answer (h : Without sha256 R w w') (hq : q ≠ R) (job : Job) (server : Server)
    (a : Response) (session session' : Session) : Without sha256 R
      (w.put q ⟨job, .pure a, session⟩ server)
      (w'.put q ⟨job, .pure a, session'⟩ (server.release R)) :=
  h.put hq server (by simp) (.same _)

theorem step_failing (h : Without sha256 R w w') (hq : q ≠ R) {job : Job} {session : Session}
    (hp : w.party q =
      some ⟨job, job.failing sha256 (.operational (some .lockNotAvailable)), .broken⟩)
    (hp' : w'.party q = some ⟨job, job.failing sha256 (.operational none), session⟩)
    (hs : session.Inactive) (stepped : w.Stepped (serveRequest sha256) e w₁)
    (he : e.actor = some q) : ∃ es' w₁', Follows sha256 R w w' e w₁ es' w₁' := by
  have hR : e.actor ≠ some R := by simpa [he] using hq
  rw [Job.failing_lockTimeout] at hp
  rw [Job.failing_connection] at hp'
  have called : ∀ q, e.actor = some q → w'.called q = w.called q := by
    rintro _ hq'
    cases he.symm.trans hq'
    simp [World.called, World.pending?, hp, hp']
  have rollback : w'.server.exec q job session .rollback =
      some ((w.server.release q).release R, .idle, .ok ()) := by
    rw [Server.release_comm, ← h.server]
    rfl
  rcases stepped.pending hp he with ⟨server, session', reply, hm, rfl⟩ | ⟨rfl, rfl⟩ | ⟨-, tx, htx⟩
  · cases hm with
    | served hx =>
      cases hx
      have logs := handleException_fault .connection
      refine ⟨[.serve q], _, h.follows_one hR
        (World.step_of_stepped (.met hp' (.served rollback))) ?_ called⟩
      refine h.put hq _ ⟨fun _ => ⟨_, _, logs⟩, fun _ => ⟨_, _, rfl⟩⟩ ?_
      rw [Party.closed_of_call rfl, Party.closed_of_call logs]
      exact .timedOut job
    | timedOut hx => cases hx
    | deadlocked hx _ => cases hx
    | failedBefore fault =>
      exact ⟨[.failBefore q fault], _, h.follows_one hR
        (World.step_of_stepped (.met hp' (.failedBefore fault)))
        (h.server ▸ h.put_upset hq _ _ fault fault Session.inactive_broken hs) called⟩
    | failedAfter fault hx =>
      cases hx
      exact ⟨[.failAfter q fault], _, h.follows_one hR
        (World.step_of_stepped (.met hp' (.failedAfter fault rollback)))
        (h.put_upset hq _ _ fault fault Session.inactive_idle Session.inactive_idle) called⟩
  · exact ⟨[.crash q], _, h.follows_one hR (World.step_of_stepped (.crashed hp'))
      (h.server ▸ h.put_answer hq _ _ _ _ _) called⟩
  · cases htx

theorem step_timedOut (h : Without sha256 R w w') (hq : q ≠ R) {job : Job}
    (hp : w.party q = some ⟨job, job.timedOut, .idle⟩)
    (hp' : w'.party q = some ⟨job, handleException Fault.connection.exn, .idle⟩)
    (stepped : w.Stepped (serveRequest sha256) e w₁) (he : e.actor = some q)
    (final : ∀ a, w₁.answer q = some a → ¬ a.LockTimeout) :
    ∃ es' w₁', Follows sha256 R w w' e w₁ es' w₁' := by
  have hR : e.actor ≠ some R := by simpa [he] using hq
  have logs := handleException_fault .connection
  have silent : w.called q = [] := by simp [World.called, World.pending?, hp, Job.timedOut]
  have called : ∀ q, e.actor = some q → w'.called q = w.called q := by
    rintro _ hq'
    cases he.symm.trans hq'
    rw [silent]
    simp [World.called, World.pending?, hp', logs]
  have stays : w'.put q ⟨job, handleException Fault.connection.exn, .idle⟩ w'.server = w' := by
    rw [logs] at hp' ⊢
    exact World.put_eq_self hp'
  have follows (fault : Fault) (acts : w.acts e (w.put q ⟨job, handleException fault.exn, .idle⟩
      w.server) = []) : Follows sha256 R w w' e
        (w.put q ⟨job, handleException fault.exn, .idle⟩ w.server) [] w' := by
    refine follows_none ?_ (by simp) (by simp [acts])
    have idle := Session.inactive_idle
    have := h.put_upset hq job w.server fault .connection idle idle
    rwa [← h.server, stays] at this
  rcases stepped.pending hp he with ⟨server, session', reply, hm, rfl⟩ | ⟨rfl, rfl⟩ | ⟨-, tx, htx⟩
  · cases hm with
    | served hx =>
      cases hx
      exact (final (.envelope .busy true) (World.answer_eq.mpr ⟨_, World.put_self, rfl⟩)
        ⟨_, rfl⟩).elim
    | timedOut hx => cases hx
    | deadlocked hx _ => cases hx
    | failedBefore fault => exact ⟨[], w', follows fault silent⟩
    | failedAfter fault hx =>
      cases hx
      exact ⟨[], w', follows fault silent⟩
  · exact ⟨[.crash q], _, h.follows_one hR (World.step_of_stepped (.crashed (logs ▸ hp')))
      (h.server ▸ h.put_answer hq _ _ _ _ _) called⟩
  · cases htx

theorem step_upset (h : Without sha256 R w w') (hq : q ≠ R) {job : Job} {fault fault' : Fault}
    {session session' : Session}
    (hp : w.party q = some ⟨job, handleException fault.exn, session⟩)
    (hp' : w'.party q = some ⟨job, handleException fault'.exn, session'⟩)
    (hs : session.Inactive) (stepped : w.Stepped (serveRequest sha256) e w₁)
    (he : e.actor = some q) : ∃ es' w₁', Follows sha256 R w w' e w₁ es' w₁' := by
  have hR : e.actor ≠ some R := by simpa [he] using hq
  rw [handleException_fault] at hp hp'
  have called : ∀ q, e.actor = some q → w'.called q = w.called q := by
    rintro _ hq'
    cases he.symm.trans hq'
    simp [World.called, World.pending?, hp, hp']
  have written : w'.server.exec q job session' (.log (.unhandledError fault'.exn)) =
      some (w.server.release R, session', .ok ()) := by
    rw [h.server]
    rfl
  rcases stepped.pending hp he with ⟨server, session₁, reply, hm, rfl⟩ | ⟨rfl, rfl⟩ | ⟨-, tx, htx⟩
  · cases hm with
    | served hx =>
      cases hx
      exact ⟨[.serve q], _, h.follows_one hR (World.step_of_stepped (.met hp' (.served written)))
        (h.put_answer hq _ _ _ _ _) called⟩
    | timedOut hx => cases hx
    | deadlocked hx _ => cases hx
    | failedBefore fault =>
      exact ⟨[.failBefore q fault], _, h.follows_one hR
        (World.step_of_stepped (.met hp' (.failedBefore fault)))
        (h.server ▸ h.put_answer hq _ _ _ _ _) called⟩
    | failedAfter fault hx =>
      cases hx
      exact ⟨[.failAfter q fault], _, h.follows_one hR
        (World.step_of_stepped (.met hp' (.failedAfter fault written)))
        (h.put_answer hq _ _ _ _ _) called⟩
  · exact ⟨[.crash q], _, h.follows_one hR (World.step_of_stepped (.crashed hp'))
      (h.server ▸ h.put_answer hq _ _ _ _ _) called⟩
  · exact (hs _ htx).elim

/-- Every step of a run in which `R` does not commit is followed by the world without `R`. -/
theorem step (h : Without sha256 R w w') {es : List Event} (inv : Inv sha256 es w)
    (hstep : w.step (serveRequest sha256) e = some w₁) (unowned : ¬ w₁.CommittedBy R)
    (final : ∀ q ≠ R, ∀ a, w₁.answer q = some a → ¬ a.LockTimeout) :
    ∃ es' w₁', Follows sha256 R w w' e w₁ es' w₁' ∧
      ((∀ q ≠ R, w'.party q = w.party q) → (∀ q, ¬ (e = .timeout q ∧ w.WaitsFor q R)) →
        es' = [e].filter (·.actor ≠ some R) ∧ ∀ q ≠ R, w₁'.party q = w₁.party q) := by
  have stepped := World.step_cases hstep
  by_cases hR : e.actor = some R
  · have unchanged : w₁.server.committed = w.server.committed ∧
        w₁.server.history = w.server.history := by
      refine (inv.change stepped).resolve_right ?_
      rintro ⟨r, p, fp, tx, hr, hc⟩
      cases hR.symm.trans hr
      exact unowned ⟨⟨R, p.job, tx.startedAt⟩, by simp [hc.history], rfl⟩
    refine ⟨[], w', follows_none (h.own stepped hR unchanged.1 unchanged.2) unchanged.2
      (World.acts_own hR), fun same _ => ⟨by simp [hR], fun q hq => ?_⟩⟩
    rw [same q hq, (stepped.other (by simpa [hR] using hq.symm)).1]
  have alike (same : ∀ q, e.actor = some q → w'.party q = w.party q)
      (others : ∀ q, ¬ (e = .timeout q ∧ w.WaitsFor q R)) :
      ∃ w₁', Follows sha256 R w w' e w₁ [e] w₁' ∧
        ((∀ q ≠ R, w'.party q = w.party q) → ∀ q ≠ R, w₁'.party q = w₁.party q) := by
    obtain ⟨w₁', hstep', without, same₁⟩ := h.alike inv.deadlock_eq_none hstep hR same others
    refine ⟨w₁', h.follows_one hR hstep' without fun q hq => World.called_congr (same q hq),
      fun all q hq => ?_⟩
    by_cases hqe : e.actor = some q
    · exact same₁ q hqe
    · rw [(stepped.other hqe).1, ((World.step_cases hstep').other hqe).1, all q hq]
  have kept : [e] = [e].filter (·.actor ≠ some R) := by simp [hR]
  cases he : e.actor with
  | none =>
    obtain ⟨w₁', follows, same₁⟩ :=
      alike (by simp [he]) fun q ⟨ht, _⟩ => by simp [ht, Event.actor] at he
    exact ⟨[e], w₁', follows, fun same _ => ⟨kept, same₁ same⟩⟩
  | some q =>
    have hq : q ≠ R := fun hq => hR (hq ▸ he)
    by_cases same : w'.party q = w.party q
    · by_cases behind : e = .timeout q ∧ w.WaitsFor q R
      · obtain ⟨rfl, waits⟩ := behind
        obtain ⟨es', w₁', follows⟩ := h.gaveUp inv hq hstep same
        exact ⟨es', w₁', follows, fun _ others => (others q ⟨rfl, waits⟩).elim⟩
      · have others : ∀ q', ¬ (e = .timeout q' ∧ w.WaitsFor q' R) := by
          rintro q' ⟨rfl, waits⟩
          cases he
          exact behind ⟨rfl, waits⟩
        obtain ⟨w₁', follows, same₁⟩ :=
          alike (fun q' hq' => by cases he.symm.trans hq'; exact same) others
        exact ⟨[e], w₁', follows, fun same _ => ⟨kept, same₁ same⟩⟩
    · suffices ∃ es' w₁', Follows sha256 R w w' e w₁ es' w₁' by
        obtain ⟨es', w₁', follows⟩ := this
        exact ⟨es', w₁', follows, fun all _ => (same (all q hq)).elim⟩
      have shadow := h.shadow q hq
      generalize hp : w.party q = p at shadow
      generalize hp' : w'.party q = p' at shadow
      cases shadow with
      | same => exact (same (hp'.trans hp.symm)).elim
      | failing job session hs => exact h.step_failing hq hp hp' hs stepped he
      | timedOut job => exact h.step_timedOut hq hp hp' stepped he (final q hq)
      | upset job fault fault' session session' hs _ => exact h.step_upset hq hp hp' hs stepped he

end Without

theorem Shadow.answer {sha256 : String → String} {w w' : World} {q : Nat}
    (h : Shadow sha256 (w.party q) (w'.party q)) : w'.answer q = w.answer q := by
  unfold World.answer
  generalize w.party q = p at h
  generalize w'.party q = p' at h
  cases h with
  | same => rfl
  | failing job session _ =>
    simp [Job.failing_lockTimeout, Job.failing_connection]
  | timedOut job => simp [Job.timedOut, handleException_fault]
  | upset job fault fault' _ _ _ _ => simp [handleException_fault]

def Undelayed (sha256 : String → String) (R : Nat) (es : List Event) : Prop :=
  ∀ pre q m, pre ++ [.timeout q] <+: es →
    run (World.step (serveRequest sha256)) World.init pre = some m → ¬ m.WaitsFor q R

structure Erased (sha256 : String → String) (R : Nat) (es pre : List Event) (m : World)
    (pre' : List Event) (m' : World) : Prop where
  ran : run (World.step (serveRequest sha256)) World.init pre' = some m'
  without : Without sha256 R m m'
  acts : observe (World.step (serveRequest sha256)) World.acts World.init pre' =
    (observe (World.step (serveRequest sha256)) World.acts World.init pre).filter (·.actor ≠ R)
  commits : observe (World.step (serveRequest sha256)) World.commits World.init pre' =
    observe (World.step (serveRequest sha256)) World.commits World.init pre
  actors : ∀ e ∈ pre', e.actor ≠ some R
  undelayed : Undelayed sha256 R es →
    pre' = pre.filter (·.actor ≠ some R) ∧ ∀ q ≠ R, m'.party q = m.party q

theorem erased_of_run {sha256 : String → String} {R : Nat} {es : List Event} {w : World}
    (ran : run (World.step (serveRequest sha256)) World.init es = some w)
    (failed : ¬ w.CommittedBy R)
    (others : ∀ q a, q ≠ R → w.answer q = some a → ¬ a.LockTimeout) {pre : List Event} {m : World}
    (hm : run (World.step (serveRequest sha256)) World.init pre = some m) (hpre : pre <+: es) :
    ∃ pre' m', Erased sha256 R es pre m pre' m' := by
  refine run_induction (P := fun pre m => pre <+: es → ∃ pre' m', Erased sha256 R es pre m pre' m')
    ?start ?next hm hpre
  case start =>
    exact fun _ => ⟨[], World.init, rfl, .init, rfl, rfl, by simp, fun _ => ⟨rfl, fun _ _ => rfl⟩⟩
  case next =>
    intro pre m e m₁ hm ih hstep hpre
    obtain ⟨pre', m', erased⟩ := ih ((List.prefix_append _ _).trans hpre)
    have hm₁ : Earlier sha256 es (pre ++ [e]) m₁ := ⟨hpre, run_next hm hstep⟩
    obtain ⟨rest, hrest⟩ := hm₁.rest ran
    have unowned : ¬ m₁.CommittedBy R := mt (World.run_committedBy hrest) failed
    have final : ∀ q ≠ R, ∀ a, m₁.answer q = some a → ¬ a.LockTimeout := by
      intro q hq a ha
      obtain ⟨p, hp, hprog⟩ := World.answer_eq.mp ha
      obtain ⟨new, hnew, -, hprog⟩ := World.run_answer hrest hp hprog
      exact others q a hq (World.answer_eq.mpr ⟨new, hnew, hprog⟩)
    obtain ⟨es', m₁', follows, alike⟩ := erased.without.step (Inv.of_run hm) hstep unowned final
    refine ⟨pre' ++ es', m₁', run_concat erased.ran follows.ran, follows.without, ?_, ?_, ?_,
      fun quiet => ?_⟩
    · rw [observe_append _ erased.ran, observe_append _ hm, observe_singleton _ hstep, erased.acts,
        follows.acts, List.filter_append]
    · rw [observe_append _ erased.ran, observe_append _ hm, observe_singleton _ hstep,
        erased.commits, follows.commits]
    · intro f hf
      rcases List.mem_append.mp hf with hf | hf
      · exact erased.actors f hf
      · exact follows.actors f hf
    · obtain ⟨hpre', same⟩ := erased.undelayed quiet
      obtain ⟨hes', same₁⟩ := alike same fun q ⟨ht, waits⟩ => quiet pre q m (ht ▸ hpre) hm waits
      exact ⟨by rw [hpre', hes', List.filter_append], same₁⟩

theorem failure_leaves_no_influence {sha256 : String → String} (x : Run (serveRequest sha256))
    (R : Nat) (failed : ¬ x.last.CommittedBy R)
    (others : ∀ q a, q ≠ R → x.last.answer q = some a → ¬ a.LockTimeout) :
    (∃ y : Run (serveRequest sha256), (∀ e ∈ y.events, e.actor ≠ some R) ∧
      observe (World.step (serveRequest sha256)) World.acts World.init y.events =
        (observe (World.step (serveRequest sha256)) World.acts World.init x.events).filter
          (·.actor ≠ R) ∧
      observe (World.step (serveRequest sha256)) World.commits World.init y.events =
        observe (World.step (serveRequest sha256)) World.commits World.init x.events ∧
      (∀ q ≠ R, y.last.answer q = x.last.answer q) ∧
      y.last.server = x.last.server.release R ∧
      (Undelayed sha256 R x.events → y.events = x.events.filter (·.actor ≠ some R))) ∧
    (∀ row ∈ x.last.server.committed.idempotencyKeys,
      ∃ c ∈ x.last.server.history, c.owner ≠ R ∧ row = c.row sha256) ∧
    ∀ a, x.last.answer R = some a → ∀ lock, x.last.server.locks lock ≠ some R := by
  obtain ⟨es, w, erased⟩ := erased_of_run x.ran failed others x.ran List.prefix_rfl
  refine ⟨⟨⟨es, w, erased.ran⟩, erased.actors, erased.acts, erased.commits,
    fun q hq => (erased.without.shadow q hq).answer, erased.without.server,
    fun quiet => (erased.undelayed quiet).1⟩, fun row hrow => ?_, fun a ha lock hlock => ?_⟩
  · obtain ⟨c, hc, rfl⟩ := (Inv.books x.ran).mem_keys.mp hrow
    exact ⟨c, hc, fun ho => failed ⟨c, hc, ho⟩, rfl⟩
  · obtain ⟨p, c, k, hp, hk⟩ := (Inv.of_run x.ran).released R lock hlock
    obtain ⟨p', hp', hprog⟩ := World.answer_eq.mp ha
    cases hp.symm.trans hp'
    rw [hk] at hprog
    cases hprog

def duplicateWaits : Run (serveRequest swappedHash) :=
  .of (.arrive 0 ⟨some "key", .account {}⟩ ⟨1, 2, 3⟩ :: List.replicate 4 (.serve 0) ++
    .arrive 1 ⟨some "key", .account {}⟩ ⟨4, 5, 6⟩ :: List.replicate 2 (.serve 1) ++
    .kill 0 :: List.replicate 3 (.serve 0) ++ List.replicate 6 (.serve 1)) (by decide +kernel)

theorem duplicateWaits_unaffected : ∃ y : Run (serveRequest swappedHash),
    (∀ e ∈ y.events, e.actor ≠ some 0) ∧
    y.last.answer 1 = some (.outcome ⟨201, some (.account ⟨4, "0.0000", 0⟩), false⟩) := by
  have ha : duplicateWaits.last.answer 1 =
      some (.outcome ⟨201, some (.account ⟨4, "0.0000", 0⟩), false⟩) := rfl
  have hh : duplicateWaits.last.server.history.map Commit.owner = [1] := rfl
  have failed : ¬ duplicateWaits.last.CommittedBy 0 := by
    rintro ⟨c, hc, ho⟩
    have := List.mem_map_of_mem (f := Commit.owner) hc
    simp [hh, ho] at this
  have others (q : Nat) (a : Response) (hq : q ≠ 0)
      (h : duplicateWaits.last.answer q = some a) : ¬ a.LockTimeout := by
    obtain ⟨p, hp, -⟩ := World.answer_eq.mp h
    obtain ⟨request, draws, hmem⟩ := World.arrived_of_party duplicateWaits.ran hp
    obtain rfl : q = 1 := by
      have actors : q ∈ duplicateWaits.events.filterMap Event.actor :=
        List.mem_filterMap.mpr ⟨_, hmem, rfl⟩
      rw [show duplicateWaits.events.filterMap Event.actor =
        [0, 0, 0, 0, 0, 1, 1, 1, 0, 0, 0, 0, 1, 1, 1, 1, 1, 1] from rfl] at actors
      simpa [hq] using actors
    cases ha.symm.trans h
    rintro ⟨message, hm⟩
    cases hm
  obtain ⟨⟨y, actors, -, -, answers, -⟩, -⟩ :=
    failure_leaves_no_influence duplicateWaits 0 failed others
  exact ⟨y, actors, (answers 1 (by decide)).trans ha⟩

end Ledger
