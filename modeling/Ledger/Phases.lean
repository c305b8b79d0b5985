import Ledger.InFlight
import Ledger.Steps

namespace Ledger

open Lib

def Response.LockTimeout (a : Response) : Prop :=
  ∃ message, a = .envelope (.lockTimeout message) true

def Response.Fresh (a : Response) : Prop := ∃ o : Outcome, a = .outcome o ∧ o.replayed = false

/-- What is known of one request from the run so far. -/
structure Record where
  owned : Prop
  disturbed : Prop
  late : Prop
  /-- serving it alone would have given this answer and left the tables as they were -/
  justified : Response → Prop
  /-- serving it alone would have given this answer and the tables that it committed -/
  earned : Response → Prop

structure Record.Grows (g g' : Record) : Prop where
  disturbed : g.disturbed → g'.disturbed
  late : g.late → g'.late
  justified : ∀ a, g.justified a → g'.justified a
  earned : ∀ a, g.earned a → g'.earned a

def Event.Raises (e : Event) (r : Nat) : Prop :=
  ∃ fault, e = .failBefore r fault ∨ e = .failAfter r fault

structure Record.Meets (sha256 : String → String) (job : Job) (r : Nat) (w : World) (e : Event)
    (server : Server) (g g' : Record) : Prop extends g.Grows g' where
  kept : server.history = w.server.history → (g'.owned ↔ g.owned)
  raised : e.Raises r → g'.disturbed ∧ (g'.owned → g'.late)
  found : ∀ a clock, sequential (serveRequest sha256) job clock w.server.committed =
    (w.server.committed, .ok a) → g'.justified a
  won : ∀ a startedAt, server.history = w.server.history ++ [⟨r, job, startedAt⟩] →
    sequential (serveRequest sha256) job startedAt w.server.committed =
      (server.committed, .ok a) → g'.owned ∧ g'.earned a

/-- How far a request has come, and what its answer rests on. -/
inductive Phase (sha256 : String → String) (job : Job) (t : Tables) (holds : List Resource → Prop)
    (g : Record) : App Response → Session → Prop
  | reading : job.Admitted → ¬ g.owned → holds [] → Phase sha256 job t holds g
      (job.finish (executeOnce job.key job.operation (job.requestHash sha256) job.work)) .idle
  | missed (session : Session) : job.Admitted → ¬ g.owned → holds [] →
      Phase sha256 job t holds g (job.missed sha256) session
  | claiming : job.Admitted → ¬ g.owned → holds [] →
      Phase sha256 job t holds g (job.claim sha256) .idle
  | working {fp : Footprint} {tx : Tx} {prog : App Response} : job.Admitted → ¬ g.owned →
      holds fp.touched → job.Working sha256 fp prog → job.Reached sha256 t fp tx prog →
      Phase sha256 job t holds g prog (.active tx)
  | severed {c : Call} {k : Except Exn c.Reply → App Response} : ¬ g.owned → holds [] →
      g.disturbed → ¬ c.Quiet → (∀ e, k (.error e) = job.failing sha256 e) →
      Phase sha256 job t holds g (.call c k) .broken
  | losing (session : Session) : job.Admitted → ¬ g.owned → holds [] →
      (t.key? job.key).isSome → Phase sha256 job t holds g
        (job.failing sha256 (.integrity (some .uniqueViolation))) session
  | rereading : job.Admitted → ¬ g.owned → holds [] → (t.key? job.key).isSome →
      Phase sha256 job t holds g (job.reread sha256) .idle
  | settling {prog : App Response} (a : Response) (session : Session) : a.Settles prog →
      ¬ g.owned ∧ ¬ a.Fresh ∧ (a.LockTimeout ∨ g.justified a) ∨
        g.owned ∧ a.Fresh ∧ g.earned a →
      Phase sha256 job t holds g prog session
  | upset {prog : App Response} (session : Session) : Upset prog → g.disturbed →
      (g.owned → g.late) → Phase sha256 job t holds g prog session
  | lost (session : Session) : g.disturbed → Phase sha256 job t holds g (.pure .lost) session

section alone

theorem Response.Settles.alone {a : Response} {prog : App Response} (h : a.Settles prog)
    (t : Tables) (clock : Timestamp) (session : Session) :
    (prog.drive (alone clock) (t, session)).1.1 = t ∧
      (prog.drive (Ledger.alone clock) (t, session)).2 = .ok a := by
  refine Prog.Settles.drive (I := fun s : Tables × Session => s.1 = t) (fun s c hs hc => ?_) h rfl
  cases c with
  | rollback => exact ⟨hs, _, rfl⟩
  | log line => exact ⟨hs, _, rfl⟩
  | _ => exact hc.elim

variable {sha256 : String → String} {job : Job} {t : Tables} {clock : Timestamp}

theorem sequential_of_taken (admitted : job.Admitted) {row : IdempotencyKey}
    (h : t.key? job.key = some row) :
    sequential (serveRequest sha256) job clock t = (t, .ok (job.replayed sha256 row)) := by
  obtain ⟨k, hk, -, hsettles, -⟩ := Job.executeOnce_eq sha256 job
  have read : Ledger.alone clock (t, .idle) (.getKey job.key) =
      ((t, .active ⟨clock, []⟩), .ok (some row)) := by
    simp [Ledger.alone, Tables.effect, inTx, Tables.view, Tables.after, h]
  obtain ⟨ht, ha⟩ := (hsettles row).alone t clock (.active ⟨clock, []⟩)
  unfold sequential
  rw [serveRequest_of_admitted admitted, hk, Prog.drive_call _ read]
  exact Prod.ext ht ha

theorem Job.Reached.settle {fp : Footprint} {tx : Tx} {prog : App Response}
    (h : job.Reached sha256 t fp tx prog) (admitted : job.Admitted) {a : Response}
    (settles : a.Settles prog) :
    sequential (serveRequest sha256) job tx.startedAt t = (t, .ok a) := by
  obtain ⟨ht, ha⟩ := settles.alone t tx.startedAt (.active tx)
  unfold sequential
  rw [h.drive admitted]
  exact Prod.ext ht ha

theorem Job.Reached.decide {fp : Footprint} {tx : Tx} {c : Call}
    {k : Except Exn c.Reply → App Response} (h : job.Reached sha256 t fp tx (.call c k))
    (admitted : job.Admitted) {t' : Tables} {session : Session} {reply : Except Exn c.Reply}
    (answered : Ledger.alone tx.startedAt (t, .active tx) c = ((t', session), reply))
    {a : Response} (settles : a.Settles (k reply)) :
    sequential (serveRequest sha256) job tx.startedAt t = (t', .ok a) := by
  obtain ⟨ht, ha⟩ := settles.alone t' tx.startedAt session
  unfold sequential
  rw [h.drive admitted, Prog.drive_call _ answered]
  exact Prod.ext ht ha

end alone

theorem Call.Quiet.exec {c : Call} (h : c.Quiet) {s s' : Server} {me : Nat} {job : Job}
    {session session' : Session} {reply : Except Exn c.Reply}
    (hx : s.exec me job session c = some (s', session', reply)) :
    (∃ x, reply = .ok x) ∧ s'.history = s.history ∧ s'.committed = s.committed := by
  cases c with
  | rollback => cases hx; exact ⟨⟨_, rfl⟩, rfl, rfl⟩
  | log line => cases hx; exact ⟨⟨_, rfl⟩, rfl, rfl⟩
  | _ => exact h.elim

theorem Call.Quiet.exec_ne_none {c : Call} (h : c.Quiet) {s : Server} {me : Nat} {job : Job}
    {session : Session} : s.exec me job session c ≠ none := by
  cases c with
  | rollback => simp [Server.exec, Tables.effect]
  | log line => simp [Server.exec, Tables.effect]
  | _ => exact h.elim

namespace Job

variable {sha256 : String → String} {job : Job}

theorem failing_call (sha256 : String → String) (job : Job) (e : Exn) :
    ∃ k, job.failing sha256 e = .call .rollback k := by
  cases e <;> exact ⟨_, finish_call _ _⟩

theorem Working.isCall {fp : Footprint} {prog : App Response} (h : job.Working sha256 fp prog) :
    ∃ c k, prog = .call c k := by
  cases h with
  | failing e _ =>
    obtain ⟨k, hk⟩ := failing_call sha256 job e
    exact ⟨_, k, hk⟩
  | commit _ _ _ _ => exact ⟨_, _, rfl⟩
  | call _ _ _ _ => exact ⟨_, _, rfl⟩

end Job

namespace Phase

variable {sha256 : String → String} {job : Job} {t t' : Tables}
  {holds holds' : List Resource → Prop} {g g' : Record} {prog : App Response} {session : Session}

theorem later (h : Phase sha256 job t holds g prog session) (grows : g.Grows g')
    (owned : g'.owned ↔ g.owned)
    (hholds : (∃ c k, prog = .call c k) → ∀ xs, holds xs → holds' xs)
    (hkey : (t.key? job.key).isSome → (t'.key? job.key).isSome)
    (agrees : ∀ fp : Footprint, holds fp.touched → (∀ id ∈ fp.used, id ∈ job.draws.toList) →
      fp.Agrees t t') :
    Phase sha256 job t' holds' g' prog session := by
  cases h with
  | reading admitted hown hh =>
    obtain ⟨k, hk, -⟩ := Job.executeOnce_eq sha256 job
    exact .reading admitted (mt owned.mp hown) (hholds ⟨_, k, hk⟩ _ hh)
  | missed _ admitted hown hh =>
    exact .missed _ admitted (mt owned.mp hown) (hholds ⟨_, _, rfl⟩ _ hh)
  | claiming admitted hown hh =>
    obtain ⟨k, hk, -⟩ := Job.claim_eq sha256 job
    exact .claiming admitted (mt owned.mp hown) (hholds ⟨_, k, hk⟩ _ hh)
  | working admitted hown hh hw hr =>
    exact .working admitted (mt owned.mp hown) (hholds hw.isCall _ hh) hw
      (hr.transfer (agrees _ hh hr.used_mem))
  | severed hown hh hd hq hk =>
    exact .severed (mt owned.mp hown) (hholds ⟨_, _, rfl⟩ _ hh) (grows.disturbed hd) hq hk
  | losing _ admitted hown hh htaken =>
    obtain ⟨k, hk⟩ := Job.failing_call sha256 job _
    exact .losing _ admitted (mt owned.mp hown) (hholds ⟨_, k, hk⟩ _ hh) (hkey htaken)
  | rereading admitted hown hh htaken =>
    obtain ⟨k, hk, -⟩ := Job.reread_settles sha256 job
    exact .rereading admitted (mt owned.mp hown) (hholds ⟨_, k, hk⟩ _ hh) (hkey htaken)
  | settling a _ hs ha =>
    refine .settling a _ hs ?_
    rcases ha with ⟨hown, hfresh, ha⟩ | ⟨hown, hfresh, ha⟩
    · exact .inl ⟨mt owned.mp hown, hfresh, ha.imp_right (grows.justified a)⟩
    · exact .inr ⟨owned.mpr hown, hfresh, grows.earned a ha⟩
  | upset _ hu hd hl =>
    exact .upset _ hu (grows.disturbed hd) fun hown => grows.late (hl (owned.mp hown))
  | lost _ hd => exact .lost _ (grows.disturbed hd)

section call

variable {w : World} {r : Nat} {e : Event} {server : Server} {c : Call} {session' : Session}
  {k : Except Exn c.Reply → App Response} {reply : Except Exn c.Reply}

theorem upset_of_raised (h : Phase sha256 job t holds g prog session) (hp : prog = .call c k)
    {x : Exn} (hx : x.Raised) : Upset (k (.error x)) := by
  cases h with
  | reading _ _ _ =>
    obtain ⟨k', hk, -, -, hraised⟩ := Job.executeOnce_eq sha256 job
    cases hk.symm.trans hp
    exact hraised x hx
  | missed _ _ _ _ =>
    cases hp
    exact handleException_upset hx
  | claiming _ _ _ =>
    obtain ⟨k', hk, -, hfail⟩ := Job.claim_eq sha256 job
    cases hk.symm.trans hp
    exact hfail x ▸ Job.failing_upset hx
  | working _ _ _ hw _ =>
    cases hw with
    | failing e he =>
      have := Job.failing_settles sha256 job he
      rw [hp] at this
      exact this.2.2 x hx
    | commit o _ _ hfail => cases hp; exact hfail x ▸ Job.failing_upset hx
    | call _ _ _ hfail => cases hp; exact hfail x ▸ Job.failing_upset hx
  | severed _ _ _ _ hfail => cases hp; exact hfail x ▸ Job.failing_upset hx
  | losing _ _ _ _ _ =>
    cases Job.failing_unique.symm.trans hp
    exact handleException_upset hx
  | rereading _ _ _ _ =>
    obtain ⟨k', hk, -, hraised⟩ := Job.reread_settles sha256 job
    cases hk.symm.trans hp
    exact hraised x hx
  | settling a _ hs _ =>
    rw [hp] at hs
    exact hs.2.2 x hx
  | upset _ hu _ _ =>
    rw [hp] at hu
    exact hu.2.2 x hx
  | lost _ _ => cases hp

theorem effect_broken (hq : ¬ c.Quiet) (t : Tables) (clock : Timestamp) :
    t.effect clock .broken c = .stay (.error (.operational none)) := by
  cases c with
  | rollback => exact (hq trivial).elim
  | log line => exact (hq trivial).elim
  | _ => rfl

inductive Calling (sha256 : String → String) (job : Job) (t : Tables)
    (holds : List Resource → Prop) (g : Record) :
    (c : Call) → (Except Exn c.Reply → App Response) → Session → Prop
  | quiet {c : Call} {k : Except Exn c.Reply → App Response} (session : Session) : c.Quiet →
      Calling sha256 job t holds g c k session
  | reading {k : Except Exn (Call.getKey job.key).Reply → App Response} :
      Calling sha256 job t holds g (.getKey job.key) k .idle
  | claiming {k : Except Exn (Call.insertKey (job.record sha256)).Reply → App Response} :
      ¬ g.owned → holds [] → job.claim sha256 = .call (.insertKey (job.record sha256)) k →
      (∀ e, k (.error e) = job.failing sha256 e) →
      Calling sha256 job t holds g (.insertKey (job.record sha256)) k .idle
  | working {fp : Footprint} {tx : Tx} {c : Call} {k : Except Exn c.Reply → App Response} :
      ¬ g.owned → holds fp.touched → fp.Allows job c → job.Reached sha256 t fp tx (.call c k) →
      (∀ e, k (.error e) = job.failing sha256 e) →
      Calling sha256 job t holds g c k (.active tx)
  | commit {fp : Footprint} {tx : Tx} {k : Except Exn Unit → App Response} (o : Outcome) :
      job.Admitted → ¬ g.owned → holds fp.touched → job.Reached sha256 t fp tx (.call .commit k) →
      o.replayed = false → (Response.outcome o).Settles (k (.ok ())) →
      Calling sha256 job t holds g .commit k (.active tx)
  | severed {c : Call} {k : Except Exn c.Reply → App Response} : ¬ c.Quiet →
      Calling sha256 job t holds g c k .broken

theorem calling (h : Phase sha256 job t holds g prog session) (hp : prog = .call c k) :
    Calling sha256 job t holds g c k session := by
  cases h with
  | reading _ _ _ =>
    obtain ⟨k', hk, -⟩ := Job.executeOnce_eq sha256 job
    cases hk.symm.trans hp
    exact .reading
  | missed _ _ _ _ =>
    cases hp
    exact .quiet _ trivial
  | claiming _ hown hh =>
    obtain ⟨k', hk, -, hfail⟩ := Job.claim_eq sha256 job
    cases hk.symm.trans hp
    exact .claiming hown hh hk hfail
  | working admitted hown hh hw hr =>
    cases hw with
    | failing x hxn =>
      have settles := Job.failing_settles sha256 job hxn
      rw [hp] at settles
      exact .quiet _ settles.1
    | commit o hfresh hok _ =>
      cases hp
      exact .commit o admitted hown hh hr hfresh hok
    | call allowed _ _ hfail =>
      cases hp
      exact .working hown hh allowed hr hfail
  | severed _ _ _ hq _ =>
    cases hp
    exact .severed hq
  | losing _ _ _ _ _ =>
    cases Job.failing_unique.symm.trans hp
    exact .quiet _ trivial
  | rereading _ _ _ _ =>
    obtain ⟨k', hk, -⟩ := Job.reread_settles sha256 job
    cases hk.symm.trans hp
    exact .reading
  | settling a _ hs _ =>
    rw [hp] at hs
    exact .quiet _ hs.1
  | upset _ hu _ _ =>
    rw [hp] at hu
    exact .quiet _ hu.1
  | lost _ _ => cases hp

theorem of_blocked (h : Phase sha256 job w.server.committed holds g prog session)
    (hp : prog = .call c k) (hx : w.server.exec r job session c = none) :
    ¬ g.owned ∧ (∀ e, k (.error e) = job.failing sha256 e) ∧
      (session = .idle ∧ holds [] ∨ ∃ (tx : Tx) (fp : Footprint), session = .active tx ∧
        holds fp.touched ∧ fp.Allows job c) := by
  cases h.calling hp with
  | quiet _ hq => exact (hq.exec_ne_none hx).elim
  | reading => simp [Server.exec, Tables.effect, inTx] at hx
  | claiming hown hh _ hfail => exact ⟨hown, hfail, .inl ⟨rfl, hh⟩⟩
  | working hown hh allowed _ hfail => exact ⟨hown, hfail, .inr ⟨_, _, rfl, hh, allowed⟩⟩
  | commit o _ _ _ _ _ _ =>
    obtain ⟨x, tx, rep, heffect, -⟩ := Server.exec_eq_none.mp hx
    simp only [Tables.effect, inTx] at heffect
    split at heffect <;> cases heffect
  | severed hq => simp [Server.exec, effect_broken hq] at hx

theorem replayed_not_fresh (row : IdempotencyKey) : ¬ (job.replayed sha256 row).Fresh := by
  rintro ⟨o, ho, hr⟩
  unfold Job.replayed at ho
  split at ho <;> cases ho
  cases hr

theorem verdict_not_fresh (x : Exn) : ¬ x.verdict.Fresh := by
  rintro ⟨o, ho, -⟩
  unfold Exn.verdict at ho
  split at ho <;> cases ho

theorem working_served {fp : Footprint} {tx : Tx} (admitted : job.Admitted) (hown : ¬ g.owned)
    (holds : w.server.locks.Holds r fp.touched) (hw : job.Working sha256 fp prog)
    (hr : job.Reached sha256 w.server.committed fp tx prog) (hp : prog = .call c k)
    (fresh : w.server.committed.Fresh job.draws.toList)
    (hx : w.server.exec r job (.active tx) c = some (server, session', reply))
    (hg : g.Meets sha256 job r w e server g') :
    Phase sha256 job server.committed (server.locks.Holds r) g' (k reply) session' := by
  have answered := alone_of_exec hx
  rw [alone_active _ tx.startedAt] at answered
  -- an exception, or an account that is not there, decides the answer
  have settles {x : Exn} (hxn : x ≠ .integrity (some .uniqueViolation))
      (hk : x.verdict.Settles (k reply)) (hc : server.committed = w.server.committed)
      (hh : server.history = w.server.history) :
      Phase sha256 job server.committed (server.locks.Holds r) g' (k reply) session' := by
    refine .settling x.verdict _ hk (.inl ⟨mt (hg.kept hh).mp hown, verdict_not_fresh x,
      .inr (hg.found _ tx.startedAt ?_)⟩)
    rw [hp] at hr
    exact hc ▸ hr.decide admitted answered hk
  cases hw with
  | failing x hxn =>
    have hs := Job.failing_settles sha256 job hxn
    rw [hp] at hs
    obtain ⟨⟨y, rfl⟩, hh, hc⟩ := hs.1.exec hx
    exact settles hxn (hs.2.1 y) hc hh
  | commit o hfresh hok hfail =>
    cases hp
    cases hcheck : w.server.committed.checkDeferred tx with
    | error x =>
      simp only [Server.exec, Tables.effect, inTx, hcheck] at hx
      cases hx
      have hxn : x ≠ .integrity (some .uniqueViolation) := by simp [checkDeferred_error hcheck]
      exact settles hxn (hfail x ▸ Job.failing_settles sha256 job hxn) rfl rfl
    | ok _ =>
      simp only [Server.exec, Tables.effect, inTx, hcheck] at hx
      cases hx
      have := hr.decide admitted answered hok
      obtain ⟨howned, hearned⟩ := hg.won _ tx.startedAt rfl this
      exact .settling _ _ hok (.inr ⟨howned, ⟨o, rfl, hfresh⟩, hearned⟩)
  | @call _ _ _ allowed absent next hfail =>
    cases hp
    obtain ⟨effect, heffect⟩ : ∃ effect, effect =
      w.server.committed.effect w.server.clock (.active tx) c := ⟨_, rfl⟩
    have yields : fp.Yields tx c effect := heffect ▸ effect_allowed _ allowed hr.covers fresh
    simp only [Server.exec, ← heffect] at hx
    rw [alone_active _ 0] at answered
    cases yields with
    | absent id =>
      cases hx
      exact settles (x := .ledger (.accountNotFound id)) (by simp)
        (absent ▸ Job.failing_settles sha256 job (by simp)) rfl rfl
    | done kept extends' touched =>
      cases hx
      exact .working admitted (mt (hg.kept rfl).mp hown) (touched ▸ holds) (next _ kept)
        (.next hr allowed kept extends' answered)
    | locked kept extends' touched =>
      obtain ⟨locks, hl, hx⟩ := Option.map_eq_some_iff.mp hx
      cases hx
      refine .working admitted (mt (hg.kept rfl).mp hown) ?_ (next _ kept)
        (.next hr allowed kept extends' answered)
      rcases touched with touched | ⟨hmem, touched⟩
      · exact touched ▸ Locks.acquire_holds hl holds
      · rw [Locks.acquire_own ((holds _).mpr hmem)] at hl
        cases hl
        exact touched ▸ holds
    | raised x hxn =>
      cases hx
      exact settles hxn (hfail x ▸ Job.failing_settles sha256 job hxn) rfl rfl
    | failed x hxn =>
      cases hx
      exact settles hxn (hfail x ▸ Job.failing_settles sha256 job hxn) rfl rfl

theorem served (h : Phase sha256 job w.server.committed (w.server.locks.Holds r) g prog session)
    (hp : prog = .call c k) (draws : job.draws.toList.Nodup)
    (fresh : ¬ g.owned → w.server.committed.Fresh job.draws.toList)
    (hx : w.server.exec r job session c = some (server, session', reply))
    (hg : g.Meets sha256 job r w e server g') :
    Phase sha256 job server.committed (server.locks.Holds r) g' (k reply) session' := by
  cases h with
  | reading admitted hown hh =>
    obtain ⟨k', hk, hmissed, hreplayed, -⟩ := Job.executeOnce_eq sha256 job
    cases hk.symm.trans hp
    cases hx
    have hown' := mt (hg.kept rfl).mp hown
    cases hrow : w.server.committed.key? job.key with
    | none =>
      have : (w.server.committed.view ⟨w.server.clock, []⟩).key? job.key = none := hrow
      rw [this, hmissed]
      exact .missed _ admitted hown' hh
    | some row =>
      have : (w.server.committed.view ⟨w.server.clock, []⟩).key? job.key = some row := hrow
      rw [this]
      exact .settling _ _ (hreplayed row) (.inl ⟨hown', replayed_not_fresh row,
        .inr (hg.found _ 0 (sequential_of_taken admitted hrow))⟩)
  | missed _ admitted hown _ =>
    cases hp
    cases hx
    exact .claiming admitted (mt (hg.kept rfl).mp hown) (Locks.release_holds _ _)
  | claiming admitted hown hh =>
    obtain ⟨k', hk, hclaimed, hfail⟩ := Job.claim_eq sha256 job
    cases hk.symm.trans hp
    by_cases htaken : (w.server.committed.key? job.key).isSome
    · have : w.server.committed.effect w.server.clock .idle (.insertKey (job.record sha256)) =
          .failed (.integrity (some .uniqueViolation)) := if_pos htaken
      simp only [Server.exec, this] at hx
      cases hx
      rw [hfail]
      exact .losing _ admitted (mt (hg.kept rfl).mp hown) (Locks.release_holds _ _) htaken
    · have : w.server.committed.effect w.server.clock .idle (.insertKey (job.record sha256)) =
          .locked (.key job.key) ⟨w.server.clock, [.insertKey (job.record sha256)]⟩ () :=
        if_neg htaken
      simp only [Server.exec, this] at hx
      obtain ⟨locks, hl, hx⟩ := Option.map_eq_some_iff.mp hx
      cases hx
      rw [hclaimed]
      exact .working admitted (mt (hg.kept rfl).mp hown) (Locks.acquire_holds hl hh)
        (claimed_working admitted draws) (.claimed _ (by simpa using htaken))
  | working admitted hown hh hw hr =>
    exact working_served admitted hown hh hw hr hp (fresh hown) hx hg
  | severed hown hh hd hq hfail =>
    cases hp
    simp only [Server.exec, effect_broken hq] at hx
    cases hx
    rw [hfail]
    exact .upset _ (Job.failing_upset ⟨.connection, rfl⟩) (hg.disturbed hd)
      fun howned => (hown ((hg.kept rfl).mp howned)).elim
  | losing _ admitted hown hh htaken =>
    cases Job.failing_unique.symm.trans hp
    cases hx
    exact .rereading admitted (mt (hg.kept rfl).mp hown) (Locks.release_holds _ _) htaken
  | rereading admitted hown hh htaken =>
    obtain ⟨k', hk, hreplayed, -⟩ := Job.reread_settles sha256 job
    cases hk.symm.trans hp
    cases hx
    obtain ⟨row, hrow⟩ := Option.isSome_iff_exists.mp htaken
    have : (w.server.committed.view ⟨w.server.clock, []⟩).key? job.key = some row := hrow
    rw [this]
    exact .settling _ _ (hreplayed row) (.inl ⟨mt (hg.kept rfl).mp hown, replayed_not_fresh row,
      .inr (hg.found _ 0 (sequential_of_taken admitted hrow))⟩)
  | settling a _ hs ha =>
    rw [hp] at hs
    obtain ⟨⟨x, rfl⟩, hh, -⟩ := hs.1.exec hx
    refine .settling a _ (hs.2.1 x) ?_
    rcases ha with ⟨hown, hfresh, ha⟩ | ⟨hown, hfresh, ha⟩
    · exact .inl ⟨mt (hg.kept hh).mp hown, hfresh, ha.imp_right (hg.justified a)⟩
    · exact .inr ⟨(hg.kept hh).mpr hown, hfresh, hg.earned a ha⟩
  | upset _ hu hd hl =>
    rw [hp] at hu
    obtain ⟨⟨x, rfl⟩, hh, -⟩ := hu.1.exec hx
    exact .upset _ (hu.2.1 x) (hg.disturbed hd) fun howned => hg.late (hl ((hg.kept hh).mp howned))
  | lost _ _ => cases hp

theorem effect_quiet (hq : c.Quiet) (t : Tables) (clock : Timestamp) (session : Session) (tx : Tx)
    (x : c.Reply) : t.effect clock session c ≠ .committed tx x := by
  cases c with
  | rollback => simp [Tables.effect]
  | log line => simp [Tables.effect]
  | _ => exact hq.elim

theorem of_committed (h : Phase sha256 job t holds g prog session) (hp : prog = .call c k)
    (fresh : ¬ g.owned → t.Fresh job.draws.toList) {clock : Timestamp} {tx : Tx} {x : c.Reply}
    (heffect : t.effect clock session c = .committed tx x) :
    ∃ fp, job.Admitted ∧ ¬ g.owned ∧ holds fp.touched ∧ job.Reached sha256 t fp tx prog ∧
      ∃ o : Outcome, o.replayed = false ∧
        sequential (serveRequest sha256) job tx.startedAt t = (t.view tx, .ok (.outcome o)) := by
  cases h.calling hp with
  | quiet _ hq => exact (effect_quiet hq _ _ _ _ _ heffect).elim
  | reading => simp [Tables.effect, inTx] at heffect
  | claiming _ _ _ _ =>
    simp only [Tables.effect, inTx] at heffect
    split at heffect <;> cases heffect
  | working hown _ allowed hr _ =>
    have yields := effect_allowed clock allowed hr.covers (fresh hown)
    rw [heffect] at yields
    cases yields
  | @commit fp tx' _ o admitted hown hh hr hfresh hok =>
    cases hcheck : t.checkDeferred tx' with
    | error y => simp [Tables.effect, inTx, hcheck] at heffect
    | ok _ =>
      simp only [Tables.effect, inTx, hcheck] at heffect
      cases heffect
      have answered : Ledger.alone tx.startedAt (t, .active tx) .commit =
          ((t.view tx, .idle), .ok ()) := by
        simp [Ledger.alone, Tables.effect, inTx, hcheck]
      exact ⟨fp, admitted, hown, hh, hp ▸ hr, o, hfresh, hr.decide admitted answered hok⟩
  | severed hq =>
    rw [effect_broken hq] at heffect
    cases heffect

theorem of_uniqueViolation
    (h : Phase sha256 job w.server.committed (w.server.locks.Holds r) g prog session)
    (hp : prog = .call c k) (fresh : ¬ g.owned → w.server.committed.Fresh job.draws.toList)
    (hx : w.server.exec r job session c =
      some (server, session', .error (.integrity (some .uniqueViolation)))) :
    prog = job.claim sha256 ∧ session = .idle ∧ ¬ g.owned ∧
      (w.server.committed.key? job.key).isSome := by
  cases h.calling hp with
  | quiet _ hq =>
    obtain ⟨⟨x, hreply⟩, -⟩ := hq.exec hx
    cases hreply
  | reading => cases hx
  | claiming hown _ hclaim _ =>
    refine ⟨hp.trans hclaim.symm, rfl, hown, ?_⟩
    by_contra htaken
    have : w.server.committed.effect w.server.clock .idle (.insertKey (job.record sha256)) =
        .locked (.key job.key) ⟨w.server.clock, [.insertKey (job.record sha256)]⟩ () :=
      if_neg htaken
    simp only [Server.exec, this] at hx
    obtain ⟨locks, -, hx⟩ := Option.map_eq_some_iff.mp hx
    cases hx
  | @working fp tx _ _ hown _ allowed hr _ =>
    have yields := effect_allowed w.server.clock allowed hr.covers (fresh hown)
    generalize heffect : w.server.committed.effect w.server.clock (.active tx) c = effect at yields
    simp only [Server.exec, heffect] at hx
    cases yields with
    | absent id => cases hx
    | done _ _ _ => cases hx
    | locked _ _ _ =>
      obtain ⟨locks, -, hx⟩ := Option.map_eq_some_iff.mp hx
      cases hx
    | raised x hxn =>
      cases hx
      exact (hxn rfl).elim
    | failed x hxn =>
      cases hx
      exact (hxn rfl).elim
  | @commit _ tx _ o _ _ _ _ _ _ =>
    cases hcheck : w.server.committed.checkDeferred tx with
    | error x =>
      simp only [Server.exec, Tables.effect, inTx, hcheck] at hx
      cases hx
      cases checkDeferred_error hcheck
    | ok _ =>
      simp only [Server.exec, Tables.effect, inTx, hcheck] at hx
      cases hx
  | severed hq =>
    simp only [Server.exec, effect_broken hq] at hx
    cases hx

theorem met (h : Phase sha256 job w.server.committed (w.server.locks.Holds r) g (.call c k) session)
    (draws : job.draws.toList.Nodup)
    (fresh : ¬ g.owned → w.server.committed.Fresh job.draws.toList)
    (hm : w.Met r job session c e server session' reply)
    (hg : g.Meets sha256 job r w e server g') :
    Phase sha256 job server.committed (server.locks.Holds r) g' (k reply) session' := by
  have blocked {x : Exn} (hx : w.server.exec r job session c = none) (hxn : x.verdict.LockTimeout)
      (hxu : x ≠ .integrity (some .uniqueViolation))
      (hh : server.history = w.server.history) :
      Phase sha256 job server.committed (server.locks.Holds r) g' (k (.error x)) session' := by
    obtain ⟨hown, hfail, -⟩ := h.of_blocked rfl hx
    rw [hfail]
    exact .settling x.verdict _ (Job.failing_settles sha256 job hxu)
      (.inl ⟨mt (hg.kept hh).mp hown, verdict_not_fresh x, .inl hxn⟩)
  cases hm with
  | served hx => exact h.served rfl draws fresh hx hg
  | timedOut hx => exact blocked hx ⟨_, rfl⟩ (by simp) rfl
  | deadlocked hx _ => exact blocked hx ⟨_, rfl⟩ (by simp) rfl
  | failedBefore fault =>
    obtain ⟨hd, hl⟩ := hg.raised ⟨fault, .inl rfl⟩
    exact .upset _ (h.upset_of_raised rfl ⟨fault, rfl⟩) hd hl
  | failedAfter fault _ =>
    obtain ⟨hd, hl⟩ := hg.raised ⟨fault, .inr rfl⟩
    exact .upset _ (h.upset_of_raised rfl ⟨fault, rfl⟩) hd hl

end call

theorem killed {tx : Tx} (h : Phase sha256 job t holds g prog (.active tx)) (grows : g.Grows g')
    (owned : g'.owned ↔ g.owned) (disturbed : g'.disturbed) (released : holds' [])
    (found : (∃ c k, prog = .call c k) → ∀ a clock,
      sequential (serveRequest sha256) job clock t = (t, .ok a) → g'.justified a) :
    Phase sha256 job t holds' g' prog .broken := by
  cases h with
  | missed _ admitted hown _ => exact .missed _ admitted (mt owned.mp hown) released
  | working admitted hown hh hw hr =>
    have isCall := hw.isCall
    cases hw with
    | failing x hxn =>
      have settles := Job.failing_settles sha256 job hxn
      exact .settling _ _ settles (.inl ⟨mt owned.mp hown, verdict_not_fresh x,
        .inr (found isCall _ tx.startedAt (hr.settle admitted settles))⟩)
    | commit _ _ _ hfail => exact .severed (mt owned.mp hown) released disturbed id hfail
    | call allowed _ _ hfail =>
      exact .severed (mt owned.mp hown) released disturbed allowed.not_quiet hfail
  | losing _ admitted hown hh htaken =>
    exact .losing _ admitted (mt owned.mp hown) released htaken
  | settling a _ hs ha =>
    refine .settling a _ hs ?_
    rcases ha with ⟨hown, hfresh, ha⟩ | ⟨hown, hfresh, ha⟩
    · exact .inl ⟨mt owned.mp hown, hfresh, ha.imp_right (grows.justified a)⟩
    · exact .inr ⟨owned.mpr hown, hfresh, grows.earned a ha⟩
  | upset _ hu hd hl =>
    exact .upset _ hu disturbed fun hown => grows.late (hl (owned.mp hown))
  | lost _ hd => exact .lost _ disturbed

theorem finished (h : Phase sha256 job t holds g prog session) (hp : ∀ c k, prog ≠ .call c k)
    (session' : Session) : Phase sha256 job t holds' g prog session' := by
  cases h with
  | reading _ _ _ =>
    obtain ⟨k, hk, -⟩ := Job.executeOnce_eq sha256 job
    exact (hp _ k hk).elim
  | missed _ _ _ _ => exact (hp _ _ rfl).elim
  | claiming _ _ _ =>
    obtain ⟨k, hk, -⟩ := Job.claim_eq sha256 job
    exact (hp _ k hk).elim
  | working _ _ _ hw _ =>
    obtain ⟨c, k, hk⟩ := hw.isCall
    exact (hp c k hk).elim
  | severed _ _ _ _ _ => exact (hp _ _ rfl).elim
  | losing _ _ _ _ _ => exact (hp _ _ Job.failing_unique).elim
  | rereading _ _ _ _ =>
    obtain ⟨k, hk, -⟩ := Job.reread_settles sha256 job
    exact (hp _ k hk).elim
  | settling a _ hs ha => exact .settling a _ hs ha
  | upset _ hu hd hl => exact .upset _ hu hd hl
  | lost _ hd => exact .lost _ hd

theorem answered (h : Phase sha256 job t holds g prog session) {a : Response}
    (hp : prog = .pure a) :
    a.LockTimeout ∧ ¬ g.owned ∨ (a.Upset ∧ (g.owned → g.late) ∨ a = .lost) ∧ g.disturbed ∨
      ¬ g.owned ∧ ¬ a.Fresh ∧ g.justified a ∨ g.owned ∧ a.Fresh ∧ g.earned a := by
  have finished : Phase sha256 job t (fun _ => False) g prog session :=
    h.finished (by simp [hp]) session
  cases finished with
  | reading _ _ hh => exact hh.elim
  | missed _ _ _ hh => exact hh.elim
  | claiming _ _ hh => exact hh.elim
  | working _ _ hh _ _ => exact hh.elim
  | severed _ hh _ _ _ => exact hh.elim
  | losing _ _ _ hh _ => exact hh.elim
  | rereading _ _ hh _ => exact hh.elim
  | settling b _ hs hb =>
    rw [hp] at hs
    obtain rfl : a = b := hs
    rcases hb with ⟨hown, hfresh, hb | hb⟩ | hb
    · exact .inl ⟨hb, hown⟩
    · exact .inr (.inr (.inl ⟨hown, hfresh, hb⟩))
    · exact .inr (.inr (.inr hb))
  | upset _ hu hd hl =>
    rw [hp] at hu
    exact .inr (.inl ⟨.inl ⟨hu, hl⟩, hd⟩)
  | lost _ hd =>
    cases hp
    exact .inr (.inl ⟨.inr rfl, hd⟩)

theorem put (w : World) (r : Nat) (p : Party) (server : Server)
    (h : Phase sha256 p.job server.committed (server.locks.Holds r) g p.prog p.session) :
    Phase sha256 p.job (w.put r p server).server.committed
      ((w.put r p server).server.locks.Holds r) g p.closed.prog p.closed.session := by
  cases hp : p.prog with
  | call c k =>
    rw [World.put_call hp, Party.closed_of_call hp]
    exact h
  | pure a =>
    rw [World.put_committed, Party.closed_prog]
    exact h.finished (by simp [hp]) _
  | raise e =>
    rw [World.put_committed, Party.closed_prog]
    exact h.finished (by simp [hp]) _

end Phase

end Ledger
