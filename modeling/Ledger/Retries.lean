import Ledger.Canonical
import Ledger.Failures
import Ledger.Linearizable
import Ledger.Lockstep

namespace Ledger

open Lib

def Job.Told (sha256 : String → String) (job : Job) (row : IdempotencyKey) (a : Response) : Prop :=
  a = job.replayed sha256 row ∨ ¬ job.Admitted ∧ ∃ e : LedgerError, e.Early ∧ a = .envelope e false

inductive Replaying (sha256 : String → String) (job : Job) (row : IdempotencyKey)
    (disturbed : Prop) : App Response → Session → Prop
  | reading : job.Admitted → Replaying sha256 job row disturbed (serveRequest sha256 job) .idle
  | settling {prog : App Response} (a : Response) (session : Session) : a.Settles prog →
      job.Told sha256 row a → Replaying sha256 job row disturbed prog session
  | upset {prog : App Response} (session : Session) : Upset prog → disturbed →
      Replaying sha256 job row disturbed prog session
  | lost (session : Session) : disturbed → Replaying sha256 job row disturbed (.pure .lost) session

namespace Replaying

variable {sha256 : String → String} {job : Job} {row : IdempotencyKey} {disturbed disturbed' : Prop}
  {prog : App Response} {session : Session}

theorem arrived (sha256 : String → String) (job : Job) (row : IdempotencyKey) (disturbed : Prop) :
    Replaying sha256 job row disturbed (serveRequest sha256 job) .idle := by
  by_cases admitted : job.Admitted
  · exact .reading admitted
  · obtain ⟨e, he, early⟩ := serveRequest_of_not_admitted sha256 admitted
    rw [he]
    exact .settling _ _ rfl (.inr ⟨admitted, e, early, rfl⟩)

theorem later (h : Replaying sha256 job row disturbed prog session)
    (imp : disturbed → disturbed') : Replaying sha256 job row disturbed' prog session := by
  cases h with
  | reading admitted => exact .reading admitted
  | settling a _ hs told => exact .settling a _ hs told
  | upset _ hu hd => exact .upset _ hu (imp hd)
  | lost _ hd => exact .lost _ (imp hd)

theorem aborted {tx : Tx} (h : Replaying sha256 job row disturbed prog (.active tx)) :
    Replaying sha256 job row disturbed prog .broken := by
  cases h with
  | settling a _ hs told => exact .settling a _ hs told
  | upset _ hu hd => exact .upset _ hu hd
  | lost _ hd => exact .lost _ hd

theorem finished (h : Replaying sha256 job row disturbed prog session)
    (hp : ∀ c k, prog ≠ .call c k) (session' : Session) :
    Replaying sha256 job row disturbed prog session' := by
  cases h with
  | reading admitted =>
    obtain ⟨k, hk, -⟩ := Job.executeOnce_eq sha256 job
    exact (hp _ k ((serveRequest_of_admitted admitted).trans hk)).elim
  | settling a _ hs told => exact .settling a _ hs told
  | upset _ hu hd => exact .upset _ hu hd
  | lost _ hd => exact .lost _ hd

theorem answered (h : Replaying sha256 job row disturbed prog session) {a : Response}
    (hp : prog = .pure a) : job.Told sha256 row a ∨ (a.Upset ∨ a = .lost) ∧ disturbed := by
  cases h with
  | reading admitted =>
    obtain ⟨k, hk, -⟩ := Job.executeOnce_eq sha256 job
    cases ((serveRequest_of_admitted admitted).trans hk).symm.trans hp
  | settling b _ hs told =>
    rw [hp] at hs
    obtain rfl : a = b := hs
    exact .inl told
  | upset _ hu hd =>
    rw [hp] at hu
    exact .inr ⟨.inl hu, hd⟩
  | lost _ hd =>
    cases hp
    exact .inr ⟨.inr rfl, hd⟩

section call

variable {w : World} {r : Nat} {c : Call} {k : Except Exn c.Reply → App Response}

theorem served (h : Replaying sha256 job row disturbed prog session) (hp : prog = .call c k)
    (taken : w.server.committed.key? job.key = some row) (free : w.server.locks.Holds r []) :
    ∃ session' reply, w.server.exec r job session c = some (w.server, session', reply) ∧
      Replaying sha256 job row disturbed (k reply) session' := by
  have quiet (hq : c.Quiet)
      (next : ∀ x session', Replaying sha256 job row disturbed (k (.ok x)) session') :
      ∃ session' reply, w.server.exec r job session c = some (w.server, session', reply) ∧
        Replaying sha256 job row disturbed (k reply) session' := by
    obtain ⟨x, hx⟩ := Call.Quiet.exec_eq hq free
    obtain ⟨session', hexec⟩ := hx session
    exact ⟨session', .ok x, hexec, next x session'⟩
  cases h with
  | reading admitted =>
    obtain ⟨k', hk, -, hreplayed, -⟩ := Job.executeOnce_eq sha256 job
    cases ((serveRequest_of_admitted admitted).trans hk).symm.trans hp
    have read : (w.server.committed.view ⟨w.server.clock, []⟩).key? job.key = some row := taken
    refine ⟨.active ⟨w.server.clock, []⟩, .ok (some row), ?_, ?_⟩
    · simp [Server.exec, Tables.effect, inTx, read]
    · exact .settling _ _ (hreplayed row) (.inl rfl)
  | settling a _ hs told =>
    rw [hp] at hs
    exact quiet hs.1 fun x session' => .settling a session' (hs.2.1 x) told
  | upset _ hu hd =>
    rw [hp] at hu
    exact quiet hu.1 fun x session' => .upset session' (hu.2.1 x) hd
  | lost _ _ => cases hp

theorem raised (h : Replaying sha256 job row disturbed prog session) (hp : prog = .call c k)
    (fault : Fault) (session' : Session) :
    Replaying sha256 job row True (k (.error fault.exn)) session' := by
  cases h with
  | reading admitted =>
    obtain ⟨k', hk, -, -, hraised⟩ := Job.executeOnce_eq sha256 job
    cases ((serveRequest_of_admitted admitted).trans hk).symm.trans hp
    exact .upset _ (hraised _ ⟨fault, rfl⟩) trivial
  | settling a _ hs _ =>
    rw [hp] at hs
    exact .upset _ (hs.2.2 _ ⟨fault, rfl⟩) trivial
  | upset _ hu _ =>
    rw [hp] at hu
    exact .upset _ (hu.2.2 _ ⟨fault, rfl⟩) trivial
  | lost _ _ => cases hp

end call

end Replaying

section run

variable {sha256 : String → String} {es : List Event} {w w' m : World} {e : Event} {r : Nat}
  {row : IdempotencyKey} {request : Request} {draws : Draws}

theorem Inv.keepsKeys (ran : run (World.step (serveRequest sha256)) World.init es = some w)
    (next : World.step (serveRequest sha256) w e = some w') :
    w.server.committed.KeepsKeys w'.server.committed :=
  (Inv.books ran).keepsKeys (Inv.books (run_next ran next)) (World.step_cases next).history

structure World.Unhindered (sha256 : String → String) (es : List Event) (r : Nat) (job : Job)
    (row : IdempotencyKey) (w : World) : Prop where
  taken : w.server.committed.key? job.key = some row
  free : w.server.locks.Holds r []
  party : ∃ p, w.party r = some p ∧ p.job = job ∧
    Replaying sha256 job row (Disturbed es r) p.prog p.session

namespace World.Unhindered

variable {job : Job}

theorem put (w : World) {p : Party} {server : Server}
    (hp : Replaying sha256 job row (Disturbed es r) p.prog p.session) (hjob : p.job = job)
    (taken : server.committed.key? job.key = some row) (free : server.locks.Holds r []) :
    (w.put r p server).Unhindered sha256 es r job row where
  taken := by rwa [World.put_committed]
  free := by
    cases hprog : p.prog with
    | call c k => exact World.put_call hprog ▸ free
    | _ =>
      rw [World.put_finished (by simp [hprog])]
      exact Locks.release_holds _ _
  party := by
    refine ⟨_, World.put_self, by rwa [Party.closed_job], ?_⟩
    cases hprog : p.prog with
    | call c k => rwa [Party.closed_of_call hprog]
    | _ =>
      rw [Party.closed_prog]
      exact hp.finished (by simp [hprog]) _

theorem step (h : w.Unhindered sha256 es r job row)
    (ran : run (World.step (serveRequest sha256)) World.init es = some w)
    (next : World.step (serveRequest sha256) w e = some w') :
    w'.Unhindered sha256 (es ++ [e]) r job row := by
  have taken := Inv.keepsKeys ran next _ _ h.taken
  have grows (hd : Disturbed es r) : Disturbed (es ++ [e]) r := by
    obtain ⟨x, hx, hd⟩ := hd
    exact ⟨x, List.mem_append_left _ hx, hd⟩
  obtain ⟨p, hp, hjob, replaying⟩ := h.party
  have stepped := World.step_cases next
  by_cases hr : e.actor = some r
  · have disturbs (he : e.Disturbs r) : True → Disturbed (es ++ [e]) r := fun _ => ⟨e, by simp, he⟩
    cases stepped with
    | arrived absent _ =>
      cases hr
      rw [absent] at hp
      cases hp
    | @met e r' job' c k session session' server reply hp' hm =>
      obtain rfl := hm.eq_of_actor hr
      cases hp'.symm.trans hp
      obtain rfl : job' = job := hjob
      obtain ⟨session'', reply'', hexec, goes⟩ := replaying.served rfl h.taken h.free
      cases hm with
      | served hx =>
        cases hexec.symm.trans hx
        exact put w (goes.later grows) rfl h.taken h.free
      | timedOut hx => cases hexec.symm.trans hx
      | deadlocked hx _ => cases hexec.symm.trans hx
      | failedBefore fault =>
        have raises : (Event.failBefore r' fault).Disturbs r' := .inl ⟨fault, .inl rfl⟩
        exact put w ((replaying.raised rfl fault _).later (disturbs raises)) rfl h.taken h.free
      | failedAfter fault hx =>
        cases hexec.symm.trans hx
        have raises : (Event.failAfter r' fault).Disturbs r' := .inl ⟨fault, .inr rfl⟩
        exact put w ((replaying.raised rfl fault _).later (disturbs raises)) rfl h.taken h.free
    | killed hp' =>
      cases hr
      cases hp'.symm.trans hp
      exact ⟨taken, Locks.release_holds _ _, _, Function.update_self .., hjob,
        (replaying.aborted).later grows⟩
    | @crashed r' job' c k session hp' =>
      cases hr
      cases hp'.symm.trans hp
      obtain rfl : job' = job := hjob
      exact put w (.lost _ (disturbs (.inr (.inr rfl)) trivial)) rfl h.taken h.free
    | ticked d => cases hr
  · obtain ⟨hparty, hlocks⟩ := stepped.other hr
    exact ⟨taken, fun x => (hlocks x).trans (h.free x), p, hparty.trans hp, hjob,
      replaying.later grows⟩

end World.Unhindered

theorem World.Unhindered.served {job : Job} (h : w.Unhindered sha256 es r job row) {p : Party}
    {c : Call} {k : Except Exn c.Reply → App Response} (hp : w.party r = some p)
    (hk : p.prog = .call c k) : ∃ session' reply,
      w.server.exec r p.job p.session c = some (w.server, session', reply) := by
  obtain ⟨p', hp', hjob, replaying⟩ := h.party
  cases hp.symm.trans hp'
  obtain ⟨session', reply, hexec, -⟩ := replaying.served hk h.taken h.free
  exact ⟨session', reply, hjob ▸ hexec⟩

theorem World.Unhindered.answer {job : Job} (h : w.Unhindered sha256 es r job row) {a : Response}
    (ha : w.answer r = some a) :
    job.Told sha256 row a ∨ (a.Upset ∨ a = .lost) ∧ Disturbed es r := by
  obtain ⟨p, hp, hprog⟩ := World.answer_eq.mp ha
  obtain ⟨p', hp', -, replaying⟩ := h.party
  cases hp.symm.trans hp'
  exact replaying.answered hprog

theorem Inv.unhindered {past rest : List Event}
    (before : run (World.step (serveRequest sha256)) World.init past = some m)
    (settled : m.server.committed.key? (Job.key ⟨request, draws⟩) = some row)
    (ran : run (World.step (serveRequest sha256)) World.init
      (past ++ .arrive r request draws :: rest) = some w) :
    w.Unhindered sha256 (past ++ .arrive r request draws :: rest) r ⟨request, draws⟩ row := by
  rw [run_append, before, Option.bind_some, run_cons, Option.bind_eq_some_iff] at ran
  obtain ⟨m', hstep, ran⟩ := ran
  have arrived := run_next before hstep
  rw [List.append_cons]
  refine run_induction (P := fun more w => w.Unhindered sha256
    (past ++ [.arrive r request draws] ++ more) r ⟨request, draws⟩ row) ?_ ?_ ran
  · rw [List.append_nil]
    cases World.step_cases hstep with
    | arrived absent _ =>
      exact .put _ (.arrived sha256 ⟨request, draws⟩ row _) rfl settled
        ((Inv.of_run before).unlocked absent)
    | met _ hm => cases hm
  · intro more w e w' hmore h hnext
    rw [← List.append_assoc]
    exact h.step (run_concat arrived hmore) hnext

theorem settled_key_answers_at_once (x : Run (serveRequest sha256)) {past rest : List Event}
    (events : x.events = past ++ .arrive r request draws :: rest)
    (before : run (World.step (serveRequest sha256)) World.init past = some m)
    (settled : m.server.committed.key? (Job.key ⟨request, draws⟩) = some row) :
    (∀ y, x.last.server.locks y ≠ some r) ∧ (∀ q, ¬ x.last.WaitsFor r q) ∧
    (x.last.Serving r → ∃ w', x.last.step (serveRequest sha256) (.serve r) = some w') ∧
    ∀ a, x.last.answer r = some a → Job.Told sha256 ⟨request, draws⟩ row a ∨
      (a.Upset ∨ a = .lost) ∧ Disturbed x.events r := by
  have h := Inv.unhindered before settled (events ▸ x.ran)
  rw [← events] at h
  refine ⟨fun y hy => by simpa using (h.free y).mp hy, ?_, ?_, fun a => h.answer⟩
  · rintro q ⟨-, y, hwants, -⟩
    obtain ⟨job, c, k, session, hp, hx, -⟩ := World.wants_eq_some.mp hwants
    obtain ⟨session', reply, hexec⟩ := h.served hp rfl
    cases hexec.symm.trans hx
  · rintro ⟨⟨job, prog, session⟩, c, k, hp, rfl⟩
    obtain ⟨session', reply, hexec⟩ := h.served hp rfl
    exact ⟨_, World.step_of_stepped (.met hp (.served hexec))⟩

theorem Inv.filter_key (ran : run (World.step (serveRequest sha256)) World.init es = some w)
    {c : Commit} (hc : c ∈ w.server.history) :
    w.server.history.filter (·.job.key = c.job.key) = [c] := by
  have few := (Inv.oncePerKey ran c.job.key).commits
  have mem : c ∈ w.server.history.filter (·.job.key = c.job.key) :=
    List.mem_filter.mpr ⟨hc, by simp⟩
  generalize w.server.history.filter _ = commits at few mem ⊢
  cases commits with
  | nil => cases mem
  | cons c' commits =>
    obtain rfl : commits = [] := List.eq_nil_of_length_eq_zero (by simpa using few)
    rw [List.mem_singleton.mp mem]

/-- The last attempt of a client that sends the same request again under the same key, each time
after it has been answered. -/
structure Resent (x : Run (serveRequest sha256)) (past rest : List Event) (r : Nat)
    (request : Request) (draws : Draws) (m : World) : Prop where
  events : x.events = past ++ .arrive r request draws :: rest
  before : run (World.step (serveRequest sha256)) World.init past = some m
  answered : ∀ q p, q ≠ r → x.last.party q = some p → p.job.key = Job.key ⟨request, draws⟩ →
    ∃ a, m.answer q = some a
  same : ∀ q p, x.last.party q = some p → p.job.key = Job.key ⟨request, draws⟩ →
    p.job.request.payload.Same request.payload

theorem Payload.Same.operation {req req' : Payload} (h : req.Same req') :
    req.operation = req'.operation := by
  cases req <;> cases req' <;> first | rfl | exact h.elim

theorem requireKey_ne_empty {raw : Option String} {key : String}
    (h : requireKey raw = .ok key) : key ≠ "" := by
  rintro rfl
  unfold requireKey at h
  cases raw with
  | none => cases h
  | some raw =>
    dsimp only at h
    split at h
    · cases h
    · next nonempty =>
      split at h
      · cases h
      · exact nonempty (by rw [Except.ok.inj h]; rfl)

theorem Job.Admitted.of_same {job job' : Job} (h : job.Admitted) (hkey : job.key = job'.key)
    (same : job.request.payload.Same job'.request.payload) : job'.Admitted := by
  refine ⟨?_, fun req' hreq' => ?_⟩
  · have nonempty : job'.key ≠ "" := hkey ▸ requireKey_ne_empty h.key
    unfold Job.key at nonempty ⊢
    cases hk : requireKey job'.request.idempotencyKey with
    | ok key => rfl
    | error e =>
      rw [hk] at nonempty
      exact (nonempty rfl).elim
  · rw [hreq'] at same
    cases hreq : job.request.payload with
    | account req =>
      rw [hreq] at same
      exact same.elim
    | transfer req =>
      rw [hreq] at same
      obtain ⟨sender, receiver, -⟩ := same
      exact sender ▸ receiver ▸ h.distinct req hreq

theorem Commit.row_same {job : Job} {c : Commit}
    (h : c.job.request.payload.Same job.request.payload) :
    ¬ ((c.row sha256).operation ≠ job.operation ∨
      (c.row sha256).requestHash ≠ job.requestHash sha256) := by
  have operation : (c.row sha256).operation = job.operation := h.operation
  have hash : (c.row sha256).requestHash = job.requestHash sha256 :=
    congrArg sha256 (Payload.canonical_of_same h)
  simp [operation, hash]

namespace Resent

variable {x : Run (serveRequest sha256)} {past rest : List Event}

theorem commit_same (h : Resent x past rest r request draws m) {w : World} {pre : List Event}
    (hw : Earlier sha256 x.events pre w) {c : Commit} (hc : c ∈ w.server.history)
    (hkey : c.job.key = Job.key ⟨request, draws⟩) :
    c.job.request.payload.Same request.payload := by
  obtain ⟨rest', hrest⟩ := hw.rest x.ran
  obtain ⟨p, hp, hjob⟩ := (Inv.of_run x.ran).owners c ((World.run_history hrest).subset hc)
  exact hjob ▸ h.same _ p hp (hjob ▸ hkey)

theorem admitted (h : Resent x past rest r request draws m) {w : World} {pre : List Event}
    (hw : Earlier sha256 x.events pre w) {c : Commit} (hc : c ∈ w.server.history)
    (hkey : c.job.key = Job.key ⟨request, draws⟩) : Job.Admitted ⟨request, draws⟩ :=
  ((Inv.books hw.2).admitted c hc).of_same hkey (h.commit_same hw hc hkey)

theorem unclaimed (h : Resent x past rest r request draws m)
    (absent : m.server.committed.key? (Job.key ⟨request, draws⟩) = none)
    (unowned : ¬ x.last.CommittedBy r) :
    x.last.server.history.filter (·.job.key = Job.key ⟨request, draws⟩) = [] := by
  refine List.filter_eq_nil_iff.mpr fun c hc hkey => ?_
  have hkey : c.job.key = Job.key ⟨request, draws⟩ := by simpa using hkey
  obtain ⟨p, hp, hjob⟩ := (Inv.of_run x.ran).owners c hc
  have hne : c.owner ≠ r := fun he => unowned ⟨c, hc, he⟩
  obtain ⟨a, ha⟩ := h.answered _ p hne hp (hjob ▸ hkey)
  have hm : Earlier sha256 x.events past m := ⟨⟨_, h.events.symm⟩, h.before⟩
  obtain ⟨rest', hrest⟩ := hm.rest x.ran
  obtain ⟨c', hc', ho⟩ := Inv.committedBy_answered h.before hrest ha ⟨c, hc, rfl⟩
  have : c' = c := List.inj_on_of_nodup_map (Inv.of_run x.ran).once
    ((World.run_history hrest).subset hc') hc ho
  have := (Inv.books h.before).key_of_commit (this ▸ hc')
  rw [hkey, absent] at this
  cases this

theorem claimed {w : World} {pre : List Event} (hw : Earlier sha256 x.events pre w) {c : Commit}
    (hc : c ∈ w.server.history) (hkey : c.job.key = Job.key ⟨request, draws⟩) :
    x.last.server.history.filter (·.job.key = Job.key ⟨request, draws⟩) = [c] := by
  obtain ⟨rest, hrest⟩ := hw.rest x.ran
  exact hkey ▸ Inv.filter_key x.ran ((World.run_history hrest).subset hc)

theorem job_eq (h : Resent x past rest r request draws m) {p : Party}
    (hp : x.last.party r = some p) : p.job = ⟨request, draws⟩ := by
  have ran := h.events ▸ x.ran
  rw [run_append, h.before, Option.bind_some, run_cons, Option.bind_eq_some_iff] at ran
  obtain ⟨m', hstep, ran⟩ := ran
  cases World.step_cases hstep with
  | arrived _ _ =>
    obtain ⟨new, hnew, hjob⟩ := World.run_stays ran World.put_self
    cases hnew.symm.trans hp
    simpa using hjob
  | met _ hm => cases hm

end Resent

/-- What the last answer settles: the request was carried out once, or never, unless something went
wrong with the last attempt itself. -/
inductive Settled (x : Run (serveRequest sha256)) (r : Nat) (request : Request) (draws : Draws) :
    Response → Prop
  | once (c : Commit) (o : Outcome) :
      x.last.server.history.filter (·.job.key = Job.key ⟨request, draws⟩) = [c] →
      c.job.request.payload.Same request.payload → o.body = some (c.job.body c.startedAt) →
      Settled x r request draws (.outcome o)
  | never (e : LedgerError) (retryAfter : Bool) :
      x.last.server.history.filter (·.job.key = Job.key ⟨request, draws⟩) = [] →
      e ≠ .unexpected → (∀ key operation, e ≠ .idempotencyKeyConflict key operation) →
      Settled x r request draws (.envelope e retryAfter)
  | unknown {a : Response} : a.Upset ∨ a = .lost → Disturbed x.events r →
      Settled x r request draws a

theorem last_answer_settles (x : Run (serveRequest sha256)) {past rest : List Event}
    (h : Resent x past rest r request draws m) {a : Response} (ha : x.last.answer r = some a) :
    Settled x r request draws a := by
  have hm : Earlier sha256 x.events past m := ⟨⟨_, h.events.symm⟩, h.before⟩
  obtain ⟨p, hp, hprog⟩ := World.answer_eq.mp ha
  have hjob := h.job_eq hp
  cases hkey : m.server.committed.key? (Job.key ⟨request, draws⟩) with
  | some row =>
    have unhindered := Inv.unhindered h.before hkey (h.events ▸ x.ran)
    rw [← h.events] at unhindered
    obtain ⟨c, hc, rfl, hck⟩ := (Inv.books h.before).commit_of_key hkey
    rcases unhindered.answer ha with (rfl | ⟨refused, -⟩) | ⟨hu, hd⟩
    · have same := h.commit_same hm hc hck
      rw [Job.replayed, if_neg (Commit.row_same same)]
      exact .once c _ (Resent.claimed hm hc hck) same rfl
    · exact (refused (h.admitted hm hc hck)).elim
    · exact .unknown hu hd
  | none =>
    have grounds := Inv.grounds x.ran hp ha
    rw [hjob] at grounds
    cases grounds with
    | lockTimeout unowned ht =>
      obtain ⟨message, rfl⟩ := ht
      exact .never _ _ (h.unclaimed hkey unowned) (by simp [LedgerError.unexpected]) (by simp)
    | upset hd _ hu => exact .unknown (.inl hu) hd
    | lost hd => exact .unknown (.inr rfl) hd
    | refused e _ refused early =>
      refine .never e false (List.filter_eq_nil_iff.mpr fun c hc hck => ?_) ?_ ?_
      · exact refused (h.admitted (Past.last x.ran) hc (by simpa using hck))
      · rcases early with rfl | rfl | ⟨length, rfl⟩ <;> simp [LedgerError.unexpected]
      · rcases early with rfl | rfl | ⟨length, rfl⟩ <;> simp
    | decided pre m' clock unowned hfresh _ hm' _ hs =>
      have never := h.unclaimed hkey unowned
      have decided := atomic_decided sha256 ⟨request, draws⟩ clock m'.server.committed
      rw [hs] at decided
      generalize hresult : (m'.server.committed, a) = result at decided
      cases decided with
      | replayed row hrow _ _ =>
        cases congrArg Prod.snd hresult
        obtain ⟨c, hc, rfl, hck⟩ := (Inv.books hm'.2).commit_of_key hrow
        exact .once c _ (Resent.claimed hm' hc hck) (h.commit_same hm' hc hck) rfl
      | conflict row hrow hc =>
        obtain ⟨c, hmem, rfl, hck⟩ := (Inv.books hm'.2).commit_of_key hrow
        exact (Commit.row_same (h.commit_same hm' hmem hck) hc).elim
      | opened _ _ _ =>
        cases congrArg Prod.snd hresult
        exact (hfresh ⟨_, rfl, rfl⟩).elim
      | moved _ _ _ _ _ _ _ _ _ _ _ =>
        cases congrArg Prod.snd hresult
        exact (hfresh ⟨_, rfl, rfl⟩).elim
      | missing id _ _ =>
        cases congrArg Prod.snd hresult
        exact .never _ _ never (by simp [LedgerError.unexpected]) (by simp)
      | short _ _ _ _ _ =>
        cases congrArg Prod.snd hresult
        exact .never _ _ never (by simp [LedgerError.unexpected]) (by simp)
      | outOfRange _ =>
        cases congrArg Prod.snd hresult
        exact .never _ _ never (by simp [LedgerError.unexpected]) (by simp)
    | earned c hc ho hj =>
      exact .once c _ (Resent.claimed (Past.last x.ran) hc (by rw [hj])) (hj ▸ .refl _) rfl

end run

def sentAgain : Request := ⟨some " key ", .account {}⟩

def resent : Run (serveRequest swappedHash) :=
  .of (commitUnacknowledged.events ++ .arrive 1 sentAgain ⟨4, 5, 6⟩ :: List.replicate 3 (.serve 1))
    (by decide +kernel)

theorem resent_at_once : (∀ y, resent.last.server.locks y ≠ some 1) ∧
    (∀ q, ¬ resent.last.WaitsFor 1 q) ∧
    ∃ o, resent.last.answer 1 = some (.outcome o) ∧ o.statusCode = 200 ∧ o.replayed = true := by
  have events : resent.events = commitUnacknowledged.events ++
    .arrive 1 sentAgain ⟨4, 5, 6⟩ :: List.replicate 3 (.serve 1) := rfl
  obtain ⟨free, idle, -, -⟩ := settled_key_answers_at_once resent events
    commitUnacknowledged.ran rfl
  exact ⟨free, idle, _, rfl, rfl, rfl⟩

theorem resent_settles : ∃ c,
    resent.last.server.history.filter (·.job.key = "key") = [c] ∧ c.owner = 0 := by
  have ha : resent.last.answer 1 =
      some (.outcome ⟨200, some (.account ⟨1, "0.0000", 0⟩), true⟩) := rfl
  have actors : resent.events.filterMap Event.actor =
    [0, 0, 0, 0, 0, 0, 0, 0, 0, 0, 1, 1, 1, 1] := rfl
  have attempt (q : Nat) (p : Party) (hp : resent.last.party q = some p) : q = 0 ∨ q = 1 := by
    obtain ⟨request, draws, hmem⟩ := World.arrived_of_party resent.ran hp
    have : q ∈ resent.events.filterMap Event.actor := List.mem_filterMap.mpr ⟨_, hmem, rfl⟩
    simpa [actors] using this
  have h : Resent resent commitUnacknowledged.events (List.replicate 3 (.serve 1)) 1 sentAgain
      ⟨4, 5, 6⟩ commitUnacknowledged.last := by
    refine ⟨rfl, commitUnacknowledged.ran, ?_, ?_⟩
    · rintro q p hne hp -
      rcases attempt q p hp with rfl | rfl
      · exact ⟨_, rfl⟩
      · exact (hne rfl).elim
    · rintro q p hp -
      rcases attempt q p hp with rfl | rfl <;> cases hp <;> exact rfl
  have settled := last_answer_settles resent h ha
  generalize hresponse : Response.outcome _ = response at settled
  cases settled with
  | once c o hc _ _ =>
    have owners : resent.last.server.history.map Commit.owner = [0] := rfl
    have mem : c ∈ resent.last.server.history :=
      (List.mem_filter.mp (hc ▸ List.mem_singleton_self c)).1
    exact ⟨c, hc, by simpa [owners] using List.mem_map_of_mem (f := Commit.owner) mem⟩
  | never _ _ _ _ _ => cases hresponse
  | unknown hu _ =>
    cases hresponse
    rcases hu with (hu | hu) | hu <;> cases hu

end Ledger
