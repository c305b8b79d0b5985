import Ledger.Exactness
import Ledger.Knowledge
import Ledger.Patience

namespace Ledger

open Lib

def Decimal.Fits (d : Decimal) : Prop := ∃ b, Balance.ofDecimal d = .ok b

structure Job.Credits (job : Job) (t : Tables) (req : TransferRequest) (destination : Account) :
    Prop where
  request : job.request.payload = .transfer req
  locked : t.account? req.toAccountId = some destination

/-- The amounts that a write transaction sends.  Only a credit may be more than a column holds. -/
def Call.Measured (job : Job) (t : Tables) : Call → Prop
  | .updateBalance id d => Decimal.Fits d ∨ ∃ req destination, job.Credits t req destination ∧
      id = req.toAccountId ∧ d = destination.balance.toDecimal.add precision req.amount.value
  | .insertEntry _ _ _ d => ∃ a, Amount.ofDecimal d = .ok a
  | .insertAccount _ d d' => Decimal.Fits d ∧ Decimal.Fits d'
  | _ => True

def scale (job : Job) (t : Tables) : Monitor Call Call.Reply Exn Unit where
  admits _ c := c.Measured job t
  expects
    | _, .lockAccount id, .ok found => found = t.account? id
    | _, _, _ => True
  next _ _ _ := ()

abbrev Measured {α : Type} (job : Job) (t : Tables) (app : App α) (post : α → Prop) : Prop :=
  app.Meets (scale job t) (fun result _ => ∀ a, result = .ok a → post a) ()

section measured

variable {job : Job} {t : Tables} {req : TransferRequest} {α β : Type}

theorem Measured.pure {a : α} {post : α → Prop} (h : post a) :
    Measured job t (.pure a : App α) post := by
  rintro _ ⟨⟩
  exact h

theorem Measured.raise (e : Exn) {post : α → Prop} : Measured job t (.raise e : App α) post :=
  fun _ h => by cases h

theorem Measured.bind {app : App α} {mid : α → Prop} (h : Measured job t app mid) {f : α → App β}
    {post : β → Prop} (next : ∀ a, mid a → Measured job t (f a) post) :
    Measured job t (app.bind f) post :=
  Prog.Meets.bind h (fun a _ ha => next a (ha a rfl)) fun _ _ _ _ h => by cases h

theorem Measured.perform (c : Call) (h : c.Measured job t := by exact trivial) :
    Measured job t (Ledger.perform c) fun _ => True :=
  Prog.Meets.perform h fun _ _ _ _ => trivial

theorem Measured.lock (id : Uuid) :
    Measured job t (Ledger.perform (.lockAccount id)) fun found => found = t.account? id := by
  apply Prog.Meets.perform trivial
  rintro reply expected found rfl
  exact expected

abbrev Tables.Locked (t : Tables) (accounts : List (Uuid × Account)) : Prop :=
  ∀ entry ∈ accounts, t.account? entry.1 = some entry.2

theorem lockInTurn_measured (ids : List Uuid) :
    Measured job t (lockInTurn ids) t.Locked := by
  induction ids with
  | nil => exact .pure (by simp)
  | cons id ids ih =>
    apply (Measured.lock id).bind
    intro row hrow
    cases row with
    | none => exact .raise _
    | some account =>
      apply ih.bind
      intro locked hlocked
      exact .pure (List.forall_mem_cons.mpr ⟨hrow.symm, hlocked⟩)

theorem item_measured {accounts : List (Uuid × Account)} (locked : t.Locked accounts) (id : Uuid) :
    Measured job t (item accounts id) fun row => t.account? id = some row := by
  unfold item
  cases h : accounts.lookup id with
  | none => exact .raise _
  | some row =>
    obtain ⟨before, after, rfl, -⟩ := List.lookup_eq_some_iff.mp h
    exact .pure (locked (id, row) (by simp))

theorem moveMoney_measured (hreq : job.request.payload = .transfer req)
    (record : IdempotencyKey) :
    Measured job t (moveMoney job.draws req record) fun _ => True := by
  apply (lockInTurn_measured _).bind
  intro accounts locked
  apply (item_measured locked _).bind
  intro source hsource
  apply (item_measured locked _).bind
  intro destination hdestination
  split
  · exact .raise _
  · next covered =>
    obtain ⟨debited, hdebited, -⟩ := source.balance.ofDecimal_sub req.amount covered
    have debit : Call.Measured job t (.updateBalance source.id
        (source.balance.toDecimal.sub precision req.amount.value)) := .inl ⟨debited, hdebited⟩
    have credit : Call.Measured job t (.updateBalance destination.id
        (destination.balance.toDecimal.add precision req.amount.value)) :=
      .inr ⟨req, destination, ⟨hreq, hdestination⟩, Rows.key_of_lookup hdestination, rfl⟩
    have out (id : Uuid) : Call.Measured job t (.insertEntry job.draws.second job.draws.first id
        (req.amount.value.neg precision)) := ⟨_, req.amount.ofDecimal_debit⟩
    have into (id : Uuid) : Call.Measured job t (.insertEntry job.draws.third job.draws.first id
        req.amount.value) := ⟨_, req.amount.ofDecimal_credit⟩
    apply (Measured.perform .selectNow).bind
    rintro createdAt -
    have flushed : Measured job t (flushTransfer job.draws source destination
        (source.balance.toDecimal.sub precision req.amount.value)
        (destination.balance.toDecimal.add precision req.amount.value) req.amount.value record.key
        (.transfer ⟨job.draws.first, source.id, destination.id, serializeMoney req.amount.value,
          createdAt⟩)) fun _ => True :=
      (Measured.perform _ debit).bind fun _ _ => (Measured.perform _ credit).bind fun _ _ =>
        (Measured.perform _ (out _)).bind fun _ _ => (Measured.perform _ (into _)).bind fun _ _ =>
          Measured.perform _
    exact flushed.bind fun _ _ => .pure trivial

theorem openAccount_measured (req : CreateAccountRequest) (record : IdempotencyKey) :
    Measured job t (openAccount job.draws req record) fun _ => True := by
  have opening : Call.Measured job t (.insertAccount job.draws.first req.initialBalance.value
      req.initialBalance.value) :=
    ⟨⟨_, req.initialBalance.ofDecimal⟩, ⟨_, req.initialBalance.ofDecimal⟩⟩
  exact (Measured.perform _ opening).bind fun _ _ => (Measured.perform _).bind fun _ _ =>
    (Measured.perform _).bind fun _ _ => .pure trivial

theorem work_measured (record : IdempotencyKey) :
    Measured job t ((job.work record).bind job.conclude) fun _ => True := by
  have worked : Measured job t (job.work record) fun _ => True := by
    unfold Job.work
    cases hreq : job.request.payload with
    | transfer req => exact moveMoney_measured hreq record
    | account req => exact openAccount_measured req record
  exact worked.bind fun _ _ => (Measured.perform .commit).bind fun _ _ =>
    (Measured.perform _).bind fun _ _ => .pure trivial

end measured

section reached

variable {sha256 : String → String} {job : Job} {t : Tables} {fp : Footprint} {tx : Tx}
  {prog : App Response} {c : Call} {k : Except Exn c.Reply → App Response}

theorem Job.attempt_loud {app : App Outcome} (h : job.attempt sha256 app = .call c k)
    (loud : ¬ c.Quiet) :
    ∃ k', app = .call c k' ∧ k = fun reply => job.attempt sha256 (k' reply) := by
  cases app with
  | call c' k' =>
    rw [attempt_call] at h
    cases h
    exact ⟨k', rfl, rfl⟩
  | pure o =>
    rw [attempt_pure] at h
    cases ho : o.replayed with
    | true =>
      rw [finish_replayed o ho] at h
      cases h
    | false =>
      have settles : (Response.outcome o).Settles (job.finish (.pure o)) := finish_fresh ho
      rw [h] at settles
      exact (loud settles.1).elim
  | raise e =>
    rw [attempt_raise] at h
    by_cases unique : e = .integrity (some .uniqueViolation)
    · subst unique
      cases failing_unique.symm.trans h
      exact (loud trivial).elim
    · have settles := failing_settles sha256 job unique
      rw [h] at settles
      exact (loud settles.1).elim

theorem Job.Reached.reads (h : job.Reached sha256 t fp tx (.call c k)) (allowed : fp.Allows job c)
    {tx' : Tx} {reply : c.Reply}
    (answered : alone 0 (t, .active tx) c = ((t, .active tx'), .ok reply)) :
    (scale job t).expects () c (.ok reply) := by
  cases c with
  | lockAccount id =>
    have untouched : Resource.account id ∉ fp.touched := fun h => lt_irrefl _ (allowed _ h)
    have view : (t.view tx).account? id = t.account? id :=
      Tables.account?_of_covers h.covers untouched
    simp only [alone, Tables.effect, inTx, view] at answered
    cases hrow : t.account? id with
    | none => simp_all [scale]
    | some row => simp_all [scale]
  | _ => exact trivial

theorem Job.Reached.measured (h : job.Reached sha256 t fp tx prog) :
    ∃ app : App Outcome, prog = job.attempt sha256 app ∧ Measured job t app fun _ => True := by
  induction h with
  | claimed startedAt hkey => exact ⟨_, rfl, work_measured _⟩
  | next before allowed _ _ answered ih =>
    obtain ⟨app, happ, measured⟩ := ih
    obtain ⟨k', rfl, rfl⟩ := attempt_loud happ.symm allowed.not_quiet
    exact ⟨_, rfl, measured.2 _ (before.reads allowed answered)⟩

theorem Job.Reached.measured_call (h : job.Reached sha256 t fp tx (.call c k))
    (loud : ¬ c.Quiet) : c.Measured job t := by
  obtain ⟨app, happ, measured⟩ := h.measured
  obtain ⟨k', rfl, -⟩ := attempt_loud happ.symm loud
  exact measured.1

theorem Call.Measured.outOfRange {clock : Timestamp} (h : c.Measured job t)
    (he : (t.effect clock (.active tx) c).raised? = some (.data (some .numericOutOfRange))) :
    ∃ req destination, job.Credits t req destination ∧ c = .updateBalance req.toAccountId
      (destination.balance.toDecimal.add precision req.amount.value) := by
  cases c with
  | updateBalance id d =>
    rcases h with ⟨b, hb⟩ | ⟨req, destination, credits, rfl, rfl⟩
    · simp only [Tables.effect, inTx, hb] at he
      split at he <;> cases he
    · exact ⟨req, destination, credits, rfl⟩
  | insertEntry id transferId accountId d =>
    obtain ⟨a, ha⟩ := h
    simp only [Tables.effect, inTx, ha] at he
    split at he
    · cases he
    · split at he <;> cases he
  | insertAccount id d d' =>
    obtain ⟨⟨b, hb⟩, ⟨b', hb'⟩⟩ := h
    simp only [Tables.effect, inTx, hb, hb'] at he
    split at he <;> cases he
  | commit =>
    simp only [Tables.effect, inTx] at he
    split at he
    · next hd =>
      rw [checkDeferred_error hd] at he
      cases he
    · cases he
  | insertKey row =>
    simp only [Tables.effect, inTx] at he
    split at he <;> cases he
  | lockAccount id =>
    simp only [Tables.effect, inTx] at he
    split at he <;> cases he
  | refreshAccount id =>
    simp only [Tables.effect, inTx] at he
    split at he <;> cases he
  | updateKey key resourceId responseStatus responseBody =>
    simp only [Tables.effect, inTx] at he
    split at he <;> cases he
  | _ => cases he

end reached

section refused

variable {sha256 : String → String} {es : List Event} {w : World} {r : Nat} {p : Party}
  {g : Record} {job : Job} {server : Server} {session session' : Session} {prog : App Response}
  {c : Call} {k : Except Exn c.Reply → App Response} {e : Exn}

theorem Server.exec_raised {s s' : Server} {me : Nat}
    (h : s.exec me job session c = some (s', session', .error e)) :
    (s.committed.effect s.clock session c).raised? = some e := by
  unfold exec at h
  cases he : s.committed.effect s.clock session c with
  | locked x tx reply =>
    rw [he] at h
    obtain ⟨locks, -, h⟩ := Option.map_eq_some_iff.mp h
    cases h
  | stay reply => rw [he] at h; cases h; rfl
  | done tx reply => rw [he] at h; cases h; rfl
  | failed e => rw [he] at h; cases h; rfl
  | committed tx reply => rw [he] at h; cases h
  | rolledBack reply => rw [he] at h; cases h

theorem Phase.refused
    (h : Phase sha256 job w.server.committed (w.server.locks.Holds r) g prog session)
    (hp : prog = .call c k)
    (hx : w.server.exec r job session c = some (server, session', .error e)) :
    e = .integrity (some .uniqueViolation) ∨
    (∃ tx, session = .active tx ∧ job.Admitted ∧ ¬ g.owned ∧
      c.Measured job w.server.committed ∧
      ∃ clock, (sequential (serveRequest sha256) job clock w.server.committed).2 = .ok e.verdict) ∨
    e = .operational none ∧ g.disturbed := by
  by_cases unique : e = .integrity (some .uniqueViolation)
  · exact .inl unique
  cases h with
  | reading admitted hown hh =>
    obtain ⟨k', hk, -⟩ := Job.executeOnce_eq sha256 job
    cases hk.symm.trans hp
    cases hx
  | missed _ _ _ _ =>
    cases hp
    cases hx
  | claiming _ _ _ =>
    obtain ⟨k', hk, -, -⟩ := Job.claim_eq sha256 job
    cases hk.symm.trans hp
    have raised := Server.exec_raised hx
    simp only [Tables.effect, inTx] at raised
    split at raised
    · exact (unique (Option.some.inj raised).symm).elim
    · cases raised
  | @working fp tx _ admitted hown _ hw hr =>
    have answered := alone_of_exec hx
    rw [alone_active _ tx.startedAt] at answered
    have decides (loud : ¬ c.Quiet) (hfail : ∀ e, k (.error e) = job.failing sha256 e) :
        c.Measured job w.server.committed ∧ ∃ clock, (sequential (serveRequest sha256) job clock
          w.server.committed).2 = .ok e.verdict := by
      rw [hp] at hr
      exact ⟨hr.measured_call loud, tx.startedAt, congrArg Prod.snd (hr.decide admitted answered
        (hfail e ▸ Job.failing_settles sha256 job unique))⟩
    refine .inr (.inl ⟨tx, rfl, admitted, hown, ?_⟩)
    cases hw with
    | failing x hxn =>
      have settles := Job.failing_settles sha256 job hxn
      rw [hp] at settles
      obtain ⟨⟨y, hy⟩, -⟩ := settles.1.exec hx
      cases hy
    | commit o _ _ hfail =>
      cases hp
      exact decides id hfail
    | call allowed _ _ hfail =>
      cases hp
      exact decides allowed.not_quiet hfail
  | severed hown hh disturbed hq _ =>
    cases hp
    have raised := Server.exec_raised hx
    rw [effect_broken hq] at raised
    exact .inr (.inr ⟨(Option.some.inj raised).symm, disturbed⟩)
  | losing _ _ _ _ _ =>
    cases Job.failing_unique.symm.trans hp
    cases hx
  | rereading _ _ _ _ =>
    obtain ⟨k', hk, -⟩ := Job.reread_settles sha256 job
    cases hk.symm.trans hp
    cases hx
  | settling a _ hs _ =>
    rw [hp] at hs
    obtain ⟨⟨x, hx⟩, -⟩ := hs.1.exec hx
    cases hx
  | upset _ hu _ _ =>
    rw [hp] at hu
    obtain ⟨⟨x, hx⟩, -⟩ := hu.1.exec hx
    cases hx
  | lost _ _ => cases hp

theorem atomic_not_unexpected (sha256 : String → String) (job : Job) (clock : Timestamp)
    (t : Tables) : (atomic sha256 job clock t).2 ≠ .envelope .unexpected false := by
  intro unexpected
  have decided := atomic_decided sha256 job clock t
  generalize atomic sha256 job clock t = result at decided unexpected
  cases decided <;> cases unexpected

theorem Exn.Served.verdict (h : e.Served) (known : e.verdict ≠ .envelope .unexpected false) :
    e = .data (some .numericOutOfRange) := by
  unfold Exn.verdict at known
  split at known
  · exact h.elim
  · rfl
  · exact h.elim
  · exact h.elim
  · exact (known rfl).elim

/-- Why a statement is answered with an error. -/
inductive Refusal (sha256 : String → String) (es : List Event) (w : World) (r : Nat) (job : Job) :
    Event → Call → Exn → Prop
  | taken (c : Commit) : c ∈ w.server.history → c.owner ≠ r → c.job.key = job.key →
      Refusal sha256 es w r job (.serve r) (.insertKey (job.record sha256))
        (.integrity (some .uniqueViolation))
  | full (req : TransferRequest) (destination : Account) :
      job.Credits w.server.committed req destination →
      10 ^ 16 ≤ destination.balance.toDecimal.toRat + req.amount.value.toRat →
      Refusal sha256 es w r job (.serve r) (.updateBalance req.toAccountId
        (destination.balance.toDecimal.add precision req.amount.value))
        (.data (some .numericOutOfRange))
  | aborted (c : Call) : Disturbed es r →
      Refusal sha256 es w r job (.serve r) c (.operational none)
  | timedOut (c : Call) (owner : Nat) : w.WaitsFor r owner →
      Refusal sha256 es w r job (.timeout r) c (.operational (some .lockNotAvailable))
  | fault (e : Event) (c : Call) (fault : Fault) :
      e = .failBefore r fault ∨ e = .failAfter r fault → Refusal sha256 es w r job e c fault.exn

theorem Inv.refusal (ran : run (World.step (serveRequest sha256)) World.init es = some w)
    (hp : w.party r = some ⟨job, .call c k, session⟩)
    (hx : w.server.exec r job session c = some (server, session', .error e)) :
    Refusal sha256 es w r job (.serve r) c e := by
  have inv := Inv.of_run ran
  have phase := inv.phases r _ hp
  rcases phase.refused rfl hx with
    rfl | ⟨tx, rfl, admitted, unowned, measured, clock, answer⟩ | ⟨rfl, disturbed⟩
  · obtain ⟨hclaim, -, unowned, taken⟩ := phase.of_uniqueViolation rfl (inv.fresh hp) hx
    obtain ⟨k', hk, -, -⟩ := Job.claim_eq sha256 job
    cases hclaim.trans hk
    obtain ⟨row, hrow⟩ := Option.isSome_iff_exists.mp taken
    obtain ⟨c, hc, -, hkey⟩ := (Inv.books ran).commit_of_key hrow
    exact .taken c hc (fun ho => unowned ⟨c, hc, ho⟩) hkey
  · rw [Inv.sequential_eq ran hp admitted unowned] at answer
    have verdict : (atomic sha256 job clock w.server.committed).2 = e.verdict :=
      Except.ok.inj answer
    have known := atomic_not_unexpected sha256 job clock w.server.committed
    rw [verdict] at known
    obtain rfl := (Server.exec_error hx).1.verdict known
    obtain ⟨req, destination, credits, rfl⟩ := measured.outOfRange (Server.exec_raised hx)
    exact .full req destination credits
      ((overflows_of_atomic admitted verdict).full credits.request credits.locked)
  · exact .aborted c disturbed

end refused

/-- No statement is ever refused for a check, a foreign key, the trigger at the commit, an id that
is taken or a row that is gone. -/
theorem constraints_never_step_in {sha256 : String → String} (x : Run (serveRequest sha256))
    {r : Nat} {job : Job} {c : Call} {k : Except Exn c.Reply → App Response}
    {session session' : Session} {event : Event} {server : Server} {e : Exn}
    (hp : x.last.party r = some ⟨job, .call c k, session⟩)
    (hm : x.last.Met r job session c event server session' (.error e)) :
    Refusal sha256 x.events x.last r job event c e := by
  cases hm with
  | served hx => exact Inv.refusal x.ran hp hx
  | timedOut hx =>
    obtain ⟨owner, waits⟩ := World.exists_waitsFor hp hx
    exact .timedOut c owner waits
  | deadlocked hx chain =>
    exact ((Inv.of_run x.ran).acyclic r (transGen_of_isChain chain)).elim
  | failedBefore fault => exact .fault _ c fault (.inl rfl)
  | failedAfter fault _ => exact .fault _ c fault (.inr rfl)

theorem raced_refused : ∃ c ∈ raced.last.server.history, c.owner ≠ 1 ∧ c.job.key = "key" := by
  obtain ⟨job, c, k, server, session, session', key, hp, hx⟩ :
      ∃ job c k server session session', job.key = "key" ∧
        raced.last.party 1 = some ⟨job, .call c k, session⟩ ∧
        raced.last.server.exec 1 job session c =
          some (server, session', .error (.integrity (some .uniqueViolation))) :=
    ⟨_, _, _, _, _, _, rfl, rfl, rfl⟩
  have refused : Refusal swappedHash raced.events raced.last 1 job (.serve 1) c
      (.integrity (some .uniqueViolation)) := constraints_never_step_in raced hp (.served hx)
  generalize he : (.integrity (some .uniqueViolation) : Exn) = e at refused
  cases refused with
  | taken c hc hne hkey => exact ⟨c, hc, hne, hkey.trans key⟩
  | fault _ _ fault h => rcases h with h | h <;> cases h
  | full _ _ _ _ => cases he
  | aborted _ _ => cases he

end Ledger
