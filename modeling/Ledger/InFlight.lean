import Ledger.Discipline
import Ledger.Sequential

namespace Ledger

open Lib

/-! A write transaction in flight is a sequential one that has not come to its end. -/

namespace Footprint

def Covers (fp : Footprint) : Write → Prop
  | .insertKey row => .key row.key ∈ fp.touched
  | .updateKey key _ _ _ => .key key ∈ fp.touched
  | .insertAccount row => .account row.id ∈ fp.touched ∧ row.id ∈ fp.used
  | .updateBalance id _ => .account id ∈ fp.touched
  | .insertEntry row => row.id ∈ fp.used

/-- Two states of the tables that a transaction cannot tell apart. -/
structure Agrees (fp : Footprint) (t t' : Tables) : Prop where
  keys : ∀ key, Resource.key key ∈ fp.touched → t'.key? key = t.key? key
  accounts : ∀ id, Resource.account id ∈ fp.touched → t'.account? id = t.account? id
  entries : ∀ id ∈ fp.used, t'.leg? id = t.leg? id

theorem touched_extend {fp : Footprint} {x : Resource} (c : Call) (h : x ∈ fp.touched) :
    x ∈ (fp.extend c).touched := by
  cases c <;> simp [extend, h]

theorem used_extend {fp : Footprint} {id : Uuid} (c : Call) (h : id ∈ fp.used) :
    id ∈ (fp.extend c).used := by
  cases c <;> simp [extend, h]

theorem Agrees.of_extend {fp : Footprint} {t t' : Tables} {c : Call}
    (h : (fp.extend c).Agrees t t') : fp.Agrees t t' :=
  ⟨fun key hk => h.keys key (touched_extend c hk),
    fun id hid => h.accounts id (touched_extend c hid),
    fun id hid => h.entries id (used_extend c hid)⟩

theorem Covers.extend {fp : Footprint} {write : Write} (c : Call) (h : fp.Covers write) :
    (fp.extend c).Covers write := by
  cases write with
  | insertAccount row => exact ⟨touched_extend c h.1, used_extend c h.2⟩
  | insertEntry row => exact used_extend c h
  | insertKey row => exact touched_extend c h
  | updateKey key resourceId status body => exact touched_extend c h
  | updateBalance id balance => exact touched_extend c h

end Footprint

namespace Tables

variable {t t' : Tables} {key : String} {id : Uuid}

@[simp] theorem view_write (t : Tables) (tx : Tx) (write : Write) :
    t.view (tx.write write) = write.apply (t.view tx) := by
  simp [view, Tx.write, after]

section congr

theorem key?_after (h : t'.key? key = t.key? key) (writes : List Write) :
    (t'.after writes).key? key = (t.after writes).key? key := by
  induction writes generalizing t t' with
  | nil => exact h
  | cons write writes ih =>
    refine ih ?_
    cases write <;> simp_all [Write.apply, key?, Rows.lookup_append, Rows.lookup_modify]

theorem account?_after (h : t'.account? id = t.account? id) (writes : List Write) :
    (t'.after writes).account? id = (t.after writes).account? id := by
  induction writes generalizing t t' with
  | nil => exact h
  | cons write writes ih =>
    refine ih ?_
    cases write <;> simp_all [Write.apply, account?, Rows.lookup_append, Rows.lookup_modify]

theorem leg?_after (h : t'.leg? id = t.leg? id) (writes : List Write) :
    (t'.after writes).leg? id = (t.after writes).leg? id := by
  induction writes generalizing t t' with
  | nil => exact h
  | cons write writes ih =>
    refine ih ?_
    cases write <;> simp_all [Write.apply, leg?, Rows.lookup_append]

end congr

theorem key?_isSome_after (h : (t.key? key).isSome) (writes : List Write) :
    ((t.after writes).key? key).isSome := by
  induction writes generalizing t with
  | nil => exact h
  | cons write writes ih =>
    refine ih ?_
    cases write <;> simp_all [Write.apply, key?, Rows.lookup_append, Rows.lookup_modify]

section covers

variable {fp : Footprint} {writes : List Write}

theorem key?_of_covers (h : ∀ write ∈ writes, fp.Covers write)
    (hkey : Resource.key key ∉ fp.touched) : (t.after writes).key? key = t.key? key := by
  induction writes generalizing t with
  | nil => rfl
  | cons write writes ih =>
    have hw := h write (by simp)
    refine (ih fun w hw => h w (List.mem_cons_of_mem _ hw)).trans ?_
    cases write with
    | insertKey row =>
      have hne : row.key ≠ key := fun he => hkey (he ▸ hw)
      simp [Write.apply, key?, Rows.lookup_append, Rows.lookup_cons, hne]
    | updateKey k resourceId status body =>
      have hne : key ≠ k := fun he => hkey (he ▸ hw)
      simp [Write.apply, key?, Rows.lookup_modify_ne _ hne]
    | _ => rfl

theorem account?_of_covers (h : ∀ write ∈ writes, fp.Covers write)
    (hid : Resource.account id ∉ fp.touched) : (t.after writes).account? id = t.account? id := by
  induction writes generalizing t with
  | nil => rfl
  | cons write writes ih =>
    have hw := h write (by simp)
    refine (ih fun w hw => h w (List.mem_cons_of_mem _ hw)).trans ?_
    cases write with
    | insertAccount row =>
      have hne : row.id ≠ id := fun he => hid (he ▸ hw.1)
      simp [Write.apply, account?, Rows.lookup_append, Rows.lookup_cons, hne]
    | updateBalance k balance =>
      have hne : id ≠ k := fun he => hid (he ▸ hw)
      simp [Write.apply, account?, Rows.lookup_modify_ne _ hne]
    | _ => rfl

theorem leg?_of_covers (h : ∀ write ∈ writes, fp.Covers write) (hid : id ∉ fp.used) :
    (t.after writes).leg? id = t.leg? id := by
  induction writes generalizing t with
  | nil => rfl
  | cons write writes ih =>
    have hw := h write (by simp)
    refine (ih fun w hw => h w (List.mem_cons_of_mem _ hw)).trans ?_
    cases write with
    | insertEntry row =>
      have hne : row.id ≠ id := fun he => hid (he ▸ hw)
      simp [Write.apply, leg?, Rows.lookup_append, Rows.lookup_cons, hne]
    | _ => rfl

theorem account?_isSome_of_covers (h : ∀ write ∈ writes, fp.Covers write) (hid : id ∉ fp.used) :
    ((t.after writes).account? id).isSome = (t.account? id).isSome := by
  induction writes generalizing t with
  | nil => rfl
  | cons write writes ih =>
    have hw := h write (by simp)
    refine (ih fun w hw => h w (List.mem_cons_of_mem _ hw)).trans ?_
    cases write with
    | insertAccount row =>
      have hne : row.id ≠ id := fun he => hid (he ▸ hw.2)
      simp [Write.apply, account?, Rows.lookup_append, Rows.lookup_cons, hne]
    | updateBalance k balance => simp [Write.apply, account?, Rows.lookup_modify]
    | _ => rfl

/-- What one transaction commits, another that shares no lock and no id cannot tell. -/
theorem agrees_of_covers {mine : Footprint} (h : ∀ write ∈ writes, fp.Covers write)
    (locks : ∀ x ∈ mine.touched, x ∉ fp.touched) (ids : ∀ id ∈ mine.used, id ∉ fp.used) :
    mine.Agrees t (t.after writes) :=
  ⟨fun _ hk => key?_of_covers h (locks _ hk), fun _ hid => account?_of_covers h (locks _ hid),
    fun _ hid => leg?_of_covers h (ids _ hid)⟩

end covers

structure Fresh (t : Tables) (draws : List Uuid) : Prop where
  accounts : ∀ id ∈ draws, t.account? id = none
  entries : ∀ id ∈ draws, t.leg? id = none

end Tables

structure Tx.Extends (fp : Footprint) (c : Call) (tx tx' : Tx) : Prop where
  startedAt : tx'.startedAt = tx.startedAt
  writes : tx'.writes = tx.writes ∨ ∃ write, tx'.writes = tx.writes ++ [write] ∧
    (fp.extend c).Covers write

theorem Tx.Extends.refl (fp : Footprint) (c : Call) (tx : Tx) : tx.Extends fp c tx :=
  ⟨rfl, .inl rfl⟩

theorem Tx.Extends.write {fp : Footprint} {c : Call} {write : Write}
    (h : (fp.extend c).Covers write) (tx : Tx) : tx.Extends fp c (tx.write write) :=
  ⟨rfl, .inr ⟨write, rfl, h⟩⟩

inductive Footprint.Yields (fp : Footprint) (tx : Tx) : (c : Call) → Effect c.Reply → Prop
  | absent (id : Uuid) : Yields fp tx (.lockAccount id) (.done tx (.ok none))
  | done {c : Call} {tx' : Tx} {reply : c.Reply} : c.Kept reply → tx.Extends fp c tx' →
      (fp.extend c).touched = fp.touched → Yields fp tx c (.done tx' (.ok reply))
  | locked {c : Call} {x : Resource} {tx' : Tx} {reply : c.Reply} :
      c.Kept reply → tx.Extends fp c tx' →
      (fp.extend c).touched = x :: fp.touched ∨
        x ∈ fp.touched ∧ (fp.extend c).touched = fp.touched →
      Yields fp tx c (.locked x tx' reply)
  | raised {c : Call} (e : Exn) : e ≠ .integrity (some .uniqueViolation) →
      Yields fp tx c (.done tx (.error e))
  | failed {c : Call} (e : Exn) : e ≠ .integrity (some .uniqueViolation) →
      Yields fp tx c (.failed e)

section effect

variable {fp : Footprint} {job : Job} {t t' : Tables} {tx : Tx} {c : Call}

theorem effect_allowed (clock : Timestamp) (allowed : fp.Allows job c)
    (covers : ∀ write ∈ tx.writes, fp.Covers write) (fresh : t.Fresh job.draws.toList) :
    fp.Yields tx c (t.effect clock (.active tx) c) := by
  cases c with
  | lockAccount id =>
    simp only [Tables.effect, inTx]
    cases h : (t.view tx).account? id with
    | none => exact .absent id
    | some row => exact .locked ⟨row, rfl, Rows.key_of_lookup h⟩ (.refl ..) (.inl rfl)
  | selectNow => exact .done trivial (.refl ..) rfl
  | updateBalance id balance =>
    have covered (b : Balance) :
        (fp.extend (.updateBalance id balance)).Covers (.updateBalance id b) := allowed
    simp only [Tables.effect, inTx]
    split
    · exact .failed _ (by simp)
    · cases hb : Balance.ofDecimal balance with
      | error e => exact .failed e (by rcases Balance.ofDecimal_error hb with rfl | rfl <;> simp)
      | ok b => exact .locked trivial (.write (covered b) tx) (.inr ⟨allowed, rfl⟩)
  | insertEntry id transferId accountId amount =>
    obtain ⟨hid, hused, -⟩ := allowed
    have absent : (t.view tx).leg? id = none :=
      (Tables.leg?_of_covers covers hused).trans (fresh.entries id hid)
    simp only [Tables.effect, inTx, absent]
    cases ha : Amount.ofDecimal amount with
    | error e => exact .failed e (by rcases Amount.ofDecimal_error ha with rfl | rfl <;> simp)
    | ok a =>
      simp only [Option.isSome_none, Bool.false_eq_true, if_false]
      split
      · exact .failed _ (by simp)
      · exact .done trivial (.write (by simp [Footprint.Covers, Footprint.extend]) tx) rfl
  | insertAccount id balance openingBalance =>
    obtain ⟨hid, hused, above⟩ := allowed
    have untouched : Resource.account id ∉ fp.touched := fun h => lt_irrefl _ (above _ h)
    have absent : (t.view tx).account? id = none :=
      (Tables.account?_of_covers covers untouched).trans (fresh.accounts id hid)
    simp only [Tables.effect, inTx, absent]
    cases hb : Balance.ofDecimal balance with
    | error e => exact .failed e (by rcases Balance.ofDecimal_error hb with rfl | rfl <;> simp)
    | ok b =>
      cases ho : Balance.ofDecimal openingBalance with
      | error e => exact .failed e (by rcases Balance.ofDecimal_error ho with rfl | rfl <;> simp)
      | ok o =>
        exact .locked trivial
          (.write (by simp [Footprint.Covers, Footprint.extend]) tx) (.inl rfl)
  | refreshAccount id =>
    simp only [Tables.effect, inTx]
    cases h : (t.view tx).account? id with
    | none => exact .raised _ (by simp)
    | some row => exact .done (Rows.key_of_lookup h) (.refl ..) rfl
  | updateKey key resourceId status body =>
    have covered : (fp.extend (.updateKey key resourceId status body)).Covers
        (.updateKey key resourceId status body) := allowed
    simp only [Tables.effect, inTx]
    split
    · exact .failed _ (by simp)
    · exact .locked trivial (.write covered tx) (.inr ⟨allowed, rfl⟩)
  | getKey key => exact allowed.elim
  | insertKey row => exact allowed.elim
  | commit => exact allowed.elim
  | rollback => exact allowed.elim
  | log line => exact allowed.elim

theorem checkDeferred_error {e : Exn} (h : t.checkDeferred tx = .error e) :
    e = .integrity (some .checkViolation) := by
  rw [Tables.checkDeferred, List.forM_eq_forM] at h
  generalize tx.writes.filterMap Write.leg? = rows at h
  induction rows with
  | nil => cases h
  | cons row rows ih =>
    rw [List.forM_cons] at h
    cases hc : assertTransferConservesMoney (t.view tx).ledgerEntries row with
    | error e' =>
      rw [hc] at h
      cases h
      exact assertTransferConservesMoney_error hc
    | ok _ =>
      rw [hc] at h
      exact ih h

theorem effect_agrees (clock : Timestamp) (allowed : fp.Allows job c)
    (agrees : (fp.extend c).Agrees t t') :
    t'.effect clock (.active tx) c = t.effect clock (.active tx) c := by
  have account (id : Uuid) (h : .account id ∈ (fp.extend c).touched) :
      (t'.view tx).account? id = (t.view tx).account? id :=
    Tables.account?_after (agrees.accounts id h) tx.writes
  cases c with
  | lockAccount id => simp [Tables.effect, inTx, account id (by simp [Footprint.extend])]
  | selectNow => rfl
  | updateBalance id balance => simp [Tables.effect, inTx, account id allowed]
  | insertEntry id transferId accountId amount =>
    have entry : (t'.view tx).leg? id = (t.view tx).leg? id :=
      Tables.leg?_after (agrees.entries id (by simp [Footprint.extend])) tx.writes
    simp [Tables.effect, inTx, account accountId allowed.2.2, entry]
  | insertAccount id balance openingBalance =>
    simp [Tables.effect, inTx, account id (by simp [Footprint.extend])]
  | refreshAccount id => simp [Tables.effect, inTx, account id allowed]
  | updateKey key resourceId status body =>
    have row : (t'.view tx).key? key = (t.view tx).key? key :=
      Tables.key?_after (agrees.keys key allowed) tx.writes
    simp [Tables.effect, inTx, row]
  | getKey key => exact allowed.elim
  | insertKey row => exact allowed.elim
  | commit => exact allowed.elim
  | rollback => exact allowed.elim
  | log line => exact allowed.elim

end effect

/-- A write transaction that has come this far, when nobody else touches the tables `t`. -/
inductive Job.Reached (sha256 : String → String) (job : Job) (t : Tables) :
    Footprint → Tx → App Response → Prop
  | claimed (startedAt : Timestamp) : t.key? job.key = none →
      Reached sha256 job t ⟨[.key job.key], []⟩ ⟨startedAt, [.insertKey (job.record sha256)]⟩
        (job.claimed sha256)
  | next {fp : Footprint} {tx tx' : Tx} {c : Call} {k : Except Exn c.Reply → App Response}
      {reply : c.Reply} : Reached sha256 job t fp tx (.call c k) → fp.Allows job c →
      c.Kept reply → tx.Extends fp c tx' →
      alone 0 (t, .active tx) c = ((t, .active tx'), .ok reply) →
      Reached sha256 job t (fp.extend c) tx' (k (.ok reply))

namespace Job.Reached

variable {sha256 : String → String} {job : Job} {t t' : Tables} {fp : Footprint} {tx : Tx}
  {prog : App Response}

theorem used_mem (h : job.Reached sha256 t fp tx prog) : ∀ id ∈ fp.used, id ∈ job.draws.toList := by
  induction h with
  | claimed => simp
  | @next fp tx tx' c k reply _ allowed _ _ _ ih =>
    cases c with
    | insertEntry id transferId accountId amount =>
      rintro _ (_ | ⟨_, h⟩)
      · exact allowed.1
      · exact ih _ h
    | insertAccount id balance openingBalance =>
      rintro _ (_ | ⟨_, h⟩)
      · exact allowed.1
      · exact ih _ h
    | _ => exact ih

theorem covers (h : job.Reached sha256 t fp tx prog) : ∀ write ∈ tx.writes, fp.Covers write := by
  induction h with
  | claimed => simp [Footprint.Covers, Job.record]
  | @next fp tx tx' c k reply _ _ _ extends' _ ih =>
    have kept : ∀ write ∈ tx.writes, (fp.extend c).Covers write := fun w hw => (ih w hw).extend c
    obtain h | ⟨write, h, hw⟩ := extends'.writes
    · rwa [h]
    · rw [h]
      intro w hmem
      rcases List.mem_append.mp hmem with hmem | hmem
      · exact kept w hmem
      · obtain rfl := List.mem_singleton.mp hmem
        exact hw

theorem transfer (h : job.Reached sha256 t fp tx prog) (agrees : fp.Agrees t t') :
    job.Reached sha256 t' fp tx prog := by
  induction h with
  | claimed startedAt hkey =>
    exact .claimed startedAt ((agrees.keys job.key (by simp)).trans hkey)
  | next _ allowed kept extends' answered ih =>
    refine .next (ih agrees.of_extend) allowed kept extends' ?_
    revert answered
    simp only [alone, effect_agrees 0 allowed agrees]
    generalize t.effect 0 _ _ = effect
    cases effect <;> simp

theorem drive (h : job.Reached sha256 t fp tx prog) (admitted : job.Admitted) :
    (serveRequest sha256 job).drive (alone tx.startedAt) (t, .idle) =
      prog.drive (alone tx.startedAt) (t, .active tx) := by
  induction h with
  | claimed startedAt hkey =>
    obtain ⟨k, hk, hmissed, -, -⟩ := Job.executeOnce_eq sha256 job
    obtain ⟨k', hk', hclaimed, -⟩ := Job.claim_eq sha256 job
    have read : alone startedAt (t, .idle) (.getKey job.key) =
        ((t, .active ⟨startedAt, []⟩), .ok none) := by
      simp [alone, Tables.effect, inTx, Tables.view, Tables.after, hkey]
    have claim : alone startedAt (t, .idle) (.insertKey (job.record sha256)) =
        ((t, .active ⟨startedAt, [.insertKey (job.record sha256)]⟩), .ok ()) := by
      simp [alone, Tables.effect, inTx, Tables.view, Tables.after, Tx.write, Job.record, hkey]
    rw [serveRequest_of_admitted admitted, hk, Prog.drive_call _ read, hmissed, Job.missed,
      Prog.drive_call _ rfl, hk', Prog.drive_call _ claim, hclaimed]
  | next _ allowed kept extends' answered ih =>
    rw [extends'.startedAt, ih, Prog.drive_call]
    rw [alone_active _ 0, answered]

end Job.Reached

end Ledger
