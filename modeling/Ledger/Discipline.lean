import Ledger.Stages

namespace Ledger

open Lib

/-- Keys come first, then accounts by id. -/
def Resource.rank : Resource → WithBot Uuid
  | .key _ => ⊥
  | .account id => id

structure Footprint where
  touched : List Resource
  used : List Uuid

namespace Footprint

/-- What a transaction may ask for next.  It locks upwards, it reads and writes only what it
has locked, and it uses each id it has drawn once. -/
def Allows (fp : Footprint) (job : Job) : Call → Prop
  | .lockAccount id => ∀ x ∈ fp.touched, x.rank < (Resource.account id).rank
  | .selectNow => True
  | .updateBalance id _ => .account id ∈ fp.touched
  | .insertEntry id _ accountId _ =>
    id ∈ job.draws.toList ∧ id ∉ fp.used ∧ .account accountId ∈ fp.touched
  | .insertAccount id _ _ =>
    id ∈ job.draws.toList ∧ id ∉ fp.used ∧ ∀ x ∈ fp.touched, x.rank < (Resource.account id).rank
  | .refreshAccount id => .account id ∈ fp.touched
  | .updateKey key _ _ _ => .key key ∈ fp.touched
  | _ => False

def extend (fp : Footprint) : Call → Footprint
  | .lockAccount id => { fp with touched := .account id :: fp.touched }
  | .insertEntry id _ _ _ => { fp with used := id :: fp.used }
  | .insertAccount id _ _ => ⟨.account id :: fp.touched, id :: fp.used⟩
  | _ => fp

end Footprint

def Call.Kept : (c : Call) → c.Reply → Prop
  | .lockAccount id, reply => ∃ row, reply = some row ∧ row.id = id
  | .refreshAccount id, row => row.id = id
  | _, _ => True

section Working

variable (sha256 : String → String) (job : Job)

def Job.Absent : (c : Call) → (Except Exn c.Reply → App Response) → Prop
  | .lockAccount id, k => k (.ok none) = job.failing sha256 (.ledger (.accountNotFound id))
  | _, _ => True

/-- A write transaction that keeps to the discipline until it fails or commits. -/
inductive Job.Working : Footprint → App Response → Prop
  | failing {fp : Footprint} (e : Exn) :
      e ≠ .integrity (some .uniqueViolation) → Working fp (job.failing sha256 e)
  | commit {fp : Footprint} {k : Except Exn Unit → App Response} (o : Outcome) :
      o.replayed = false → (Response.outcome o).Settles (k (.ok ())) →
      (∀ e, k (.error e) = job.failing sha256 e) → Working fp (.call .commit k)
  | call {fp : Footprint} {c : Call} {k : Except Exn c.Reply → App Response} :
      fp.Allows job c → job.Absent sha256 c k →
      (∀ reply, c.Kept reply → Working (fp.extend c) (k (.ok reply))) →
      (∀ e, k (.error e) = job.failing sha256 e) → Working fp (.call c k)

end Working

theorem Footprint.Allows.not_quiet {fp : Footprint} {job : Job} {c : Call}
    (h : fp.Allows job c) : ¬ c.Quiet := by
  cases c with
  | rollback => exact h.elim
  | log line => exact h.elim
  | _ => exact id

namespace Job.Working

variable {sha256 : String → String} {job : Job} {fp : Footprint}

theorem of_perform {c : Call} {f : c.Reply → App Outcome} (allowed : fp.Allows job c)
    (absent : job.Absent sha256 c fun reply => job.attempt sha256 ((Prog.ofExcept reply).bind f))
    (next : ∀ reply, c.Kept reply →
      job.Working sha256 (fp.extend c) (job.attempt sha256 (f reply))) :
    job.Working sha256 fp (job.attempt sha256 ((perform c).bind f)) := by
  rw [Prog.perform_bind, attempt_call]
  exact .call allowed absent next fun e => rfl

theorem of_raise (error : LedgerError) :
    job.Working sha256 fp (job.attempt sha256 (.raise (.ledger error))) :=
  .failing (.ledger error) (by simp)

theorem of_lockInTurn {ids : List Uuid} (sorted : ids.Pairwise (· < ·))
    (above : ∀ x ∈ fp.touched, ∀ id ∈ ids, x.rank < (Resource.account id).rank)
    {f : List (Uuid × Account) → App Outcome}
    (next : ∀ accounts : List (Uuid × Account), accounts.map Prod.fst = ids →
      (∀ entry ∈ accounts, entry.2.id = entry.1) →
      job.Working sha256 ⟨(ids.map Resource.account).reverse ++ fp.touched, fp.used⟩
        (job.attempt sha256 (f accounts))) :
    job.Working sha256 fp (job.attempt sha256 ((lockInTurn ids).bind f)) := by
  induction ids generalizing fp f with
  | nil => exact next [] rfl (by simp)
  | cons id ids ih =>
    obtain ⟨hid, sorted⟩ := List.pairwise_cons.mp sorted
    simp only [lockInTurn, Prog.monad_bind, Prog.bind_assoc]
    refine of_perform (fun x hx => above x hx id (by simp)) rfl ?_
    rintro - ⟨row, rfl, hrow⟩
    simp only [Prog.bind_assoc]
    refine ih sorted (fun x hx id' hid' => ?_) fun accounts haccounts hids => ?_
    · rcases List.mem_cons.mp hx with rfl | hx
      · exact WithBot.coe_lt_coe.mpr (hid id' hid')
      · exact above x hx id' (List.mem_cons_of_mem _ hid')
    · have := next ((id, row) :: accounts) (by simp [haccounts])
        (by simpa [hrow] using fun a b h => hids (a, b) h)
      simpa [Footprint.extend] using this

theorem of_commit (record : IdempotencyKey) {o : Outcome} (h : o.replayed = false) :
    job.Working sha256 fp (job.attempt sha256 (job.conclude (record, o))) := by
  rw [Job.conclude, Prog.perform_bind, attempt_call]
  exact .commit o h (conclude_settles record h) fun e => rfl

end Job.Working

theorem item_eq {accounts : List (Uuid × Account)} (id : Uuid) (h : id ∈ accounts.map Prod.fst)
    (hids : ∀ entry ∈ accounts, entry.2.id = entry.1) :
    ∃ row : Account, row.id = id ∧ item accounts id = .pure row := by
  suffices ∃ row, accounts.lookup id = some row ∧ (id, row) ∈ accounts by
    obtain ⟨row, hl, hm⟩ := this
    exact ⟨row, hids _ hm, by simp [item, hl]⟩
  clear hids
  induction accounts with
  | nil => simp at h
  | cons entry accounts ih =>
    by_cases he : id = entry.1
    · exact ⟨entry.2, by rw [List.lookup_cons, he, beq_self_eq_true], by simp [he]⟩
    · obtain ⟨row, hl, hm⟩ := ih (by simpa [he] using h)
      refine ⟨row, ?_, List.mem_cons_of_mem _ hm⟩
      rw [List.lookup_cons, beq_false_of_ne he, hl]

theorem moveMoney_working {sha256 : String → String} {job : Job} {req : TransferRequest}
    (draws : job.draws.toList.Nodup) (distinct : req.fromAccountId ≠ req.toAccountId)
    {f : IdempotencyKey × Outcome → App Outcome}
    (next : ∀ fp record o, o.replayed = false →
      job.Working sha256 fp (job.attempt sha256 (f (record, o)))) :
    job.Working sha256 ⟨[.key job.key], []⟩
      (job.attempt sha256 ((moveMoney job.draws req (job.record sha256)).bind f)) := by
  obtain ⟨ids, hids⟩ : ∃ ids, ids = [req.fromAccountId, req.toAccountId].insertionSort (· ≤ ·) :=
    ⟨_, rfl⟩
  have perm : ids.Perm [req.fromAccountId, req.toAccountId] := hids ▸ List.perm_insertionSort _ _
  have sorted : ids.Pairwise (· < ·) := by
    refine (List.Pairwise.and (hids ▸ List.pairwise_insertionSort _ _)
      (perm.nodup_iff.mpr (by simpa using distinct))).imp fun h => ?_
    exact lt_of_le_of_ne h.1 h.2
  simp only [moveMoney, Prog.monad_bind, Prog.bind_assoc, lockAccounts, ← hids]
  refine .of_lockInTurn sorted ?_ fun accounts haccounts hrows => ?_
  · simp [Resource.rank]
  obtain ⟨source, hs, hsource⟩ := item_eq req.fromAccountId
    (haccounts ▸ perm.mem_iff.mpr (by simp)) hrows
  obtain ⟨destination, hd, hdestination⟩ := item_eq req.toAccountId
    (haccounts ▸ perm.mem_iff.mpr (by simp)) hrows
  have hfrom : source.id ∈ ids := hs ▸ perm.mem_iff.mpr (by simp)
  have hto : destination.id ∈ ids := hd ▸ perm.mem_iff.mpr (by simp)
  have touched : ∀ id ∈ ids, Resource.account id ∈
      (ids.map Resource.account).reverse ++ [Resource.key job.key] := by
    simp
  simp only [hsource, hdestination, Prog.pure_bind]
  split
  · exact .of_raise _
  simp only [flushTransfer, Prog.monad_bind, Prog.bind_assoc]
  refine .of_perform trivial trivial fun createdAt _ => ?_
  refine .of_perform (touched _ hfrom) trivial fun _ _ => ?_
  refine .of_perform (touched _ hto) trivial fun _ _ => ?_
  refine .of_perform ⟨by simp [Draws.toList], by simp [Footprint.extend], touched _ hfrom⟩
    trivial fun _ _ => ?_
  refine .of_perform ⟨by simp [Draws.toList], ?_, touched _ hto⟩ trivial fun _ _ => ?_
  · have : job.draws.second ≠ job.draws.third := by simp_all [Draws.toList]
    simpa [Footprint.extend] using this.symm
  refine .of_perform (by simp [Footprint.Allows, Footprint.extend, Job.record]) trivial
    fun _ _ => ?_
  exact next _ _ _ rfl

theorem openAccount_working {sha256 : String → String} {job : Job} {req : CreateAccountRequest}
    {f : IdempotencyKey × Outcome → App Outcome}
    (next : ∀ fp record o, o.replayed = false →
      job.Working sha256 fp (job.attempt sha256 (f (record, o)))) :
    job.Working sha256 ⟨[.key job.key], []⟩
      (job.attempt sha256 ((openAccount job.draws req (job.record sha256)).bind f)) := by
  simp only [openAccount, Prog.monad_bind, Prog.bind_assoc]
  refine .of_perform ⟨by simp [Draws.toList], by simp, ?_⟩ trivial fun _ _ => ?_
  · simp [Resource.rank]
  refine .of_perform (by simp [Footprint.Allows, Footprint.extend]) trivial fun account h => ?_
  refine .of_perform (by simp [Footprint.Allows, Footprint.extend, Job.record]) trivial
    fun _ _ => ?_
  exact next _ _ _ rfl

theorem claimed_working {sha256 : String → String} {job : Job} (h : job.Admitted)
    (draws : job.draws.toList.Nodup) :
    job.Working sha256 ⟨[.key job.key], []⟩ (job.claimed sha256) := by
  unfold Job.claimed Job.work
  cases hp : job.request.payload with
  | transfer req =>
    exact moveMoney_working draws (h.distinct req hp) fun fp record o ho => .of_commit record ho
  | account req => exact openAccount_working fun fp record o ho => .of_commit record ho

end Ledger
