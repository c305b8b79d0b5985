import Ledger.Contention

namespace Ledger

open Lib

section sums

variable (R : Finset Nat) (req : Nat → TransferRequest) (id : Uuid)

def debits : ℚ := ∑ r ∈ R with (req r).fromAccountId = id, (req r).amount.value.toRat

def credits : ℚ := ∑ r ∈ R with (req r).toAccountId = id, (req r).amount.value.toRat

theorem sum_shift : ∑ r ∈ R, (req r).shift id = credits R req id - debits R req id := by
  simp only [TransferRequest.shift, Finset.sum_add_distrib, ← Finset.sum_filter,
    Finset.sum_neg_distrib, credits, debits]
  ring

theorem debits_nonneg : 0 ≤ debits R req id :=
  Finset.sum_nonneg fun r _ => (req r).amount.toRat_pos.le

theorem credits_nonneg : 0 ≤ credits R req id :=
  Finset.sum_nonneg fun r _ => (req r).amount.toRat_pos.le

variable {R} {W : Finset Nat} {r : Nat}

theorem debits_add_le (subset : W ⊆ R) (hr : r ∈ R) (hrW : r ∉ W) :
    debits W req (req r).fromAccountId + (req r).amount.value.toRat ≤
      debits R req (req r).fromAccountId := by
  have := Finset.sum_le_sum_of_subset_of_nonneg
    (Finset.filter_subset_filter (fun q => (req q).fromAccountId = (req r).fromAccountId)
      (Finset.insert_subset hr subset)) fun q _ _ => (req q).amount.toRat_pos.le
  rw [Finset.filter_insert, if_pos rfl, Finset.sum_insert (by simp [hrW])] at this
  exact (add_comm _ _).trans_le this

theorem credits_add_le (subset : W ⊆ R) (hr : r ∈ R) (hrW : r ∉ W) :
    credits W req (req r).toAccountId + (req r).amount.value.toRat ≤
      credits R req (req r).toAccountId := by
  have := Finset.sum_le_sum_of_subset_of_nonneg
    (Finset.filter_subset_filter (fun q => (req q).toAccountId = (req r).toAccountId)
      (Finset.insert_subset hr subset)) fun q _ _ => (req q).amount.toRat_pos.le
  rw [Finset.filter_insert, if_pos rfl, Finset.sum_insert (by simp [hrW])] at this
  exact (add_comm _ _).trans_le this

end sums

def World.postings (w : World) : List (Nat × LedgerEntry) :=
  w.server.history.flatMap fun c => c.entries.map fun entry => (c.owner, entry)

/-- Nobody else acts, and every account has funds and room for all of the set. -/
structure Covered {sha256 : String → String} (x : Run (serveRequest sha256))
    (pre rest : List Event) (m : World) (R : Finset Nat) (job : Nat → Job)
    (req : Nat → TransferRequest) : Prop extends Schedule x pre rest m R job req where
  undisputed : ∀ e ∈ rest, ∀ q, e.actor = some q → q ∈ R
  funds : ∀ id s, m.server.committed.account? id = some s →
    debits R req id ≤ s.balance.toDecimal.toRat
  room : ∀ id s, m.server.committed.account? id = some s →
    s.balance.toDecimal.toRat + credits R req id < 10 ^ 16

namespace Covered

variable {sha256 : String → String} {x : Run (serveRequest sha256)} {pre rest mid : List Event}
  {m m' : World} {R : Finset Nat} {job : Nat → Job} {req : Nat → TransferRequest}
  (h : Covered x pre rest m R job req)

include h

theorem owner_mem (hmid : mid <+: rest)
    (ran : run (World.step (serveRequest sha256)) m mid = some m') {c : Commit}
    (hc : c ∈ m'.server.history) (new : c ∉ m.server.history) : c.owner ∈ R := by
  rcases Inv.commits_after h.start ran c hc with old | ⟨e, he, ha⟩
  · exact (new old).elim
  · exact h.undisputed e (hmid.subset he) _ ha

theorem balance (hmid : mid <+: rest)
    (ran : run (World.step (serveRequest sha256)) m mid = some m') {id : Uuid} {s : Account}
    (hs : m.server.committed.account? id = some s) :
    ∃ s', m'.server.committed.account? id = some s' ∧ s'.opening = s.opening ∧
      s'.balance.toDecimal.toRat = s.balance.toDecimal.toRat +
        (credits {r ∈ R | m'.CommittedBy r} req id - debits {r ∈ R | m'.CommittedBy r} req id) := by
  rw [← sum_shift]
  exact h.toSchedule.balance_eq hmid ran hs fun c hc new hq =>
    (hq (h.owner_mem hmid ran hc new)).elim

theorem commits {r : Nat} (hr : r ∈ R) :
    ∃ c ∈ x.last.server.history, c.owner = r ∧ x.last.answer r = some (.outcome c.outcome) := by
  rcases h.decided hr with committed | ⟨uncommitted, mid, m', s, hmid, ran, hs, verdict⟩
  · exact committed
  obtain ⟨source, hsource⟩ := Option.isSome_iff_exists.mp (h.accounts r hr).1
  obtain ⟨destination, hdestination⟩ := Option.isSome_iff_exists.mp (h.accounts r hr).2
  obtain ⟨s', hs', -, left⟩ := h.balance hmid ran hsource
  obtain ⟨d', hd', -, reached⟩ := h.balance hmid ran hdestination
  cases hs.symm.trans hs'
  have subset : ({r ∈ R | m'.CommittedBy r} : Finset Nat) ⊆ R := Finset.filter_subset _ _
  have out : r ∉ ({r ∈ R | m'.CommittedBy r} : Finset Nat) := by
    obtain ⟨more, hmore⟩ := (h.earlier hmid ran).rest x.ran
    intro hmem
    exact uncommitted (World.run_committedBy hmore (Finset.mem_filter.mp hmem).2)
  rcases verdict with ⟨short, -⟩ | overflows
  · have funds := h.funds _ _ hsource
    have := debits_add_le req subset hr out
    have := credits_nonneg {r ∈ R | m'.CommittedBy r} req (req r).fromAccountId
    linarith
  · have room := h.room _ _ hdestination
    have full := overflows.full (h.transfers r hr) hd'
    have := credits_add_le req subset hr out
    have := debits_nonneg {r ∈ R | m'.CommittedBy r} req (req r).toAccountId
    linarith

theorem filter_eq : {r ∈ R | x.last.CommittedBy r} = R := by
  refine Finset.filter_true_of_mem fun r hr => ?_
  obtain ⟨c, hc, ho, -⟩ := h.commits hr
  exact ⟨c, hc, ho⟩

theorem account_none {id : Uuid} (hid : m.server.committed.account? id = none) :
    x.last.server.committed.account? id = none := by
  obtain ⟨new, hnew⟩ := World.run_history h.ran
  have books : Books sha256 (m.server.history ++ new) x.last.server.committed :=
    hnew ▸ Inv.books x.ran
  have once := (Inv.of_run x.ran).once
  rw [← hnew, List.map_append, List.nodup_append] at once
  have opened : new.flatMap Commit.opened = [] := by
    refine List.flatMap_eq_nil_iff.mpr fun c hc => ?_
    have mem : c ∈ x.last.server.history := hnew ▸ List.mem_append_right _ hc
    have fresh : c ∉ m.server.history := fun hold =>
      once.2.2 _ (List.mem_map_of_mem hold) _ (List.mem_map_of_mem hc) rfl
    have hr := h.owner_mem List.prefix_rfl h.ran mem fresh
    have hreq := h.transfers _ hr
    rw [← h.commit_job List.prefix_rfl h.ran hr mem rfl] at hreq
    simp [Commit.opened, Job.opened, hreq]
  have := (Inv.books h.start).opening_append books id
  rw [hid, opened] at this
  exact Option.map_eq_none_iff.mp this

theorem postings : (x.last.postings.map fun (r, e) => (r, e.accountId, e.amount)).Perm
    ((m.postings.map fun (r, e) => (r, e.accountId, e.amount)) ++ R.toList.flatMap fun r =>
      [(r, (req r).fromAccountId, (req r).amount.debit),
        (r, (req r).toAccountId, (req r).amount.credit)]) := by
  obtain ⟨new, hnew⟩ := World.run_history h.ran
  have once := (Inv.of_run x.ran).once
  rw [← hnew, List.map_append, List.nodup_append] at once
  have owned : ∀ c ∈ new, c.owner ∈ R ∧ c.job = job c.owner := by
    intro c hc
    have mem : c ∈ x.last.server.history := hnew ▸ List.mem_append_right _ hc
    have fresh : c ∉ m.server.history := fun hold =>
      once.2.2 _ (List.mem_map_of_mem hold) _ (List.mem_map_of_mem hc) rfl
    have hr := h.owner_mem List.prefix_rfl h.ran mem fresh
    exact ⟨hr, h.commit_job List.prefix_rfl h.ran hr mem rfl⟩
  have owners : (new.map Commit.owner).Perm R.toList := by
    refine (List.perm_ext_iff_of_nodup once.2.1 R.nodup_toList).mpr fun r => ?_
    rw [Finset.mem_toList, List.mem_map]
    refine ⟨fun ⟨c, hc, ho⟩ => ho ▸ (owned c hc).1, fun hr => ?_⟩
    obtain ⟨c, hc, ho, -⟩ := h.commits hr
    rw [← hnew] at hc
    rcases List.mem_append.mp hc with old | hc
    · exact (h.unowned hr old ho).elim
    · exact ⟨c, hc, ho⟩
  have legs : (new.flatMap fun c => c.entries.map fun e => (c.owner, e.accountId, e.amount)) =
      (new.map Commit.owner).flatMap fun r => [(r, (req r).fromAccountId, (req r).amount.debit),
        (r, (req r).toAccountId, (req r).amount.credit)] := by
    rw [List.flatMap_map]
    refine List.flatMap_congr fun c hc => ?_
    obtain ⟨hr, hj⟩ := owned c hc
    rw [Commit.entries_transfer (by rw [hj, h.transfers _ hr])]
    rfl
  simp only [World.postings, ← hnew, List.flatMap_append, List.map_append, List.map_flatMap,
    List.map_map, Function.comp_def]
  rw [legs]
  exact (owners.flatMap_right _).append_left _

end Covered

theorem covered_transfers_in_any_order {sha256 : String → String}
    {x y : Run (serveRequest sha256)} {pre rest pre' rest' : List Event} {m : World}
    {R : Finset Nat} {job job' : Nat → Job} {req : Nat → TransferRequest}
    (hx : Covered x pre rest m R job req) (hy : Covered y pre' rest' m R job' req) :
    (∀ r ∈ R, ∃ o, x.last.answer r = some (.outcome o) ∧ o.statusCode = 201) ∧
    (∀ id s, m.server.committed.account? id = some s → ∃ s',
      x.last.server.committed.account? id = some s' ∧ s'.balance.toDecimal.toRat =
        s.balance.toDecimal.toRat - debits R req id + credits R req id) ∧
    (∀ id, x.last.server.committed.account? id = y.last.server.committed.account? id) ∧
    (x.last.postings.map fun (r, e) => (r, e.accountId, e.amount)).Perm
      (y.last.postings.map fun (r, e) => (r, e.accountId, e.amount)) := by
  refine ⟨fun r hr => ?answers, fun id s hs => ?balances, fun id => ?same,
    hx.postings.trans hy.postings.symm⟩
  case answers =>
    obtain ⟨c, -, -, ha⟩ := hx.commits hr
    exact ⟨_, ha, rfl⟩
  case balances =>
    obtain ⟨s', hs', -, balance⟩ := hx.balance List.prefix_rfl hx.ran hs
    rw [hx.filter_eq] at balance
    exact ⟨s', hs', by rw [balance]; ring⟩
  case same =>
    cases hs : m.server.committed.account? id with
    | none => rw [hx.account_none hs, hy.account_none hs]
    | some s =>
      obtain ⟨s', hs', opening, balance⟩ := hx.balance List.prefix_rfl hx.ran hs
      obtain ⟨s'', hs'', opening', balance'⟩ := hy.balance List.prefix_rfl hy.ran hs
      rw [hx.filter_eq] at balance
      rw [hy.filter_eq] at balance'
      rw [hs', hs'', Account.eq_of_opening (opening.trans opening'.symm)
        (balance.trans balance'.symm)]

def opposing (r : Nat) : Job :=
  if r = 2 then ⟨⟨some "send", .transfer ⟨1, 4, five⟩⟩, ⟨7, 8, 9⟩⟩
  else ⟨⟨some "receive", .transfer ⟨4, 1, five⟩⟩, ⟨10, 11, 12⟩⟩

def opposed (r : Nat) : TransferRequest := if r = 2 then ⟨1, 4, five⟩ else ⟨4, 1, five⟩

def sendFirst : List Event :=
  claimBoth opposing ++ List.replicate 11 (.serve 2) ++ List.replicate 11 (.serve 3)

def receiveFirst : List Event :=
  claimBoth opposing ++ List.replicate 11 (.serve 3) ++ List.replicate 11 (.serve 2)

def sentFirst : Run (serveRequest pairHash) :=
  .of (bothFunded.events ++ sendFirst) (by decide +kernel)

def receivedFirst : Run (serveRequest pairHash) :=
  .of (bothFunded.events ++ receiveFirst) (by decide +kernel)

theorem opposing_covered {x : Run (serveRequest pairHash)} {rest : List Event}
    (events : x.events = bothFunded.events ++ rest)
    (served : ∀ e ∈ rest,
      e = arrives opposing 2 ∨ e = arrives opposing 3 ∨ e = .serve 2 ∨ e = .serve 3)
    (arrived : ∀ r ∈ ({2, 3} : Finset Nat), ∃ p, x.last.party r = some p ∧ p.job = opposing r)
    (answered : ∀ r ∈ ({2, 3} : Finset Nat), (x.last.answer r).isSome) :
    Covered x bothFunded.events rest bothFunded.last {2, 3} opposing opposed := by
  have accounts : bothFunded.last.server.committed.accounts =
      [⟨1, openFive.initialBalance.toBalance, openFive.initialBalance.toBalance, 0⟩,
        ⟨4, openFive.initialBalance.toBalance, openFive.initialBalance.toBalance, 0⟩] := rfl
  have each (id : Uuid) (s : Account)
      (hs : bothFunded.last.server.committed.account? id = some s) :
      (id = 1 ∨ id = 4) ∧ s.balance.toDecimal.toRat = 5 := by
    have mem := Rows.mem_of_lookup hs
    have hid : s.id = id := Rows.key_of_lookup hs
    rw [accounts] at mem
    simp only [List.mem_cons, List.not_mem_nil, or_false] at mem
    rcases mem with rfl | rfl
    · exact ⟨.inl hid.symm, openFive_toRat⟩
    · exact ⟨.inr hid.symm, openFive_toRat⟩
  have sums (id : Uuid) (h : id = 1 ∨ id = 4) :
      debits {2, 3} opposed id = 5 ∧ credits {2, 3} opposed id = 5 := by
    rw [debits, credits, Finset.sum_filter, Finset.sum_filter, Finset.sum_pair (by decide),
      Finset.sum_pair (by decide)]
    rcases h with rfl | rfl <;> simp [opposed, five_toRat]
  refine ⟨schedule_of_pair events served arrived answered (forall_pair rfl rfl)
    (forall_pair ?_ ?_) (forall_pair ⟨rfl, rfl⟩ ⟨rfl, rfl⟩) (by decide +kernel)
    (forall_pair rfl rfl), ?undisputed, fun id s hs => ?funds, fun id s hs => ?room⟩
  · exact ⟨by decide +kernel, fun req h => by cases h; decide⟩
  · exact ⟨by decide +kernel, fun req h => by cases h; decide⟩
  case undisputed =>
    intro e he q hq
    rcases served e he with rfl | rfl | rfl | rfl <;> cases hq <;> decide
  case funds =>
    obtain ⟨hid, balance⟩ := each id s hs
    rw [(sums id hid).1, balance]
  case room =>
    obtain ⟨hid, balance⟩ := each id s hs
    rw [(sums id hid).2, balance]
    norm_num

theorem opposed_commute :
    sentFirst.last.server.committed.account? 4 = receivedFirst.last.server.committed.account? 4 ∧
      ∃ s', sentFirst.last.server.committed.account? 1 = some s' ∧
        s'.balance.toDecimal.toRat = 5 := by
  have served : ∀ e ∈ sendFirst, e = arrives opposing 2 ∨ e = arrives opposing 3 ∨
      e = .serve 2 ∨ e = .serve 3 := by
    simp [sendFirst, claimBoth]
  have served' : ∀ e ∈ receiveFirst, e = arrives opposing 2 ∨ e = arrives opposing 3 ∨
      e = .serve 2 ∨ e = .serve 3 := by
    simp [receiveFirst, claimBoth]
  obtain ⟨-, -, same, -⟩ := covered_transfers_in_any_order
    (opposing_covered (x := sentFirst) rfl served (forall_pair ⟨_, rfl, rfl⟩ ⟨_, rfl, rfl⟩)
      (forall_pair rfl rfl))
    (opposing_covered (x := receivedFirst) rfl served' (forall_pair ⟨_, rfl, rfl⟩ ⟨_, rfl, rfl⟩)
      (forall_pair rfl rfl))
  exact ⟨same 4, _, rfl, openFive_toRat⟩

end Ledger
