import Ledger.Chronology
import Ledger.Decisions
import Ledger.ExactlyOnce
import Ledger.Exactness
import Ledger.Patience
import Mathlib.Algebra.BigOperators.Group.Finset.Basic
import Mathlib.Algebra.Order.BigOperators.Group.Finset
import Mathlib.Data.Rat.Floor

namespace Ledger

open Lib

def TransferRequest.shift (req : TransferRequest) (id : Uuid) : ℚ :=
  (if req.fromAccountId = id then -req.amount.value.toRat else 0) +
    if req.toAccountId = id then req.amount.value.toRat else 0

instance (w : World) (r : Nat) : Decidable (w.CommittedBy r) :=
  inferInstanceAs (Decidable (∃ c ∈ w.server.history, c.owner = r))

/-- The requests `R` arrive after `m`, each with a key that nothing else has, and are all answered
in peace. -/
structure Schedule {sha256 : String → String} (x : Run (serveRequest sha256))
    (pre rest : List Event) (m : World) (R : Finset Nat) (job : Nat → Job)
    (req : Nat → TransferRequest) : Prop where
  events : x.events = pre ++ rest
  start : run (World.step (serveRequest sha256)) World.init pre = some m
  absent : ∀ r ∈ R, m.party r = none
  arrived : ∀ r ∈ R, ∃ p, x.last.party r = some p ∧ p.job = job r
  answered : ∀ r ∈ R, (x.last.answer r).isSome
  peaceful : ∀ r ∈ R, ∀ e ∈ x.events, e.Peaceful r
  transfers : ∀ r ∈ R, (job r).request.payload = .transfer (req r)
  admitted : ∀ r ∈ R, (job r).Admitted
  accounts : ∀ r ∈ R, (m.server.committed.account? (req r).fromAccountId).isSome ∧
    (m.server.committed.account? (req r).toAccountId).isSome
  keys : Set.InjOn (fun r => (job r).key) R
  unused : ∀ r ∈ R, m.server.committed.key? (job r).key = none
  unshared : ∀ q ∉ R, (∃ e ∈ rest, e.actor = some q) → ∀ p, x.last.party q = some p →
    ∀ r ∈ R, p.job.key ≠ (job r).key

theorem Account.eq_of_opening {a a' : Account} (h : a.opening = a'.opening)
    (hb : a.balance.toDecimal.toRat = a'.balance.toDecimal.toRat) : a = a' := by
  rw [Numeric.toRat_eq, Numeric.toRat_eq, div_left_inj' (by positivity), Int.cast_inj] at hb
  obtain ⟨id, balance, openingBalance, createdAt⟩ := a
  obtain ⟨id', balance', openingBalance', createdAt'⟩ := a'
  simp only [opening, mk.injEq] at h ⊢
  exact ⟨h.1, Balance.ext_units hb, h.2.2⟩

section later

variable {sha256 : String → String} {pre rest : List Event} {m w : World}

theorem Inv.commits_after (start : run (World.step (serveRequest sha256)) World.init pre = some m)
    (ran : run (World.step (serveRequest sha256)) m rest = some w) :
    ∀ c ∈ w.server.history, c ∈ m.server.history ∨ ∃ e ∈ rest, e.actor = some c.owner := by
  refine run_induction (P := fun rest w => ∀ c ∈ w.server.history,
    c ∈ m.server.history ∨ ∃ e ∈ rest, e.actor = some c.owner) (fun c hc => .inl hc) ?next ran
  intro rest w e w' ran ih hstep c hc
  have inv : Inv sha256 (pre ++ rest) w := Inv.of_run (run_concat start ran)
  have older (h : c ∈ w.server.history) :
      c ∈ m.server.history ∨ ∃ e' ∈ rest ++ [e], e'.actor = some c.owner :=
    (ih c h).imp_right fun ⟨e', he', ha⟩ => ⟨e', List.mem_append_left _ he', ha⟩
  rcases inv.change (World.step_cases hstep) with ⟨-, hh⟩ | ⟨r, p, fp, tx, hr, hcommit⟩
  · exact older (hh ▸ hc)
  · rw [hcommit.history] at hc
    rcases List.mem_append.mp hc with hc | hc
    · exact older hc
    · obtain rfl := List.mem_singleton.mp hc
      exact .inr ⟨e, by simp, hr⟩

theorem Inv.balance_after (start : run (World.step (serveRequest sha256)) World.init pre = some m)
    (ran : run (World.step (serveRequest sha256)) m rest = some w) {id : Uuid} {s : Account}
    (hs : m.server.committed.account? id = some s) : ∃ s' new,
      w.server.committed.account? id = some s' ∧ s'.opening = s.opening ∧
      w.server.history = m.server.history ++ new ∧
      s'.balance.units = s.balance.units + (new.map fun c => posted c.entries id).sum := by
  have books := Inv.books start
  obtain ⟨new, hnew⟩ := World.run_history ran
  have books' : Books sha256 (m.server.history ++ new) w.server.committed := by
    rw [hnew]
    exact Inv.books (run_concat start ran)
  obtain ⟨s', hs', opening⟩ := books.account_stays books' hs
  refine ⟨s', new, hs', opening, hnew.symm, ?_⟩
  have same : s'.openingBalance = s.openingBalance := by
    change s'.opening.openingBalance = s.opening.openingBalance
    rw [opening]
  rw [books'.balances id s' hs', books.balances id s hs, same, books'.entries,
    List.flatMap_append, posted_append, ← books.entries, posted_flatMap, add_assoc]

end later

theorem Commit.posted_transfer {c : Commit} {req : TransferRequest}
    (h : c.job.request.payload = .transfer req) (id : Uuid) :
    (posted c.entries id : ℚ) / 10 ^ 4 = req.shift id := by
  have credit : ((req.amount.credit.units : ℤ) : ℚ) / 10 ^ 4 = req.amount.value.toRat := by
    rw [← Numeric.toRat_eq, req.amount.toRat_credit]
  have debit : ((req.amount.debit.units : ℤ) : ℚ) / 10 ^ 4 = -req.amount.value.toRat := by
    rw [← Numeric.toRat_eq, req.amount.toRat_debit]
  rw [entries_transfer h, posted_cons, posted_cons, posted_nil, add_zero, Int.cast_add, add_div,
    TransferRequest.shift]
  congr 1
  · split
    · exact debit
    · simp
  · split
    · exact credit
    · simp

namespace Schedule

variable {sha256 : String → String} {x : Run (serveRequest sha256)} {pre rest mid : List Event}
  {m m' : World} {R : Finset Nat} {job : Nat → Job} {req : Nat → TransferRequest}
  (h : Schedule x pre rest m R job req)

include h

theorem ran : run (World.step (serveRequest sha256)) m rest = some x.last := by
  have := x.ran
  rwa [h.events, run_append, h.start] at this

theorem run_pre (ran : run (World.step (serveRequest sha256)) m mid = some m') :
    run (World.step (serveRequest sha256)) World.init (pre ++ mid) = some m' :=
  run_concat h.start ran

section moment

variable (hmid : mid <+: rest) (ran : run (World.step (serveRequest sha256)) m mid = some m')

include hmid ran

theorem earlier : Earlier sha256 x.events (pre ++ mid) m' :=
  ⟨h.events ▸ (List.prefix_append_right_inj pre).mpr hmid, h.run_pre ran⟩

theorem job_eq {r : Nat} (hr : r ∈ R) {p : Party} (hp : m'.party r = some p) : p.job = job r := by
  obtain ⟨p', hp', hj⟩ := h.arrived r hr
  exact (Inv.job_eq x.ran (h.earlier hmid ran) hp hp').trans hj

theorem commit_job {r : Nat} (hr : r ∈ R) {c : Commit} (hc : c ∈ m'.server.history)
    (ho : c.owner = r) : c.job = job r := by
  obtain ⟨p, hp, hj⟩ := (Inv.of_run (h.run_pre ran)).owners c hc
  exact hj.symm.trans (h.job_eq hmid ran hr (ho ▸ hp))

omit hmid ran in
theorem unowned {r : Nat} (hr : r ∈ R) {c : Commit} (hc : c ∈ m.server.history) : c.owner ≠ r := by
  rintro rfl
  obtain ⟨p, hp, -⟩ := (Inv.of_run h.start).owners c hc
  rw [h.absent _ hr] at hp
  cases hp

theorem key_free {r : Nat} (hr : r ∈ R) (uncommitted : ¬ m'.CommittedBy r) :
    m'.server.committed.key? (job r).key = none := by
  rw [Option.eq_none_iff_forall_ne_some]
  intro row hrow
  obtain ⟨c, hc, -, hkey⟩ := (Inv.books (h.run_pre ran)).commit_of_key hrow
  rcases Inv.commits_after h.start ran c hc with old | ⟨e, he, ha⟩
  · have taken := (Inv.books h.start).key_of_commit old
    rw [hkey, h.unused r hr] at taken
    cases taken
  · by_cases hq : c.owner ∈ R
    · have hj := h.commit_job hmid ran hq hc rfl
      have := h.keys hq hr (by simpa [← hj] using hkey)
      exact uncommitted ⟨c, hc, this⟩
    · obtain ⟨p, hp, hj⟩ := (Inv.of_run (h.run_pre ran)).owners c hc
      obtain ⟨more, hmore⟩ := (h.earlier hmid ran).rest x.ran
      obtain ⟨p', hp', hj'⟩ := World.run_stays hmore hp
      refine h.unshared c.owner hq ⟨e, hmid.subset he, ha⟩ p' hp' r hr ?_
      rw [hj', hj, hkey]

theorem balance_eq {id : Uuid} {s : Account} (hs : m.server.committed.account? id = some s)
    (others : ∀ c ∈ m'.server.history, c ∉ m.server.history → c.owner ∉ R →
      posted c.entries id = 0) :
    ∃ s', m'.server.committed.account? id = some s' ∧ s'.opening = s.opening ∧
      s'.balance.toDecimal.toRat =
        s.balance.toDecimal.toRat + ∑ r ∈ R with m'.CommittedBy r, (req r).shift id := by
  obtain ⟨s', new, hs', opening, hnew, balance⟩ := Inv.balance_after h.start ran hs
  refine ⟨s', hs', opening, ?_⟩
  have once := (Inv.of_run (h.run_pre ran)).once
  rw [hnew, List.map_append, List.nodup_append] at once
  have shifts : ∀ c ∈ new, ((posted c.entries id : ℤ) : ℚ) / 10 ^ 4 =
      if c.owner ∈ R then (req c.owner).shift id else 0 := by
    intro c hc
    have mem : c ∈ m'.server.history := hnew ▸ List.mem_append_right _ hc
    split
    · next hr =>
      exact Commit.posted_transfer (by rw [h.commit_job hmid ran hr mem rfl, h.transfers _ hr]) id
    · next hr =>
      have fresh : c ∉ m.server.history := fun hold =>
        once.2.2 _ (List.mem_map_of_mem hold) _ (List.mem_map_of_mem hc) rfl
      rw [others c mem fresh hr]
      simp
  have committed : {r ∈ (new.map Commit.owner).toFinset | r ∈ R} = {r ∈ R | m'.CommittedBy r} := by
    ext r
    rw [Finset.mem_filter, Finset.mem_filter, List.mem_toFinset, List.mem_map, and_comm]
    refine and_congr_right fun hr => ⟨fun ⟨c, hc, ho⟩ =>
      ⟨c, hnew ▸ List.mem_append_right _ hc, ho⟩, ?_⟩
    rintro ⟨c, hc, ho⟩
    rw [hnew] at hc
    rcases List.mem_append.mp hc with hc | hc
    · exact (h.unowned hr hc ho).elim
    · exact ⟨c, hc, ho⟩
  calc s'.balance.toDecimal.toRat
      = s.balance.toDecimal.toRat + (new.map fun c =>
        ((posted c.entries id : ℤ) : ℚ) / 10 ^ 4).sum := by
        rw [Numeric.toRat_eq, Numeric.toRat_eq, balance, Int.cast_add, add_div, sum_units,
          List.map_map]
        rfl
    _ = s.balance.toDecimal.toRat +
        ((new.map Commit.owner).map fun r => if r ∈ R then (req r).shift id else 0).sum := by
        rw [List.map_congr_left shifts, List.map_map]
        rfl
    _ = s.balance.toDecimal.toRat + ∑ r ∈ R with m'.CommittedBy r, (req r).shift id := by
        rw [← List.sum_toFinset _ once.2.1, ← Finset.sum_filter, committed]

end moment

theorem decided {r : Nat} (hr : r ∈ R) :
    (∃ c ∈ x.last.server.history, c.owner = r ∧ x.last.answer r = some (.outcome c.outcome)) ∨
      ¬ x.last.CommittedBy r ∧ ∃ mid m' source, mid <+: rest ∧
        run (World.step (serveRequest sha256)) m mid = some m' ∧
        m'.server.committed.account? (req r).fromAccountId = some source ∧
        (source.balance.toDecimal.toRat < (req r).amount.value.toRat ∧ x.last.answer r =
            some (.envelope (.insufficientFunds (req r).fromAccountId
              (serializeMoney source.balance.toDecimal)
              (serializeMoney (req r).amount.value)) false) ∨
          (job r).Overflows m'.server.committed) := by
  obtain ⟨p, hp, hj⟩ := h.arrived r hr
  obtain ⟨a, ha⟩ := Option.isSome_iff_exists.mp (h.answered r hr)
  rcases Inv.answered_in_peace x.ran (h.peaceful r hr) hp (hj ▸ h.admitted r hr) ha with
    ⟨c, hc, ho, -, rfl⟩ | ⟨uncommitted, unfresh, pre', m', clock, past, current, decision⟩
  · exact .inl ⟨c, hc, ho, ha⟩
  obtain ⟨p', hp'⟩ := current.party past.2
  have later : pre <+: pre' := by
    rcases List.prefix_or_prefix_of_prefix past.1 (h.events ▸ List.prefix_append pre rest) with
      ⟨more, rfl⟩ | later
    · have ran := h.start
      rw [run_append, past.2] at ran
      obtain ⟨p'', hp'', -⟩ := World.run_stays ran hp'
      rw [h.absent r hr] at hp''
      cases hp''
    · exact later
  obtain ⟨mid, rfl⟩ := later
  have hmid : mid <+: rest := (List.prefix_append_right_inj pre).mp (h.events ▸ past.1)
  have ran : run (World.step (serveRequest sha256)) m mid = some m' := by
    have := past.2
    rwa [run_append, h.start] at this
  have uncommitted' : ¬ m'.CommittedBy r := by
    obtain ⟨more, hmore⟩ := past.rest x.ran
    exact mt (World.run_committedBy hmore) uncommitted
  have present (id : Uuid) (hid : (m.server.committed.account? id).isSome) :
      ∃ s, m'.server.committed.account? id = some s := by
    obtain ⟨s, hs⟩ := Option.isSome_iff_exists.mp hid
    obtain ⟨s', -, hs', -⟩ := Inv.balance_after h.start ran hs
    exact ⟨s', hs'⟩
  obtain ⟨source, hs⟩ := present _ (h.accounts r hr).1
  obtain ⟨destination, hd⟩ := present _ (h.accounts r hr).2
  have free := h.key_free hmid ran hr uncommitted'
  refine .inr ⟨uncommitted, mid, m', source, hmid, ran, hs, ?_⟩
  rw [hj] at decision
  by_cases short : source.balance.toDecimal.toRat < (req r).amount.value.toRat
  · rw [atomic_insufficient free (h.transfers r hr) hs hd short] at decision
    exact .inl ⟨short, ha.trans (congrArg some (congrArg Prod.snd decision).symm)⟩
  by_cases full : 10 ^ 16 ≤ destination.balance.toDecimal.toRat + (req r).amount.value.toRat
  · exact .inr ⟨free, req r, source, destination, h.transfers r hr, hs, hd, short, full⟩
  · have moved : (atomic sha256 (job r) clock m'.server.committed).2 =
        .outcome ((job r).earned clock) :=
      (atomic_moved free (h.transfers r hr) hs hd
        ((h.admitted r hr).distinct _ (h.transfers r hr)) short full).2
    rw [decision] at moved
    exact (unfresh ⟨_, moved, rfl⟩).elim

end Schedule

/-- Nothing else touches the account, and none of the requests ever overflows its destination. -/
structure Withdrawals {sha256 : String → String} (x : Run (serveRequest sha256))
    (pre rest : List Event) (m : World) (R : Finset Nat) (job : Nat → Job)
    (req : Nat → TransferRequest) (source : Account) (amount : ℚ) : Prop
    extends Schedule x pre rest m R job req where
  found : m.server.committed.account? source.id = some source
  sources : ∀ r ∈ R, (req r).fromAccountId = source.id
  amounts : ∀ r ∈ R, (req r).amount.value.toRat = amount
  untouched : ∀ q ∉ R, (∃ e ∈ rest, e.actor = some q) → ∀ p, x.last.party q = some p →
    ∀ other, p.job.request.payload = .transfer other →
      other.fromAccountId ≠ source.id ∧ other.toAccountId ≠ source.id
  room : ∀ mid m', mid <+: rest → run (World.step (serveRequest sha256)) m mid = some m' →
    ∀ r ∈ R, ¬ (job r).Overflows m'.server.committed

namespace Withdrawals

variable {sha256 : String → String} {x : Run (serveRequest sha256)} {pre rest mid : List Event}
  {m m' : World} {R : Finset Nat} {job : Nat → Job} {req : Nat → TransferRequest}
  {source : Account} {amount : ℚ} (h : Withdrawals x pre rest m R job req source amount)

include h

theorem left (hmid : mid <+: rest) (ran : run (World.step (serveRequest sha256)) m mid = some m') :
    ∃ s', m'.server.committed.account? source.id = some s' ∧ s'.balance.toDecimal.toRat =
      source.balance.toDecimal.toRat - {r ∈ R | m'.CommittedBy r}.card * amount := by
  have others : ∀ c ∈ m'.server.history, c ∉ m.server.history → c.owner ∉ R →
      posted c.entries source.id = 0 := by
    intro c hc new hq
    rcases Inv.commits_after h.start ran c hc with old | ⟨e, he, ha⟩
    · exact (new old).elim
    obtain ⟨p, hp, hj⟩ := (Inv.of_run (h.run_pre ran)).owners c hc
    obtain ⟨more, hmore⟩ := (h.earlier hmid ran).rest x.ran
    obtain ⟨p', hp', hj'⟩ := World.run_stays hmore hp
    cases hreq : c.job.request.payload with
    | account req => simp [posted, Commit.entries, Job.entries, hreq]
    | transfer other =>
      obtain ⟨hfrom, hto⟩ := h.untouched c.owner hq ⟨e, hmid.subset he, ha⟩ p' hp' other
        (by rw [hj', hj, hreq])
      simp [Commit.entries_transfer hreq, posted, hfrom, hto]
  obtain ⟨s', hs', -, balance⟩ := h.toSchedule.balance_eq hmid ran h.found others
  refine ⟨s', hs', balance.trans ?_⟩
  have shift : ∀ r ∈ ({r ∈ R | m'.CommittedBy r} : Finset Nat),
      (req r).shift source.id = -amount := by
    intro r hr
    have hr := (Finset.mem_filter.mp hr).1
    have distinct := (h.admitted r hr).distinct _ (h.transfers r hr)
    rw [h.sources r hr] at distinct
    simp [TransferRequest.shift, h.sources r hr, h.amounts r hr, distinct.symm]
  rw [Finset.sum_congr rfl shift, Finset.sum_const, nsmul_eq_mul]
  ring

theorem card_eq : {r ∈ R | x.last.CommittedBy r}.card =
    min R.card ⌊source.balance.toDecimal.toRat / amount⌋₊ := by
  obtain ⟨W, hW⟩ : ∃ W : Finset Nat, W = {r ∈ R | x.last.CommittedBy r} := ⟨_, rfl⟩
  obtain ⟨s', hs', left⟩ := h.left List.prefix_rfl h.ran
  rw [← hW] at left ⊢
  have subset : W ⊆ R := hW ▸ Finset.filter_subset _ _
  rcases R.eq_empty_or_nonempty with rfl | ⟨r₀, hr₀⟩
  · simp [Finset.subset_empty.mp subset]
  have positive : 0 < amount := h.amounts r₀ hr₀ ▸ (req r₀).amount.toRat_pos
  -- the account is not overdrawn
  have most : (W.card : ℚ) ≤ source.balance.toDecimal.toRat / amount := by
    rw [le_div_iff₀ positive]
    have : 0 ≤ s'.balance.toDecimal.toRat := by
      rw [Numeric.toRat_eq]
      exact div_nonneg (Int.cast_nonneg s'.balance.nonNegative) (by positivity)
    linarith
  by_cases all : R ⊆ W
  · rw [subset.antisymm all] at most ⊢
    exact (min_eq_left (Nat.le_floor most)).symm
  -- and whoever is turned away finds less than the amount
  obtain ⟨r, hr, hrW⟩ := Finset.not_subset.mp all
  have uncommitted : ¬ x.last.CommittedBy r := fun hc => hrW (hW ▸ Finset.mem_filter.mpr ⟨hr, hc⟩)
  rcases h.decided hr with ⟨c, hc, ho, -⟩ | ⟨-, mid, m', s, hmid, ran, hs, verdict⟩
  · exact (uncommitted ⟨c, hc, ho⟩).elim
  obtain ⟨s'', hs'', left'⟩ := h.left hmid ran
  rw [h.sources r hr, hs''] at hs
  cases hs
  have short : s.balance.toDecimal.toRat < amount := by
    rcases verdict with ⟨short, -⟩ | full
    · exact h.amounts r hr ▸ short
    · exact (h.room mid m' hmid ran r hr full).elim
  have fewer : ({r ∈ R | m'.CommittedBy r} : Finset Nat).card ≤ W.card := by
    obtain ⟨more, hmore⟩ := (h.earlier hmid ran).rest x.ran
    refine Finset.card_le_card fun q hq => ?_
    obtain ⟨hq, committed⟩ := Finset.mem_filter.mp hq
    exact hW ▸ Finset.mem_filter.mpr ⟨hq, World.run_committedBy hmore committed⟩
  have least : ⌊source.balance.toDecimal.toRat / amount⌋₊ < W.card + 1 := by
    rw [Nat.floor_lt' (Nat.succ_ne_zero _), div_lt_iff₀ positive]
    have : (({r ∈ R | m'.CommittedBy r} : Finset Nat).card : ℚ) * amount ≤ W.card * amount :=
      mul_le_mul_of_nonneg_right (Nat.cast_le.mpr fewer) positive.le
    push_cast
    linarith
  have : W.card = ⌊source.balance.toDecimal.toRat / amount⌋₊ :=
    (Nat.le_floor most).antisymm (Nat.lt_succ_iff.mp least)
  rw [← this, min_eq_right (Finset.card_le_card subset)]

end Withdrawals

theorem withdrawals_succeed_as_funds_allow {sha256 : String → String}
    {x : Run (serveRequest sha256)} {pre rest : List Event} {m : World} {R : Finset Nat}
    {job : Nat → Job} {req : Nat → TransferRequest} {source : Account} {amount : ℚ}
    (h : Withdrawals x pre rest m R job req source amount) : ∃ W ⊆ R,
      W.card = min R.card ⌊source.balance.toDecimal.toRat / amount⌋₊ ∧
      (∀ r ∈ W, ∃ o, x.last.answer r = some (.outcome o) ∧ o.statusCode = 201) ∧
      (∀ r ∈ R \ W, ∃ balance requested, x.last.answer r =
        some (.envelope (.insufficientFunds source.id balance requested) false)) ∧
      ∃ s', x.last.server.committed.account? source.id = some s' ∧
        s'.balance.toDecimal.toRat = source.balance.toDecimal.toRat -
          min R.card ⌊source.balance.toDecimal.toRat / amount⌋₊ * amount := by
  obtain ⟨s', hs', left⟩ := h.left List.prefix_rfl h.ran
  refine ⟨{r ∈ R | x.last.CommittedBy r}, Finset.filter_subset _ _, h.card_eq, fun r hr => ?_,
    fun r hr => ?_, s', hs', by rw [left, h.card_eq]⟩
  · obtain ⟨hr, committed⟩ := Finset.mem_filter.mp hr
    rcases h.decided hr with ⟨c, -, -, ha⟩ | ⟨uncommitted, -⟩
    · exact ⟨_, ha, rfl⟩
    · exact (uncommitted committed).elim
  · obtain ⟨hr, hrW⟩ := Finset.mem_sdiff.mp hr
    rcases h.decided hr with ⟨c, hc, ho, -⟩ | ⟨-, mid, m', s, hmid, ran, -, verdict⟩
    · exact (hrW (Finset.mem_filter.mpr ⟨hr, c, hc, ho⟩)).elim
    · rcases verdict with ⟨-, ha⟩ | full
      · exact ⟨_, _, h.sources r hr ▸ ha⟩
      · exact (h.room mid m' hmid ran r hr full).elim

def openFive : CreateAccountRequest :=
  ⟨⟨five.value, five.decimalPlaces, five.maxDigits, five.positive.le⟩⟩

theorem openFive_toRat : openFive.initialBalance.toBalance.toDecimal.toRat = 5 := by
  have units : openFive.initialBalance.toBalance.units = 50000 := by decide +kernel
  rw [Numeric.toRat_eq, units]
  norm_num

theorem five_toRat : five.value.toRat = 5 := by norm_num [five, Decimal.toRat, Decimal.signed]

def bothFunded : Run (serveRequest pairHash) :=
  .of (.arrive 0 ⟨some "open-a", .account openFive⟩ ⟨1, 2, 3⟩ :: List.replicate 8 (.serve 0) ++
    .arrive 1 ⟨some "open-b", .account openFive⟩ ⟨4, 5, 6⟩ :: List.replicate 8 (.serve 1))
    (by decide +kernel)

def arrives (job : Nat → Job) (r : Nat) : Event := .arrive r (job r).request (job r).draws

def claimBoth (job : Nat → Job) : List Event :=
  arrives job 2 :: arrives job 3 :: List.replicate 3 (.serve 2) ++ List.replicate 3 (.serve 3)

section bothFunded

variable {x : Run (serveRequest pairHash)} {rest : List Event} {job : Nat → Job}
  {req : Nat → TransferRequest}

theorem forall_pair {P : Nat → Prop} (h : P 2) (h' : P 3) : ∀ r ∈ ({2, 3} : Finset Nat), P r := by
  simpa using ⟨h, h'⟩

theorem schedule_of_pair (events : x.events = bothFunded.events ++ rest)
    (served : ∀ e ∈ rest, e = arrives job 2 ∨ e = arrives job 3 ∨ e = .serve 2 ∨ e = .serve 3)
    (arrived : ∀ r ∈ ({2, 3} : Finset Nat), ∃ p, x.last.party r = some p ∧ p.job = job r)
    (answered : ∀ r ∈ ({2, 3} : Finset Nat), (x.last.answer r).isSome)
    (transfers : ∀ r ∈ ({2, 3} : Finset Nat), (job r).request.payload = .transfer (req r))
    (admitted : ∀ r ∈ ({2, 3} : Finset Nat), (job r).Admitted)
    (accounts : ∀ r ∈ ({2, 3} : Finset Nat),
      (bothFunded.last.server.committed.account? (req r).fromAccountId).isSome ∧
        (bothFunded.last.server.committed.account? (req r).toAccountId).isSome)
    (keys : (job 2).key ≠ (job 3).key)
    (unused : ∀ r ∈ ({2, 3} : Finset Nat),
      bothFunded.last.server.committed.key? (job r).key = none) :
    Schedule x bothFunded.events rest bothFunded.last {2, 3} job req where
  events := events
  start := bothFunded.ran
  absent := forall_pair rfl rfl
  arrived := arrived
  answered := answered
  peaceful := by
    have funded : ∀ e ∈ bothFunded.events, (match e with
        | .arrive _ _ _ | .serve _ => true
        | _ => false) = true := by decide +kernel
    intro r _ e he
    rcases List.mem_append.mp (events ▸ he) with he | he
    · have := funded e he
      cases e <;> simp_all [Event.Peaceful, Event.Disturbs, Event.Raises]
    · rcases served e he with rfl | rfl | rfl | rfl <;>
        simp [Event.Peaceful, Event.Disturbs, Event.Raises, arrives]
  transfers := transfers
  admitted := admitted
  accounts := accounts
  keys := by
    intro r hr q hq h
    have hr : r = 2 ∨ r = 3 := by simpa using hr
    have hq : q = 2 ∨ q = 3 := by simpa using hq
    rcases hr with rfl | rfl <;> rcases hq with rfl | rfl
    · rfl
    · exact (keys h).elim
    · exact (keys h.symm).elim
    · rfl
  unused := unused
  unshared := by
    rintro q hq ⟨e, he, ha⟩
    rcases served e he with rfl | rfl | rfl | rfl <;> cases ha <;> simp at hq

end bothFunded

def withdrawal (r : Nat) : Job :=
  if r = 2 then ⟨⟨some "first", .transfer ⟨4, 1, five⟩⟩, ⟨7, 8, 9⟩⟩
  else ⟨⟨some "second", .transfer ⟨4, 1, five⟩⟩, ⟨10, 11, 12⟩⟩

def withdrawalsMeet : List Event :=
  claimBoth withdrawal ++ List.replicate 11 (.serve 3) ++ List.replicate 3 (.serve 2)

def withdrawn : Run (serveRequest pairHash) :=
  .of (bothFunded.events ++ withdrawalsMeet) (by decide +kernel)

theorem withdrawn_withdrawals : Withdrawals withdrawn bothFunded.events withdrawalsMeet
    bothFunded.last {2, 3} withdrawal (fun _ => ⟨4, 1, five⟩)
    ⟨4, openFive.initialBalance.toBalance, openFive.initialBalance.toBalance, 0⟩ 5 := by
  have served : ∀ e ∈ withdrawalsMeet,
      e = arrives withdrawal 2 ∨ e = arrives withdrawal 3 ∨ e = .serve 2 ∨ e = .serve 3 := by
    simp [withdrawalsMeet, claimBoth]
  have acts : ∀ q ∉ ({2, 3} : Finset Nat), ¬ ∃ e ∈ withdrawalsMeet, e.actor = some q := by
    rintro q hq ⟨e, he, ha⟩
    rcases served e he with rfl | rfl | rfl | rfl <;> cases ha <;> simp at hq
  refine ⟨schedule_of_pair rfl served (forall_pair ⟨_, rfl, rfl⟩ ⟨_, rfl, rfl⟩)
    (forall_pair rfl rfl) (forall_pair rfl rfl) (forall_pair ?_ ?_) (fun _ _ => ⟨rfl, rfl⟩)
    (by decide +kernel) (forall_pair rfl rfl), rfl, fun _ _ => rfl, fun _ _ => ?amounts,
    fun q hq acted => (acts q hq acted).elim, ?room⟩
  · exact ⟨by decide +kernel, fun req h => by cases h; decide⟩
  · exact ⟨by decide +kernel, fun req h => by cases h; decide⟩
  case amounts => exact five_toRat
  case room =>
    have check : ∀ n ≤ withdrawalsMeet.length,
        ∀ w ∈ run (World.step (serveRequest pairHash)) bothFunded.last (withdrawalsMeet.take n),
        ∀ d ∈ w.server.committed.account? 1, d.balance.units ≤ 100000 := by decide +kernel
    rintro mid m' hmid ran r hr ⟨-, req, s, d, hreq, -, hd, -, full⟩
    obtain rfl : req = ⟨4, 1, five⟩ := (Payload.transfer.inj
      ((forall_pair rfl rfl : ∀ r ∈ ({2, 3} : Finset Nat),
        (withdrawal r).request.payload = .transfer ⟨4, 1, five⟩) r hr |>.symm.trans hreq)).symm
    have taken := List.prefix_iff_eq_take.mp hmid
    have := check mid.length hmid.length_le m' (by rw [← taken]; exact ran) d hd
    have : (d.balance.units : ℚ) ≤ 100000 := by exact_mod_cast this
    rw [five_toRat, Numeric.toRat_eq] at full
    linarith

theorem withdrawn_once : ∃ W ⊆ ({2, 3} : Finset Nat), W.card = 1 ∧
    ∃ s', withdrawn.last.server.committed.account? 4 = some s' ∧
      s'.balance.toDecimal.toRat = 0 := by
  obtain ⟨W, subset, card, -, -, s', hs', balance⟩ :=
    withdrawals_succeed_as_funds_allow withdrawn_withdrawals
  simp only [openFive_toRat, Finset.card_pair (by decide : 2 ≠ 3)] at card balance
  norm_num at card balance
  exact ⟨W, subset, card, s', hs', balance⟩

end Ledger
