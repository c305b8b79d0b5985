import Ledger.Answers
import Ledger.Decisions

namespace Ledger

open Lib

def ExactBalance (d : Decimal) (q : ℚ) : Prop :=
  d.toRat = q ∧ ∃ b : Balance, Balance.ofDecimal d = .ok b ∧ b.toDecimal.toRat = q

def ExactAmount (d : Decimal) (q : ℚ) : Prop :=
  d.toRat = q ∧ ∃ a : Amount, Amount.ofDecimal d = .ok a ∧ a.toDecimal.toRat = q

structure Tables.MoneyExact (t : Tables) : Prop where
  opening : ∀ m : NonNegativeMoney, ExactBalance m.value m.value.toRat
  legs : ∀ m : PositiveMoney, ExactAmount (m.value.neg precision) (-m.value.toRat) ∧
    ExactAmount m.value m.value.toRat
  cancel : ∀ (m : PositiveMoney) (debit credit : Amount),
    Amount.ofDecimal (m.value.neg precision) = .ok debit → Amount.ofDecimal m.value = .ok credit →
    debit.units + credit.units = 0
  debit : ∀ source ∈ t.accounts, ∀ m : PositiveMoney,
    ¬ source.balance.toDecimal.lt m.value = true →
    0 ≤ source.balance.toDecimal.toRat - m.value.toRat ∧
    ExactBalance (source.balance.toDecimal.sub precision m.value)
      (source.balance.toDecimal.toRat - m.value.toRat)
  credit : ∀ destination ∈ t.accounts, ∀ m : PositiveMoney,
    (destination.balance.toDecimal.add precision m.value).toRat =
      destination.balance.toDecimal.toRat + m.value.toRat ∧
    if 10 ^ 16 ≤ destination.balance.toDecimal.toRat + m.value.toRat then
      Balance.ofDecimal (destination.balance.toDecimal.add precision m.value) =
        .error (.data (some .numericOutOfRange))
    else ExactBalance (destination.balance.toDecimal.add precision m.value)
      (destination.balance.toDecimal.toRat + m.value.toRat)

/-- A transfer that gets as far as the credit, to an account that cannot hold it. -/
def Job.Overflows (job : Job) (t : Tables) : Prop :=
  t.key? job.key = none ∧ ∃ req source destination, job.request.payload = .transfer req ∧
    t.account? req.fromAccountId = some source ∧ t.account? req.toAccountId = some destination ∧
    ¬ source.balance.toDecimal.toRat < req.amount.value.toRat ∧
    10 ^ 16 ≤ destination.balance.toDecimal.toRat + req.amount.value.toRat

namespace Balance

variable (b : Balance) (m : PositiveMoney)

theorem toRat_sub : (b.toDecimal.sub precision m.value).toRat =
    b.toDecimal.toRat - m.value.toRat := by
  have hb := b.inRange
  have hm := m.maxDigits
  obtain ⟨multiple, units⟩ := b.toDecimal_multiple.sub m.decimalPlaces precision_pos
    (by rw [Numeric.toDecimal_units]; simp only [precision]; omega)
  rw [multiple.toRat_eq, units, Numeric.toDecimal_units, Numeric.toRat_eq,
    m.decimalPlaces.toRat_eq]
  push_cast
  ring

theorem toRat_add : (b.toDecimal.add precision m.value).toRat =
    b.toDecimal.toRat + m.value.toRat := by
  have hb := b.inRange
  have hm := m.maxDigits
  obtain ⟨multiple, units⟩ := b.toDecimal_multiple.add m.decimalPlaces precision_pos
    (by rw [Numeric.toDecimal_units]; simp only [precision]; omega)
  rw [multiple.toRat_eq, units, Numeric.toDecimal_units, Numeric.toRat_eq,
    m.decimalPlaces.toRat_eq]
  push_cast
  ring

end Balance

namespace PositiveMoney

variable (m : PositiveMoney)

theorem toRat_neg : (m.value.neg precision).toRat = -m.value.toRat := by
  obtain ⟨multiple, units⟩ := m.decimalPlaces.neg precision_pos (lt_trans m.maxDigits (by decide))
  rw [multiple.toRat_eq, units, m.decimalPlaces.toRat_eq]
  push_cast
  ring

end PositiveMoney

theorem Tables.moneyExact (t : Tables) : t.MoneyExact where
  opening := by
    intro m
    refine ⟨rfl, m.toBalance, m.ofDecimal, ?_⟩
    rw [Numeric.toRat_eq, m.decimalPlaces.toRat_eq]
    rfl
  legs := fun m => ⟨⟨m.toRat_neg, m.debit, m.ofDecimal_debit, m.toRat_debit⟩,
    rfl, m.credit, m.ofDecimal_credit, m.toRat_credit⟩
  cancel := by
    intro m debit credit hdebit hcredit
    cases hdebit.symm.trans m.ofDecimal_debit
    cases hcredit.symm.trans m.ofDecimal_credit
    exact neg_add_cancel _
  debit := by
    intro source _ m covered
    have enough : ¬ source.balance.toDecimal.toRat < m.value.toRat := by
      rw [Balance.toRat_lt_iff]
      exact mt (source.balance.lt_iff m).mpr covered
    obtain ⟨b, stored, hb⟩ := source.balance.ofDecimal_sub m covered
    obtain ⟨b', hb', exact_debit⟩ := source.balance.add?_debit m enough
    cases hb.symm.trans hb'
    exact ⟨sub_nonneg.mpr (not_lt.mp enough), source.balance.toRat_sub m, b, stored, exact_debit⟩
  credit := by
    intro destination _ m
    have column := destination.balance.ofDecimal_add m
    refine ⟨destination.balance.toRat_add m, ?_⟩
    split
    · next full =>
      rw [column, destination.balance.add?_credit_eq_none m full]
    · next fits =>
      obtain ⟨b, hb, exact_credit⟩ := destination.balance.add?_credit m fits
      exact ⟨destination.balance.toRat_add m, b, by rw [column, hb], exact_credit⟩

section requests

variable {sha256 : String → String} {job : Job} {clock : Timestamp} {t : Tables}

theorem Job.Overflows.full {req : TransferRequest} {destination : Account} (h : job.Overflows t)
    (hreq : job.request.payload = .transfer req)
    (hd : t.account? req.toAccountId = some destination) :
    10 ^ 16 ≤ destination.balance.toDecimal.toRat + req.amount.value.toRat := by
  obtain ⟨-, req', source, destination', hreq', -, hd', -, full⟩ := h
  cases hreq.symm.trans hreq'
  cases hd.symm.trans hd'
  exact full

theorem atomic_overflows (h : job.Overflows t) :
    atomic sha256 job clock t = (t, .envelope .amountOutOfRange false) := by
  obtain ⟨hkey, req, source, destination, hreq, hs, hd, covered, full⟩ := h
  exact atomic_outOfRange hkey hreq hs hd covered full

theorem overflows_of_atomic (admitted : job.Admitted) {retryAfter : Bool}
    (h : (atomic sha256 job clock t).2 = .envelope .amountOutOfRange retryAfter) :
    job.Overflows t := by
  cases hkey : t.key? job.key with
  | some row =>
    rw [atomic_of_taken hkey] at h
    simp only [Job.replayed] at h
    split at h <;> cases h
  | none =>
    cases hreq : job.request.payload with
    | account req =>
      simp only [atomic, hkey, hreq] at h
      cases h
    | transfer req =>
      cases hs : t.account? req.fromAccountId with
      | none =>
        cases hd : t.account? req.toAccountId <;> simp only [atomic, hkey, hreq, hs, hd] at h <;>
          cases h
      | some source =>
        cases hd : t.account? req.toAccountId with
        | none =>
          simp only [atomic, hkey, hreq, hs, hd] at h
          cases h
        | some destination =>
          by_cases short : source.balance.toDecimal.toRat < req.amount.value.toRat
          · rw [atomic_insufficient hkey hreq hs hd short] at h
            cases h
          by_cases full : 10 ^ 16 ≤ destination.balance.toDecimal.toRat + req.amount.value.toRat
          · exact ⟨hkey, req, source, destination, hreq, hs, hd, short, full⟩
          · rw [(atomic_moved hkey hreq hs hd (admitted.distinct req hreq) short full).2] at h
            cases h

end requests

section run

variable {sha256 : String → String} {es : List Event} {w : World}

theorem Inv.sequential_fresh (ran : run (World.step (serveRequest sha256)) World.init es = some w)
    {job : Job} (admitted : job.Admitted) (distinct : job.draws.toList.Nodup)
    (undrawn : ∀ id ∈ job.draws.toList, id ∉ w.drawn) (clock : Timestamp) :
    sequential (serveRequest sha256) job clock w.server.committed =
      ((atomic sha256 job clock w.server.committed).1,
        .ok (atomic sha256 job clock w.server.committed).2) := by
  have inv := Inv.of_run ran
  have books := Inv.books ran
  have disjoint : ∀ c ∈ w.server.history, ∀ id ∈ c.job.draws.toList, id ∉ job.draws.toList := by
    intro c hc id hid hmem
    obtain ⟨p, hp, hjob⟩ := inv.owners c hc
    exact undrawn id hmem (inv.drawn c.owner p hp id (hjob ▸ hid))
  exact sequential_eq_atomic sha256 clock admitted distinct
    (books.fresh (c := ⟨0, job, clock⟩) disjoint) (books.unmoved (c := ⟨0, job, clock⟩) disjoint)

theorem Inv.outOfRange_iff (ran : run (World.step (serveRequest sha256)) World.init es = some w)
    {job : Job} (distinct : job.draws.toList.Nodup)
    (undrawn : ∀ id ∈ job.draws.toList, id ∉ w.drawn) (clock : Timestamp) :
    (∃ retryAfter, (sequential (serveRequest sha256) job clock w.server.committed).2 =
        .ok (.envelope .amountOutOfRange retryAfter)) ↔
      job.Admitted ∧ job.Overflows w.server.committed := by
  by_cases admitted : job.Admitted
  · rw [Inv.sequential_fresh ran admitted distinct undrawn clock]
    constructor
    · rintro ⟨retryAfter, h⟩
      exact ⟨admitted, overflows_of_atomic admitted (Except.ok.inj h)⟩
    · rintro ⟨-, h⟩
      exact ⟨false, by rw [atomic_overflows h]⟩
  · refine ⟨?_, fun h => (admitted h.1).elim⟩
    rintro ⟨retryAfter, h⟩
    obtain ⟨e, he, early⟩ := serveRequest_of_not_admitted sha256 admitted
    simp only [sequential, he, Prog.drive_pure, Except.ok.injEq, Response.envelope.injEq] at h
    obtain ⟨rfl, -⟩ := h
    rcases early with h | h | ⟨length, h⟩ <;> cases h

theorem Inv.overflows (ran : run (World.step (serveRequest sha256)) World.init es = some w)
    {r : Nat} {p : Party} {retryAfter : Bool} (hp : w.party r = some p)
    (ha : w.answer r = some (.envelope .amountOutOfRange retryAfter)) : ¬ w.CommittedBy r ∧
      ∃ pre m, Earlier sha256 es pre m ∧ Current r pre m ∧
        p.job.Overflows m.server.committed := by
  obtain ⟨hr, admitted, pre, m, clock, hm, hcurrent, hs⟩ := Inv.decided ran hp ha
    (by simp) (by simp [LedgerError.unexpected]) (by simp [LedgerError.Early])
  have answer : (atomic sha256 p.job clock m.server.committed).2 =
      .envelope .amountOutOfRange retryAfter := congrArg Prod.snd hs
  exact ⟨hr, pre, m, hm, hcurrent, overflows_of_atomic admitted answer⟩

theorem Earns.fits {past : List Commit} {c : Commit} (h : Earns sha256 past c) :
    ¬ c.job.Overflows (tablesAfter sha256 past) := by
  intro full
  have answer := h.answer
  rw [atomic_overflows full] at answer
  cases answer

end run

theorem money_exact {sha256 : String → String} (x : Run (serveRequest sha256)) :
    x.last.server.committed.MoneyExact ∧
    (∀ job clock, job.draws.toList.Nodup → (∀ id ∈ job.draws.toList, id ∉ x.last.drawn) →
      ((∃ retryAfter, (sequential (serveRequest sha256) job clock x.last.server.committed).2 =
          .ok (.envelope .amountOutOfRange retryAfter)) ↔
        job.Admitted ∧ job.Overflows x.last.server.committed) ∧
      (job.Overflows x.last.server.committed → job.Admitted →
        (sequential (serveRequest sha256) job clock x.last.server.committed).1 =
          x.last.server.committed)) ∧
    (∀ r p retryAfter, x.last.party r = some p →
      x.last.answer r = some (.envelope .amountOutOfRange retryAfter) →
      ¬ x.last.CommittedBy r ∧ ∃ pre m, Earlier sha256 x.events pre m ∧ Current r pre m ∧
        p.job.Overflows m.server.committed) ∧
    ∀ past c, past ++ [c] <+: x.last.server.history →
      ¬ c.job.Overflows (tablesAfter sha256 past) := by
  refine ⟨Tables.moneyExact _, fun job clock distinct undrawn => ⟨?_, fun h admitted => ?_⟩,
    fun r p retryAfter hp ha => Inv.overflows x.ran hp ha,
    fun past c h => ((Inv.wellEarned x.ran).1 past c h).fits⟩
  · exact Inv.outOfRange_iff x.ran distinct undrawn clock
  · rw [Inv.sequential_fresh x.ran admitted distinct undrawn clock, atomic_overflows h]

end Ledger
