import Ledger.Transfers

namespace Ledger

open Lib

theorem precision_pos : 0 < precision := by decide

theorem Numeric.toDecimal_multiple (n : Numeric) : n.toDecimal.Multiple 4 := by
  simp [toDecimal, Decimal.Multiple]

@[simp] theorem Numeric.toDecimal_units (n : Numeric) : n.toDecimal.units 4 = n.units := by
  have hm : n.toDecimal.magnitude (· / ·) 4 = n.units.natAbs := by
    unfold Decimal.magnitude
    rw [if_pos (by simp [toDecimal])]
    simp [toDecimal]
  rw [Decimal.units, hm]
  exact Decimal.signed_natAbs fun _ => rfl

theorem Numeric.toRat_eq (n : Numeric) : n.toDecimal.toRat = (n.units : ℚ) / 10 ^ 4 := by
  rw [n.toDecimal_multiple.toRat_eq, toDecimal_units]

theorem sum_units (units : List Int) :
    ((units.sum : ℤ) : ℚ) / 10 ^ 4 = (units.map fun u : ℤ => (u : ℚ) / 10 ^ 4).sum := by
  induction units with
  | nil => simp
  | cons u units ih => rw [List.sum_cons, List.map_cons, List.sum_cons, ← ih, Int.cast_add, add_div]

section columns

variable {d : Decimal}

theorem Numeric.ofDecimal_eq (h : d.Multiple 4) : Numeric.ofDecimal d =
    if hd : (d.units 4).natAbs < 10 ^ 20 then .ok ⟨d.units 4, hd⟩
    else .error (.data (some .numericOutOfRange)) := by
  have hm := h.magnitude_eq Decimal.faithful_roundHalfUp
  unfold Numeric.ofDecimal
  by_cases hd : (d.units 4).natAbs < 10 ^ 20
  · rw [dif_pos (hm ▸ hd), dif_pos hd]
    congr 2
    rw [hm, Decimal.natAbs_units]
    rfl
  · rw [dif_neg (hm ▸ hd), dif_neg hd]

theorem Balance.ofDecimal_eq (h : d.Multiple 4) (hd : (d.units 4).natAbs < 10 ^ 20)
    (hn : 0 ≤ d.units 4) : Balance.ofDecimal d = .ok ⟨⟨d.units 4, hd⟩, hn⟩ := by
  rw [Balance.ofDecimal, Numeric.ofDecimal_eq h, dif_pos hd]
  exact dif_pos hn

theorem Balance.ofDecimal_overflow (h : d.Multiple 4) (hd : ¬ (d.units 4).natAbs < 10 ^ 20) :
    Balance.ofDecimal d = .error (.data (some .numericOutOfRange)) := by
  rw [Balance.ofDecimal, Numeric.ofDecimal_eq h, dif_neg hd]

theorem Amount.ofDecimal_eq (h : d.Multiple 4) (hd : (d.units 4).natAbs < 10 ^ 20)
    (hn : d.units 4 ≠ 0) : Amount.ofDecimal d = .ok ⟨⟨d.units 4, hd⟩, hn⟩ := by
  rw [Amount.ofDecimal, Numeric.ofDecimal_eq h, dif_pos hd]
  exact dif_pos hn

end columns

def NonNegativeMoney.toBalance (m : NonNegativeMoney) : Balance :=
  ⟨⟨m.value.units 4, m.maxDigits⟩, m.nonNegative⟩

theorem NonNegativeMoney.ofDecimal (m : NonNegativeMoney) :
    Balance.ofDecimal m.value = .ok m.toBalance :=
  Balance.ofDecimal_eq m.decimalPlaces m.maxDigits m.nonNegative

namespace PositiveMoney

def credit (m : PositiveMoney) : Amount :=
  ⟨⟨m.value.units 4, m.maxDigits⟩, m.positive.ne'⟩

def debit (m : PositiveMoney) : Amount :=
  ⟨⟨-m.value.units 4, by simpa using m.maxDigits⟩, by simpa using m.positive.ne'⟩

theorem negative_eq (m : PositiveMoney) : m.value.negative = false := by
  by_contra h
  have := m.positive
  simp only [Bool.not_eq_false] at h
  simp only [Decimal.units, Decimal.signed, h, if_true] at this
  omega

theorem ofDecimal_credit (m : PositiveMoney) : Amount.ofDecimal m.value = .ok m.credit :=
  Amount.ofDecimal_eq m.decimalPlaces m.maxDigits m.positive.ne'

theorem ofDecimal_debit (m : PositiveMoney) :
    Amount.ofDecimal (m.value.neg precision) = .ok m.debit := by
  obtain ⟨hm, hu⟩ := m.decimalPlaces.neg precision_pos (lt_trans m.maxDigits (by decide))
  rw [Amount.ofDecimal_eq hm (by simpa [hu] using m.maxDigits) (by simpa [hu] using m.positive.ne')]
  simp only [debit, hu]

theorem toRat_debit (m : PositiveMoney) : m.debit.toDecimal.toRat = -m.value.toRat := by
  rw [Numeric.toRat_eq, m.decimalPlaces.toRat_eq]
  simp [debit, neg_div]

theorem toRat_credit (m : PositiveMoney) : m.credit.toDecimal.toRat = m.value.toRat := by
  rw [Numeric.toRat_eq, m.decimalPlaces.toRat_eq]
  rfl

theorem toRat_pos (m : PositiveMoney) : 0 < m.value.toRat := by
  rw [m.decimalPlaces.toRat_eq]
  exact div_pos (Int.cast_pos.mpr m.positive) (by positivity)

end PositiveMoney

namespace Balance

theorem ext_units {b b' : Balance} (h : b.units = b'.units) : b = b' := by
  obtain ⟨⟨u, hu⟩, hn⟩ := b
  obtain ⟨⟨u', hu'⟩, hn'⟩ := b'
  cases h
  rfl

def add? (b : Balance) (a : Amount) : Option Balance :=
  if h : (b.units + a.units).natAbs < 10 ^ 20 ∧ 0 ≤ b.units + a.units then
    some ⟨⟨b.units + a.units, h.1⟩, h.2⟩
  else none

theorem units_add? {b b' : Balance} {a : Amount} (h : b.add? a = some b') :
    b'.units = b.units + a.units := by
  unfold add? at h
  split at h
  · cases h
    rfl
  · cases h

variable (b : Balance) (m : PositiveMoney)

theorem lt_iff : b.toDecimal.lt m.value = true ↔ b.units < m.value.units 4 := by
  rw [Decimal.Multiple.lt_iff b.toDecimal_multiple m.decimalPlaces, Numeric.toDecimal_units]

theorem ofDecimal_sub (h : ¬ b.toDecimal.lt m.value = true) : ∃ b',
    Balance.ofDecimal (b.toDecimal.sub precision m.value) = .ok b' ∧ b.add? m.debit = some b' := by
  have hcovered : m.value.units 4 ≤ b.units := not_lt.mp fun hlt => h ((b.lt_iff m).mpr hlt)
  have hb := b.inRange
  have hm := m.maxDigits
  have hpos := m.positive
  obtain ⟨hmul, hu⟩ := b.toDecimal_multiple.sub m.decimalPlaces precision_pos
    (by rw [Numeric.toDecimal_units]; simp only [precision]; omega)
  rw [Numeric.toDecimal_units] at hu
  refine ⟨_, Balance.ofDecimal_eq hmul (by omega) (by omega), ?_⟩
  have hsum : b.units + m.debit.units = b.units - m.value.units 4 := by
    simp [PositiveMoney.debit]; rfl
  unfold add?
  rw [dif_pos (by omega)]
  simp only [hu, hsum]

theorem toRat_lt_iff : b.toDecimal.toRat < m.value.toRat ↔ b.units < m.value.units 4 := by
  rw [b.toDecimal_multiple.toRat_lt_iff m.decimalPlaces, Numeric.toDecimal_units]

theorem add?_debit (h : ¬ b.toDecimal.toRat < m.value.toRat) : ∃ b', b.add? m.debit = some b' ∧
    b'.toDecimal.toRat = b.toDecimal.toRat - m.value.toRat := by
  rw [toRat_lt_iff] at h
  have hb := b.inRange
  have hpos := m.positive
  have sum : b.units + m.debit.units = b.units - m.value.units 4 := by
    simp only [PositiveMoney.debit]
    ring
  have range : (b.units + m.debit.units).natAbs < 10 ^ 20 := by omega
  have nonNegative : 0 ≤ b.units + m.debit.units := by omega
  refine ⟨⟨⟨_, range⟩, nonNegative⟩, dif_pos ⟨range, nonNegative⟩, ?_⟩
  rw [Numeric.toRat_eq, Numeric.toRat_eq, m.decimalPlaces.toRat_eq]
  simp only [sum]
  push_cast
  ring

theorem overflow_iff : 10 ^ 16 ≤ b.toDecimal.toRat + m.value.toRat ↔
    10 ^ 20 ≤ b.units + m.value.units 4 := by
  rw [Numeric.toRat_eq, m.decimalPlaces.toRat_eq, ← add_div, le_div_iff₀ (by positivity)]
  norm_cast

theorem add?_credit (h : ¬ 10 ^ 16 ≤ b.toDecimal.toRat + m.value.toRat) : ∃ b',
    b.add? m.credit = some b' ∧ b'.toDecimal.toRat = b.toDecimal.toRat + m.value.toRat := by
  rw [overflow_iff] at h
  have hb := b.nonNegative
  have hpos := m.positive
  have sum : b.units + m.credit.units = b.units + m.value.units 4 := rfl
  have range : (b.units + m.credit.units).natAbs < 10 ^ 20 := by omega
  have nonNegative : 0 ≤ b.units + m.credit.units := by omega
  refine ⟨⟨⟨_, range⟩, nonNegative⟩, dif_pos ⟨range, nonNegative⟩, ?_⟩
  rw [Numeric.toRat_eq, Numeric.toRat_eq, m.decimalPlaces.toRat_eq]
  simp only [sum]
  push_cast
  ring

theorem add?_credit_eq_none (h : 10 ^ 16 ≤ b.toDecimal.toRat + m.value.toRat) :
    b.add? m.credit = none := by
  rw [overflow_iff] at h
  have sum : b.units + m.credit.units = b.units + m.value.units 4 := rfl
  unfold add?
  rw [dif_neg (by omega)]

theorem ofDecimal_add : Balance.ofDecimal (b.toDecimal.add precision m.value) =
    match b.add? m.credit with
    | some b' => .ok b'
    | none => .error (.data (some .numericOutOfRange)) := by
  have hb := b.inRange
  have hm := m.maxDigits
  have hpos := m.positive
  have hnonneg := b.nonNegative
  obtain ⟨hmul, hu⟩ := b.toDecimal_multiple.add m.decimalPlaces precision_pos
    (by rw [Numeric.toDecimal_units]; simp only [precision]; omega)
  rw [Numeric.toDecimal_units] at hu
  have hsum : b.units + m.credit.units = b.units + m.value.units 4 := rfl
  by_cases hfit : (b.units + m.value.units 4).natAbs < 10 ^ 20
  · rw [Balance.ofDecimal_eq hmul (by omega) (by omega), add?, dif_pos (by omega)]
    simp only [hu, hsum]
  · rw [Balance.ofDecimal_overflow hmul (by omega), add?, dif_neg (by omega)]

end Balance

end Ledger
