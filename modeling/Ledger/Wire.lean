import Ledger.Fingerprint

namespace Ledger

open Lib

/-- A value that a money column can hold, in any of its representations.  A zero carries no
sign. -/
structure Money where
  value : Decimal
  multiple : ∃ n : Int, value.toRat = n / 10 ^ 4
  inRange : |value.toRat| < 10 ^ 16
  unsignedZero : value.toRat = 0 → value.negative = false

namespace Money

variable (m m' : Money)

theorem decimalPlaces : m.value.Multiple 4 := by
  obtain ⟨n, hn⟩ := m.multiple
  exact (Decimal.multiple_of_toRat hn).1

theorem maxDigits : (m.value.units 4).natAbs < 10 ^ 20 :=
  m.decimalPlaces.abs_toRat_lt_iff.mp m.inRange

theorem negative_eq : m.value.negative = decide (m.value.toRat < 0) :=
  Decimal.negative_eq m.unsignedZero

theorem serialize_fixedPoint : ∃ whole places,
    Decimal.FixedPoint (serializeMoney m.value) (decide (m.value.toRat < 0)) whole places ∧
      whole.length ≤ 16 ∧ places.length = 4 := by
  obtain ⟨whole, places, shape, hplaces, short⟩ :=
    Decimal.format_fixedPoint (s := 4) (by decide) m.value
  refine ⟨whole, places, m.negative_eq ▸ shape, short 16 (by decide) ?_, hplaces⟩
  rw [m.decimalPlaces.magnitude_eq Decimal.faithful_roundHalfEven]
  exact m.maxDigits

theorem serialize_eq_iff :
    serializeMoney m.value = serializeMoney m'.value ↔ m.value.toRat = m'.value.toRat := by
  rw [serializeMoney_eq_iff m.decimalPlaces m'.decimalPlaces, m.negative_eq, m'.negative_eq]
  exact and_iff_right_of_imp fun h => by rw [h]

theorem parse_serialize : ∃ d, Decimal.parse (serializeMoney m.value) = some d ∧
    d.Multiple 4 ∧ d.units 4 = m.value.units 4 ∧ d.toRat = m.value.toRat := by
  obtain ⟨d, hparse, multiple, units⟩ := m.decimalPlaces.parse_format (by decide)
  exact ⟨d, hparse, multiple, units, (multiple.toRat_eq_iff m.decimalPlaces).mpr units⟩

theorem validate_serialize (positive : 0 < m.value.toRat) : ∃ d amount,
    Decimal.parse (serializeMoney m.value) = some d ∧ PositiveMoney.validate d = some amount ∧
      amount.value.toRat = m.value.toRat := by
  obtain ⟨d, hparse, multiple, units, value⟩ := m.parse_serialize
  have bounds : d.Multiple 4 ∧ (d.units 4).natAbs < 10 ^ 20 ∧ 0 < d.units 4 :=
    ⟨multiple, units ▸ m.maxDigits, multiple.toRat_pos_iff.mp (value ▸ positive)⟩
  exact ⟨d, _, hparse, dif_pos bounds, value⟩

end Money

def Numeric.toMoney (n : Numeric) : Money where
  value := n.toDecimal
  multiple := ⟨n.units, n.toRat_eq⟩
  inRange := n.toDecimal_multiple.abs_toRat_lt_iff.mpr (by simpa using n.inRange)
  unsignedZero h := by
    rw [n.toRat_eq, div_eq_zero_iff, or_iff_left (by positivity), Int.cast_eq_zero] at h
    simp [Numeric.toDecimal, h]

theorem money_wire_exact (m m' : Money) :
    (∃ whole places,
      Decimal.FixedPoint (serializeMoney m.value) (decide (m.value.toRat < 0)) whole places ∧
        whole.length ≤ 16 ∧ places.length = 4) ∧
    (∃ d, Decimal.parse (serializeMoney m.value) = some d ∧ d.toRat = m.value.toRat) ∧
    (serializeMoney m.value = serializeMoney m'.value ↔ m.value.toRat = m'.value.toRat) ∧
    (0 < m.value.toRat → ∃ d amount, Decimal.parse (serializeMoney m.value) = some d ∧
      PositiveMoney.validate d = some amount ∧ amount.value.toRat = m.value.toRat) ∧
    ∀ balance : Balance, 0 < balance.units → ∃ d amount,
      Decimal.parse (serializeMoney balance.toDecimal) = some d ∧
        PositiveMoney.validate d = some amount ∧
        amount.value.toRat = balance.toDecimal.toRat ∧
        ¬ balance.toDecimal.lt amount.value = true := by
  refine ⟨m.serialize_fixedPoint, ?parsed, m.serialize_eq_iff m', m.validate_serialize,
    fun balance positive => ?sentBack⟩
  case parsed =>
    obtain ⟨d, hparse, -, -, value⟩ := m.parse_serialize
    exact ⟨d, hparse, value⟩
  case sentBack =>
    have worth : 0 < balance.toDecimal.toRat :=
      balance.toDecimal_multiple.toRat_pos_iff.mpr (by simpa using positive)
    obtain ⟨d, amount, hparse, hvalid, value⟩ := balance.toMoney.validate_serialize worth
    refine ⟨d, amount, hparse, hvalid, value, fun short => ?_⟩
    rw [Balance.lt_iff, ← Balance.toRat_lt_iff, value] at short
    exact lt_irrefl _ short

example : serializeMoney ⟨true, 5, -1⟩ = "-0.5000" := by decide +kernel

end Ledger
