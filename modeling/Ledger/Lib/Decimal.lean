import Mathlib.Algebra.Order.Field.Basic
import Mathlib.Data.Rat.Cast.Order
import Mathlib.Tactic.FieldSimp
import Mathlib.Tactic.Ring
import Mathlib.Tactic.Linarith

namespace Ledger.Lib

/-- A finite decimal floating-point number: sign, coefficient and exponent.  One
number has many of these. -/
structure Decimal where
  negative : Bool
  coefficient : Nat
  exponent : Int
  deriving DecidableEq

namespace Decimal

def signed (negative : Bool) (n : Nat) : Int := if negative then -(n : Int) else n

@[simp] theorem natAbs_signed (b : Bool) (n : Nat) : (signed b n).natAbs = n := by
  cases b <;> simp [signed]

@[simp] theorem signed_zero (b : Bool) : signed b 0 = 0 := by cases b <;> rfl

theorem signed_mul (b : Bool) (n m : Nat) : signed b (n * m) = signed b n * m := by
  cases b <;> simp [signed]

theorem signed_natAbs {b : Bool} {n : Int} (h : n ≠ 0 → b = decide (n < 0)) :
    signed b n.natAbs = n := by
  by_cases hn : n = 0
  · simp [hn]
  · rw [h hn]
    by_cases hlt : n < 0
    · simp only [signed, hlt, decide_true, if_true]
      omega
    · simp only [signed, hlt, decide_false, Bool.false_eq_true, if_false]
      omega

def toRat (d : Decimal) : ℚ := (signed d.negative d.coefficient : ℚ) * (10 : ℚ) ^ d.exponent

theorem negative_eq {d : Decimal} (h : d.toRat = 0 → d.negative = false) :
    d.negative = decide (d.toRat < 0) := by
  have scale : (0 : ℚ) < 10 ^ d.exponent := zpow_pos (by norm_num) _
  cases hn : d.negative with
  | true =>
    have nonzero : d.toRat ≠ 0 := fun hz => by
      rw [h hz] at hn
      cases hn
    have nonpos : d.toRat ≤ 0 := by
      simp only [toRat, signed, hn, if_true]
      push_cast
      exact mul_nonpos_of_nonpos_of_nonneg (by simp) scale.le
    exact (decide_eq_true (lt_of_le_of_ne nonpos nonzero)).symm
  | false =>
    have nonneg : 0 ≤ d.toRat := by
      simp only [toRat, signed, hn, Bool.false_eq_true, if_false]
      exact mul_nonneg (by simp) scale.le
    exact (decide_eq_false nonneg.not_gt).symm

def scaled (e : Int) (d : Decimal) : Int :=
  signed d.negative (d.coefficient * 10 ^ (d.exponent - e).toNat)

def roundHalfEven (n m : Nat) : Nat :=
  let q := n / m
  let r := n % m
  if 2 * r < m then q
  else if m < 2 * r then q + 1
  else if q % 2 = 0 then q else q + 1

def roundHalfUp (n m : Nat) : Nat :=
  if 2 * (n % m) < m then n / m else n / m + 1

def Faithful (round : Nat → Nat → Nat) : Prop :=
  ∀ n m, 0 < m → m ∣ n → round n m = n / m

theorem faithful_roundHalfEven : Faithful roundHalfEven := by
  intro n m hm h
  simp [roundHalfEven, Nat.mod_eq_zero_of_dvd h, hm]

theorem faithful_roundHalfUp : Faithful roundHalfUp := by
  intro n m hm h
  simp [roundHalfUp, Nat.mod_eq_zero_of_dvd h, hm]

def magnitude (round : Nat → Nat → Nat) (s : Nat) (d : Decimal) : Nat :=
  if -(s : Int) ≤ d.exponent then d.coefficient * 10 ^ (d.exponent + s).toNat
  else round d.coefficient (10 ^ (-(s : Int) - d.exponent).toNat)

def Multiple (s : Nat) (d : Decimal) : Prop :=
  10 ^ (-(s : Int) - d.exponent).toNat ∣ d.coefficient

instance (s : Nat) (d : Decimal) : Decidable (d.Multiple s) :=
  inferInstanceAs (Decidable (_ ∣ _))

def units (s : Nat) (d : Decimal) : Int := signed d.negative (d.magnitude (· / ·) s)

@[simp] theorem natAbs_units (s : Nat) (d : Decimal) :
    (d.units s).natAbs = d.magnitude (· / ·) s := natAbs_signed _ _

theorem Multiple.magnitude_eq {s : Nat} {d : Decimal} (h : d.Multiple s)
    {round : Nat → Nat → Nat} (faithful : Faithful round) :
    d.magnitude round s = (d.units s).natAbs := by
  rw [natAbs_units]
  unfold magnitude
  split
  · rfl
  · exact faithful _ _ (by positivity) h

theorem Multiple.scaled_eq {s : Nat} {d : Decimal} (h : d.Multiple s) {e : Int}
    (he : e ≤ d.exponent) (hs : e ≤ -s) :
    d.scaled e = d.units s * 10 ^ (-(s : Int) - e).toNat := by
  have key : d.coefficient * 10 ^ (d.exponent - e).toNat =
      d.magnitude (· / ·) s * 10 ^ (-(s : Int) - e).toNat := by
    unfold magnitude
    split
    · next hle =>
      rw [mul_assoc, ← pow_add]
      congr 2
      omega
    · next hlt =>
      obtain ⟨u, hu⟩ := h
      have hpos : 0 < 10 ^ (-(s : Int) - d.exponent).toNat := by positivity
      dsimp only
      rw [hu, Nat.mul_div_cancel_left u hpos, mul_comm _ u, mul_assoc, ← pow_add]
      congr 2
      omega
  unfold scaled units
  rw [key, signed_mul]
  push_cast
  rfl

theorem Multiple.toRat_eq {s : Nat} {d : Decimal} (h : d.Multiple s) :
    d.toRat = (d.units s : ℚ) / 10 ^ s := by
  have ten : (10 : ℚ) ≠ 0 := by norm_num
  unfold toRat units magnitude
  split
  · next hle =>
    rw [signed_mul]
    push_cast
    rw [mul_div_assoc, ← zpow_natCast (10 : ℚ) (d.exponent + s).toNat, ← zpow_natCast (10 : ℚ) s,
      ← zpow_sub₀ ten]
    congr 2
    omega
  · next hlt =>
    obtain ⟨u, hu⟩ := h
    have hpos : 0 < 10 ^ (-(s : Int) - d.exponent).toNat := by positivity
    dsimp only
    rw [hu, Nat.mul_div_cancel_left u hpos, mul_comm _ u, signed_mul]
    push_cast
    rw [mul_assoc, div_eq_mul_inv, ← zpow_natCast (10 : ℚ) (-(s : Int) - d.exponent).toNat,
      ← zpow_natCast (10 : ℚ) s, ← zpow_neg, ← zpow_add₀ ten]
    congr 2
    omega

theorem Multiple.toRat_eq_iff {s : Nat} {d d' : Decimal} (h : d.Multiple s)
    (h' : d'.Multiple s) : d.toRat = d'.toRat ↔ d.units s = d'.units s := by
  rw [h.toRat_eq, h'.toRat_eq, div_left_inj' (by positivity)]
  exact Int.cast_inj

theorem multiple_of_toRat {s : Nat} {d : Decimal} {n : Int} (h : d.toRat = n / 10 ^ s) :
    d.Multiple s ∧ d.units s = n := by
  have multiple : d.Multiple s := by
    by_cases he : -(s : Int) ≤ d.exponent
    · simp only [Multiple, show (-(s : Int) - d.exponent).toNat = 0 by omega, pow_zero, one_dvd]
    · obtain ⟨t, ht⟩ : ∃ t : Nat, d.exponent = -s - t :=
        ⟨(-(s : Int) - d.exponent).toNat, by omega⟩
      have htn : (-(s : Int) - d.exponent).toNat = t := by omega
      have exact_value : (signed d.negative d.coefficient : ℚ) = n * 10 ^ t := by
        have ten : (10 : ℚ) ≠ 0 := by norm_num
        rw [toRat, ht, zpow_sub₀ ten, zpow_neg, zpow_natCast, zpow_natCast] at h
        field_simp at h
        linarith
      have integers : signed d.negative d.coefficient = n * 10 ^ t := by exact_mod_cast exact_value
      have magnitudes := congrArg Int.natAbs integers
      rw [natAbs_signed, Int.natAbs_mul, Int.natAbs_pow] at magnitudes
      rw [Multiple, htn, magnitudes]
      exact dvd_mul_left _ _
  refine ⟨multiple, ?_⟩
  rw [multiple.toRat_eq, div_left_inj' (by positivity)] at h
  exact_mod_cast h

theorem Multiple.toRat_lt_iff {s : Nat} {d d' : Decimal} (h : d.Multiple s)
    (h' : d'.Multiple s) : d.toRat < d'.toRat ↔ d.units s < d'.units s := by
  rw [h.toRat_eq, h'.toRat_eq, div_lt_div_iff_of_pos_right (by positivity)]
  exact Int.cast_lt

theorem Multiple.toRat_pos_iff {s : Nat} {d : Decimal} (h : d.Multiple s) :
    0 < d.toRat ↔ 0 < d.units s := by
  rw [h.toRat_eq, lt_div_iff₀ (by positivity), zero_mul]
  exact Int.cast_pos

theorem Multiple.abs_toRat_lt_iff {s k : Nat} {d : Decimal} (h : d.Multiple s) :
    |d.toRat| < 10 ^ k ↔ (d.units s).natAbs < 10 ^ (k + s) := by
  rw [h.toRat_eq, abs_div, abs_of_pos (by positivity : (0 : ℚ) < 10 ^ s),
    div_lt_iff₀ (by positivity), ← pow_add, ← Int.cast_abs, Int.abs_eq_natAbs]
  norm_cast

theorem units_eq_scaled {s : Nat} {d : Decimal} {e : Int} (he : e ≤ d.exponent)
    (hs : -s ≤ e) : d.units s = d.scaled e * 10 ^ (e + s).toNat := by
  have key : d.magnitude (· / ·) s =
      d.coefficient * 10 ^ (d.exponent - e).toNat * 10 ^ (e + s).toNat := by
    unfold magnitude
    rw [if_pos (by omega), mul_assoc, ← pow_add]
    congr 2
    omega
  unfold units scaled
  rw [key, signed_mul]
  push_cast
  rfl

theorem multiple_of_scaled {s : Nat} {e n u : Int} {b : Bool}
    (hb : n ≠ 0 → b = decide (n < 0))
    (hn : e ≤ -s ∧ n = u * 10 ^ (-(s : Int) - e).toNat ∨
      -s ≤ e ∧ u = n * 10 ^ (e + s).toNat) :
    Multiple s ⟨b, n.natAbs, e⟩ ∧ units s ⟨b, n.natAbs, e⟩ = u := by
  have hsign : signed b n.natAbs = n := signed_natAbs hb
  rcases hn with ⟨he, rfl⟩ | ⟨he, rfl⟩
  · have habs : (u * 10 ^ (-(s : Int) - e).toNat).natAbs =
        u.natAbs * 10 ^ (-(s : Int) - e).toNat := by
      rw [Int.natAbs_mul, Int.natAbs_pow]
      rfl
    have hpos : (0 : Int) < 10 ^ (-(s : Int) - e).toNat := by positivity
    have hm : Multiple s ⟨b, (u * 10 ^ (-(s : Int) - e).toNat).natAbs, e⟩ := by
      simp only [Multiple, habs]
      exact dvd_mul_left _ _
    refine ⟨hm, ?_⟩
    have hscaled := hm.scaled_eq le_rfl he
    simp only [scaled, Int.sub_self, Int.toNat_zero, pow_zero, mul_one, hsign] at hscaled
    exact (mul_right_cancel₀ hpos.ne' hscaled).symm
  · have hm : Multiple s ⟨b, n.natAbs, e⟩ := by
      simp only [Multiple, show (-(s : Int) - e).toNat = 0 by omega, pow_zero]
      exact one_dvd _
    refine ⟨hm, ?_⟩
    rw [units_eq_scaled le_rfl he]
    simp only [scaled, Int.sub_self, Int.toNat_zero, pow_zero, mul_one, hsign]

def digitCount (n : Nat) : Nat := (Nat.toDigits 10 n).length

theorem digitCount_le_iff {n k : Nat} (hk : 0 < k) : digitCount n ≤ k ↔ n < 10 ^ k :=
  Nat.length_toDigits_le_iff (by decide) hk

def fix (prec : Nat) (d : Decimal) : Decimal :=
  let excess := digitCount d.coefficient - prec
  if excess = 0 then d
  else
    let q := roundHalfEven d.coefficient (10 ^ excess)
    if digitCount q ≤ prec then ⟨d.negative, q, d.exponent + excess⟩
    else ⟨d.negative, q / 10, d.exponent + excess + 1⟩

def add (prec : Nat) (a b : Decimal) : Decimal :=
  let e := min a.exponent b.exponent
  let sum := a.scaled e + b.scaled e
  fix prec ⟨if sum = 0 then a.negative && b.negative else sum < 0, sum.natAbs, e⟩

def copyNegate (d : Decimal) : Decimal := { d with negative := !d.negative }

def sub (prec : Nat) (a b : Decimal) : Decimal := add prec a b.copyNegate

def neg (prec : Nat) (d : Decimal) : Decimal :=
  fix prec (if d.coefficient = 0 then { d with negative := false } else d.copyNegate)

def lt (a b : Decimal) : Bool :=
  let e := min a.exponent b.exponent
  a.scaled e < b.scaled e

theorem Multiple.fix {s prec : Nat} {d : Decimal} (h : d.Multiple s) (hprec : 0 < prec)
    (hd : (d.units s).natAbs < 10 ^ prec) :
    (d.fix prec).Multiple s ∧ (d.fix prec).units s = d.units s := by
  unfold Decimal.fix
  dsimp only
  split
  · exact ⟨h, rfl⟩
  next hk =>
  obtain ⟨k, hkdef⟩ : ∃ k, k = digitCount d.coefficient - prec := ⟨_, rfl⟩
  rw [← hkdef] at hk ⊢
  have hbig : 10 ^ (prec + k - 1) ≤ d.coefficient := by
    by_contra hlt
    have := (digitCount_le_iff (n := d.coefficient) (k := prec + k - 1) (by omega)).mpr (by omega)
    omega
  have hsmall : d.coefficient < 10 ^ (prec + k) :=
    (digitCount_le_iff (by omega)).mp (by omega)
  rw [natAbs_units] at hd
  -- a coefficient this long ends in as many zeros as the rounding drops
  have hexp : d.exponent < -s := by
    by_contra hle
    unfold magnitude at hd
    rw [if_pos (by omega)] at hd
    have h1 : d.coefficient ≤ d.coefficient * 10 ^ (d.exponent + s).toNat :=
      Nat.le_mul_of_pos_right _ (by positivity)
    have h2 : 10 ^ prec ≤ 10 ^ (prec + k - 1) := Nat.pow_le_pow_right (by decide) (by omega)
    omega
  obtain ⟨t, ht⟩ : ∃ t : Nat, d.exponent = -s - t :=
    ⟨(-(s : Int) - d.exponent).toNat, by omega⟩
  have htn : (-(s : Int) - d.exponent).toNat = t := by omega
  obtain ⟨u, hu⟩ := h
  rw [htn] at hu
  have hmag : d.magnitude (· / ·) s = u := by
    unfold magnitude
    rw [if_neg (by omega), htn, hu]
    exact Nat.mul_div_cancel_left u (by positivity)
  have hkt : k ≤ t := by
    by_contra hlt
    have h1 : u * 10 ^ t < 10 ^ prec * 10 ^ t :=
      Nat.mul_lt_mul_of_pos_right (hmag ▸ hd) (by positivity)
    have h2 : 10 ^ prec * 10 ^ t ≤ 10 ^ (prec + k - 1) := by
      rw [← pow_add]
      exact Nat.pow_le_pow_right (by decide) (by omega)
    rw [mul_comm] at hu
    omega
  have hsplit : d.coefficient = 10 ^ k * (10 ^ (t - k) * u) := by
    rw [hu, ← mul_assoc, ← pow_add]
    congr 2
    omega
  have hround : roundHalfEven d.coefficient (10 ^ k) = 10 ^ (t - k) * u := by
    rw [faithful_roundHalfEven _ _ (by positivity) ⟨_, hsplit⟩, hsplit]
    exact Nat.mul_div_cancel_left _ (by positivity)
  have hfit : digitCount (10 ^ (t - k) * u) ≤ prec := by
    rw [digitCount_le_iff hprec]
    rw [hsplit, pow_add, mul_comm (10 ^ prec)] at hsmall
    exact Nat.lt_of_mul_lt_mul_left hsmall
  rw [hround, if_pos hfit]
  have hexp' : (-(s : Int) - (d.exponent + k)).toNat = t - k := by omega
  refine ⟨?_, ?_⟩
  · simp only [Multiple, hexp']
    exact dvd_mul_right _ _
  · simp only [units, hmag]
    congr 1
    unfold magnitude
    dsimp only
    split
    · next hle =>
      obtain rfl : k = t := by omega
      simp [ht]
    · rw [hexp']
      exact Nat.mul_div_cancel_left u (by positivity)

theorem Multiple.add {s prec : Nat} {a b : Decimal} (ha : a.Multiple s) (hb : b.Multiple s)
    (hprec : 0 < prec) (hfit : (a.units s + b.units s).natAbs < 10 ^ prec) :
    (a.add prec b).Multiple s ∧ (a.add prec b).units s = a.units s + b.units s := by
  obtain ⟨e, he⟩ : ∃ e, e = min a.exponent b.exponent := ⟨_, rfl⟩
  have hea : e ≤ a.exponent := he ▸ min_le_left _ _
  have heb : e ≤ b.exponent := he ▸ min_le_right _ _
  have exact_sum : e ≤ -s ∧
        a.scaled e + b.scaled e = (a.units s + b.units s) * 10 ^ (-(s : Int) - e).toNat ∨
      -s ≤ e ∧ a.units s + b.units s = (a.scaled e + b.scaled e) * 10 ^ (e + s).toNat := by
    rcases le_total e (-s) with hs | hs
    · exact .inl ⟨hs, by rw [ha.scaled_eq hea hs, hb.scaled_eq heb hs]; ring⟩
    · exact .inr ⟨hs, by rw [units_eq_scaled hea hs, units_eq_scaled heb hs]; ring⟩
  unfold Decimal.add
  rw [← he]
  obtain ⟨hm, hu⟩ := multiple_of_scaled
    (b := if a.scaled e + b.scaled e = 0 then a.negative && b.negative
      else decide (a.scaled e + b.scaled e < 0))
    (fun hn => if_neg hn) exact_sum
  obtain ⟨hm', hu'⟩ := hm.fix hprec (by rw [hu]; exact hfit)
  exact ⟨hm', hu'.trans hu⟩

theorem Multiple.copyNegate {s : Nat} {d : Decimal} (h : d.Multiple s) :
    d.copyNegate.Multiple s ∧ d.copyNegate.units s = -d.units s := by
  refine ⟨h, ?_⟩
  unfold units magnitude Decimal.copyNegate signed
  cases d.negative <;> simp

theorem Multiple.sub {s prec : Nat} {a b : Decimal} (ha : a.Multiple s) (hb : b.Multiple s)
    (hprec : 0 < prec) (hfit : (a.units s - b.units s).natAbs < 10 ^ prec) :
    (a.sub prec b).Multiple s ∧ (a.sub prec b).units s = a.units s - b.units s := by
  obtain ⟨hn, hu⟩ := hb.copyNegate
  have h := ha.add hn hprec (by rw [hu, ← sub_eq_add_neg]; exact hfit)
  rw [hu, ← sub_eq_add_neg] at h
  exact h

theorem Multiple.neg {s prec : Nat} {d : Decimal} (h : d.Multiple s) (hprec : 0 < prec)
    (hd : (d.units s).natAbs < 10 ^ prec) :
    (d.neg prec).Multiple s ∧ (d.neg prec).units s = -d.units s := by
  unfold Decimal.neg
  split
  · next hzero =>
    have hnil : ∀ b, units s { d with negative := b } = 0 := by
      intro b
      have hdiv : magnitude (· / ·) s { d with negative := b } = 0 := by
        unfold magnitude
        split <;> simp [hzero]
      simp [units, hdiv]
    have hd0 : d.units s = 0 := hnil d.negative
    obtain ⟨hm, hu⟩ := Multiple.fix (d := { d with negative := false }) h hprec
      (by rw [hnil]; positivity)
    exact ⟨hm, by rw [hu, hnil, hd0]; rfl⟩
  · obtain ⟨hn, hu⟩ := h.copyNegate
    obtain ⟨hm, hu'⟩ := hn.fix hprec (by rw [hu, Int.natAbs_neg]; exact hd)
    exact ⟨hm, hu'.trans hu⟩

theorem Multiple.lt_iff {s : Nat} {a b : Decimal} (ha : a.Multiple s) (hb : b.Multiple s) :
    a.lt b = true ↔ a.units s < b.units s := by
  obtain ⟨e, he⟩ : ∃ e, e = min a.exponent b.exponent := ⟨_, rfl⟩
  have hea : e ≤ a.exponent := he ▸ min_le_left _ _
  have heb : e ≤ b.exponent := he ▸ min_le_right _ _
  unfold Decimal.lt
  rw [← he, decide_eq_true_iff]
  rcases le_total e (-s) with hs | hs
  · rw [ha.scaled_eq hea hs, hb.scaled_eq heb hs]
    exact mul_lt_mul_iff_left₀ (by positivity)
  · rw [units_eq_scaled hea hs, units_eq_scaled heb hs]
    exact (mul_lt_mul_iff_left₀ (by positivity)).symm

def zeroPadded (width n : Nat) : List Char :=
  List.replicate (width - (Nat.toDigits 10 n).length) '0' ++ Nat.toDigits 10 n

/-- The text of a number with `s` decimal places, as format code `.sf` writes it. -/
def format (s : Nat) (d : Decimal) : String :=
  let m := d.magnitude roundHalfEven s
  String.ofList ((if d.negative then ['-'] else []) ++ Nat.toDigits 10 (m / 10 ^ s) ++
    '.' :: zeroPadded s (m % 10 ^ s))

def parse (text : String) : Option Decimal :=
  let (negative, body) := match text.toList with
    | '-' :: rest => (true, rest)
    | rest => (false, rest)
  let whole := body.takeWhile (· ≠ '.')
  let places := (body.dropWhile (· ≠ '.')).tail
  if whole ≠ [] ∧ whole.all Char.isDigit ∧ places.all Char.isDigit then
    some ⟨negative, Nat.ofDigitChars 10 (whole ++ places) 0, -places.length⟩
  else none

theorem isDigit_toDigits {n : Nat} {c : Char} (h : c ∈ Nat.toDigits 10 n) : c.isDigit = true :=
  Nat.isDigit_of_mem_toDigits (by decide) (by decide) h

theorem isDigit_zeroPadded {width n : Nat} {c : Char} (h : c ∈ zeroPadded width n) :
    c.isDigit = true := by
  rcases List.mem_append.mp h with h | h
  · rw [List.eq_of_mem_replicate h]
    rfl
  · exact isDigit_toDigits h

theorem ne_of_isDigit {c d : Char} (hd : d.isDigit = false) (h : c.isDigit = true) : c ≠ d := by
  rintro rfl
  simp [hd] at h

theorem length_zeroPadded {width n : Nat} (hw : 0 < width) (h : n < 10 ^ width) :
    (zeroPadded width n).length = width := by
  have := (Nat.length_toDigits_le_iff (by decide) hw).mpr h
  simp only [zeroPadded, List.length_append, List.length_replicate]
  omega

theorem ofDigitChars_zeroPadded (width n init : Nat) :
    Nat.ofDigitChars 10 (zeroPadded width n) init =
      10 ^ (zeroPadded width n).length * init + n := by
  rw [Nat.ofDigitChars_eq_ofDigitChars_zero, zeroPadded, Nat.ofDigitChars_append,
    Nat.ofDigitChars_replicate_zero, Nat.mul_zero, Nat.ofDigitChars_ten_toDigits]

theorem head?_toDigits {n : Nat} (h : (Nat.toDigits 10 n).head? = some '0') : n = 0 := by
  induction n using Nat.strong_induction_on with
  | _ n ih =>
    by_cases hn : n < 10
    · rw [Nat.toDigits_of_lt_base hn] at h
      simp only [List.head?_cons, Option.some.injEq] at h
      have value := Nat.toNat_digitChar_of_lt_ten hn
      rw [h] at value
      simp at value
      omega
    · rw [Nat.toDigits_of_base_le (by decide) (by omega),
        List.head?_append_of_ne_nil _ Nat.toDigits_ne_nil] at h
      have := ih (n / 10) (by omega) h
      omega

structure FixedPoint (text : String) (negative : Bool) (whole places : List Char) : Prop where
  text_eq : text.toList = (if negative then ['-'] else []) ++ whole ++ '.' :: places
  nonempty : whole ≠ []
  digits : ∀ c ∈ whole ++ places, c.isDigit = true
  leading : whole.head? = some '0' → whole = ['0']

theorem format_fixedPoint {s : Nat} (hs : 0 < s) (d : Decimal) : ∃ whole places,
    FixedPoint (d.format s) d.negative whole places ∧ places.length = s ∧
      ∀ k, 0 < k → d.magnitude roundHalfEven s < 10 ^ (k + s) → whole.length ≤ k := by
  refine ⟨_, _, ⟨String.toList_ofList, Nat.toDigits_ne_nil, fun c hc => ?digits, fun h => ?leading⟩,
    length_zeroPadded hs (Nat.mod_lt _ (by positivity)), fun k hk h => ?short⟩
  case digits =>
    rcases List.mem_append.mp hc with hc | hc
    · exact isDigit_toDigits hc
    · exact isDigit_zeroPadded hc
  case leading =>
    rw [head?_toDigits h]
    rfl
  case short =>
    rw [Nat.length_toDigits_le_iff (by decide) hk]
    exact Nat.div_lt_of_lt_mul (by rwa [← pow_add, add_comm])

/-- Reading a rendered number gives the rounded magnitude back, digit for digit. -/
theorem parse_format {s : Nat} (hs : 0 < s) (d : Decimal) :
    parse (d.format s) = some ⟨d.negative, d.magnitude roundHalfEven s, -s⟩ := by
  obtain ⟨m, hm⟩ : ∃ m, m = d.magnitude roundHalfEven s := ⟨_, rfl⟩
  obtain ⟨whole, hw⟩ : ∃ whole, whole = Nat.toDigits 10 (m / 10 ^ s) := ⟨_, rfl⟩
  obtain ⟨places, hp⟩ : ∃ places, places = zeroPadded s (m % 10 ^ s) := ⟨_, rfl⟩
  have hlen : places.length = s := hp ▸ length_zeroPadded hs (Nat.mod_lt _ (by positivity))
  have hwhole : ∀ c ∈ whole, c.isDigit = true := fun c hc => isDigit_toDigits (hw ▸ hc)
  have hplaces : ∀ c ∈ places, c.isDigit = true := fun c hc => isDigit_zeroPadded (hp ▸ hc)
  have hne : whole ≠ [] := hw ▸ Nat.toDigits_ne_nil
  have hdot : ∀ c ∈ whole, decide (c ≠ '.') = true := fun c hc => by
    simpa using ne_of_isDigit rfl (hwhole c hc)
  have htake : (whole ++ '.' :: places).takeWhile (· ≠ '.') = whole := by
    rw [List.takeWhile_append_of_pos hdot]
    simp
  have hdrop : ((whole ++ '.' :: places).dropWhile (· ≠ '.')).tail = places := by
    rw [List.dropWhile_append_of_pos hdot]
    simp
  have hread : Nat.ofDigitChars 10 (whole ++ places) 0 = m := by
    rw [Nat.ofDigitChars_append, hw, Nat.ofDigitChars_ten_toDigits, hp, ofDigitChars_zeroPadded,
      ← hp, hlen]
    exact Nat.div_add_mod m (10 ^ s)
  have hsign : (match (if d.negative then ['-'] else []) ++ whole ++ '.' :: places with
      | '-' :: rest => (true, rest)
      | rest => (false, rest)) = (d.negative, whole ++ '.' :: places) := by
    cases d.negative with
    | true => rfl
    | false =>
      obtain ⟨c, rest, rfl⟩ := List.exists_cons_of_ne_nil hne
      have hc : c ≠ '-' := ne_of_isDigit rfl (hwhole c List.mem_cons_self)
      simp [hc]
  unfold parse format
  simp only [← hm, ← hw, ← hp, String.toList_ofList, hsign, htake, hdrop, hread, hlen]
  rw [if_pos ⟨hne, List.all_eq_true.mpr hwhole, List.all_eq_true.mpr hplaces⟩]

theorem format_eq_iff {s : Nat} (hs : 0 < s) {d d' : Decimal} : d.format s = d'.format s ↔
    d.negative = d'.negative ∧ d.magnitude roundHalfEven s = d'.magnitude roundHalfEven s := by
  constructor
  · intro h
    have hparse := parse_format hs d
    rw [h, parse_format hs d', Option.some.injEq, mk.injEq] at hparse
    exact ⟨hparse.1.symm, hparse.2.1.symm⟩
  · rintro ⟨hn, hm⟩
    simp only [format, hn, hm]

theorem Multiple.parse_format {s : Nat} (hs : 0 < s) {d : Decimal} (h : d.Multiple s) :
    ∃ e, parse (d.format s) = some e ∧ e.Multiple s ∧ e.units s = d.units s := by
  have exact_magnitude : d.magnitude roundHalfEven s = d.magnitude (· / ·) s :=
    (h.magnitude_eq faithful_roundHalfEven).trans (natAbs_units _ _)
  refine ⟨_, Decimal.parse_format hs d, by simp [Multiple], ?_⟩
  rw [exact_magnitude, units, units]
  congr 1
  rw [magnitude, if_pos (le_refl (-(s : Int)))]
  simp

theorem Multiple.format_eq_iff {s : Nat} (hs : 0 < s) {d d' : Decimal} (h : d.Multiple s)
    (h' : d'.Multiple s) :
    d.format s = d'.format s ↔ d.negative = d'.negative ∧ d.toRat = d'.toRat := by
  rw [Decimal.format_eq_iff hs, h.toRat_eq_iff h', h.magnitude_eq faithful_roundHalfEven,
    h'.magnitude_eq faithful_roundHalfEven]
  refine and_congr_right fun hn => ⟨fun hm => ?_, congrArg Int.natAbs⟩
  rw [natAbs_units, natAbs_units] at hm
  simp only [units, hn, hm]

end Decimal

end Ledger.Lib
