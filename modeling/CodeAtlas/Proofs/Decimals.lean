import CodeAtlas.Yaml.Scalar
import CodeAtlas.Proofs.Digits
import Mathlib.Data.Nat.Bitwise
import Mathlib.Data.Rat.Cast.Defs
import Mathlib.Algebra.Order.Field.Basic
import Mathlib.Algebra.Order.Ring.Rat
import Mathlib.Tactic.FieldSimp
import Mathlib.Tactic.Linarith
import Mathlib.Tactic.Positivity
import Mathlib.Tactic.Ring
import Mathlib.Tactic.NormNum
/-!
# Doubles read back from their digits

A double is written with the fewest digits to which no other double is as near, and reading rounds to the
nearest double, so it is read back. Rounding is told apart from the search for the digits by one relation:
which quotients are nearest to the double with an integer and so many places behind it.

Results:
1. `ofMagnitude_magnitude`: a double is what its sign and its size make.
2. `ofRatio_of_rounds`: a quotient that is nearest to a finite double is rounded to it.
3. `rounds_digitsTo`: eighteen digits tell a double from all others.
4. `rounds_shortest`, `rounds_written`: the digits that are written are nearest to their double.
5. `ofDecimal_of_rounds`: a decimal number that is nearest to a finite double is read as it.
-/

namespace CodeAtlas.Binary64

variable {x : Binary64} {m q num den : Nat} {w : ℚ}

/-! ## Bits -/

theorem exponentField_eq (x : Binary64) : x.exponentField = x.bits.toNat / 2 ^ 52 % 2 ^ 11 := by
  have hmask : (0x7FF : UInt64).toNat = 2 ^ 11 - 1 := rfl
  rw [exponentField, UInt64.toNat_and, UInt64.toNat_shiftRight, hmask,
    Nat.and_two_pow_sub_one_eq_mod, Nat.shiftRight_eq_div_pow]
  rfl

theorem fractionField_eq (x : Binary64) : x.fractionField = x.bits.toNat % 2 ^ 52 := by
  have hmask : (0xFFFFFFFFFFFFF : UInt64).toNat = 2 ^ 52 - 1 := rfl
  rw [fractionField, UInt64.toNat_and, hmask, Nat.and_two_pow_sub_one_eq_mod]

theorem isNegative_iff (x : Binary64) : x.isNegative = true ↔ 2 ^ 63 ≤ x.bits.toNat := by
  have hbound : x.bits.toNat < 2 ^ 64 := x.bits.toNat_lt
  have hshift : (x.bits >>> 63).toNat = x.bits.toNat / 2 ^ 63 := by
    rw [UInt64.toNat_shiftRight, Nat.shiftRight_eq_div_pow]
    rfl
  rw [isNegative, beq_iff_eq, ← UInt64.toNat_inj, hshift]
  change x.bits.toNat / 2 ^ 63 = 1 ↔ _
  omega

/-- The size of the absolute value of a double in the order of doubles. -/
def magnitude (x : Binary64) : Nat := x.parts.1 + x.parts.2 * 2 ^ 52

theorem magnitude_eq (x : Binary64) : x.magnitude = x.bits.toNat % 2 ^ 63 := by
  have hexponent := x.exponentField_eq
  have hfraction := x.fractionField_eq
  have hpow : Nat.pow 2 52 = 2 ^ 52 := rfl
  rw [magnitude, parts, hpow]
  split
  · next hzero =>
    have := beq_iff_eq.mp hzero
    dsimp only
    omega
  · next hzero =>
    have : x.exponentField ≠ 0 := fun h => hzero (beq_iff_eq.mpr h)
    dsimp only
    omega

/-- A double is what its sign and its size make. -/
theorem ofMagnitude_magnitude (x : Binary64) : ofMagnitude x.isNegative x.magnitude = x := by
  have hbound : x.bits.toNat < 2 ^ 64 := x.bits.toNat_lt
  have hsize : (UInt64.ofNat x.magnitude).toNat = x.magnitude := by
    rw [UInt64.toNat_ofNat', Nat.mod_eq_of_lt]
    rw [magnitude_eq]
    omega
  refine congrArg Binary64.mk (UInt64.toNat_inj.mp ?_)
  rw [UInt64.toNat_or, hsize, magnitude_eq]
  cases hneg : x.isNegative with
  | true =>
    have hle := x.isNegative_iff.mp hneg
    have hsign : (if true = true then (0x8000000000000000 : UInt64) else 0).toNat = 2 ^ 63 := rfl
    have hor := Nat.two_pow_add_eq_or_of_lt (Nat.mod_lt x.bits.toNat (Nat.two_pow_pos 63)) 1
    rw [Nat.mul_one] at hor
    rw [hsign, ← hor]
    omega
  | false =>
    have hlt : ¬ 2 ^ 63 ≤ x.bits.toNat := fun h => by
      rw [x.isNegative_iff.mpr h] at hneg
      cases hneg
    have hsign : (if false = true then (0x8000000000000000 : UInt64) else 0).toNat = 0 := rfl
    rw [hsign, Nat.zero_or]
    omega

/-- The integer behind a double has at most 53 bits, and so many if it can be halved. -/
theorem parts_bounds (hfinite : x.isFinite = true) :
    x.parts.1 < 2 ^ 53 ∧ (0 < x.parts.2 → 2 ^ 52 ≤ x.parts.1) ∧ x.parts.2 ≤ 2045 := by
  have hexponent := x.exponentField_eq
  have hfraction := x.fractionField_eq
  have hpow : Nat.pow 2 52 = 2 ^ 52 := rfl
  have hfield : x.exponentField ≠ 0x7FF := by simpa [isFinite] using hfinite
  rw [parts, hpow]
  split
  · dsimp only
    omega
  · next hzero =>
    have : x.exponentField ≠ 0 := fun h => hzero (beq_iff_eq.mpr h)
    dsimp only
    omega

/-! ## Rounding -/

/-- A quotient that is not further than a half from an integer is rounded to it, at a half if it is
even. -/
theorem roundQuotient_eq (hden : 0 < den) (hlow : 2 * (m * den) ≤ 2 * num + den)
    (hhigh : 2 * num ≤ 2 * (m * den) + den)
    (htie : m % 2 = 1 → 2 * (m * den) < 2 * num + den ∧ 2 * num < 2 * (m * den) + den) :
    roundQuotient num den = m := by
  have hnum : num = num / den * den + num % den := by rw [Nat.mul_comm, Nat.div_add_mod]
  have hrest : num % den < den := Nat.mod_lt num hden
  rw [roundQuotient]
  generalize num / den = k at hnum ⊢
  generalize num % den = r at hnum hrest ⊢
  have hle : k ≤ m := by
    refine Nat.le_of_not_lt fun hlt => ?_
    have := Nat.mul_le_mul_right den hlt
    rw [Nat.succ_mul] at this
    omega
  have hge : m ≤ k + 1 := by
    refine Nat.le_of_not_lt fun hlt => ?_
    have := Nat.mul_le_mul_right den hlt
    rw [Nat.succ_mul, Nat.succ_mul] at this
    omega
  -- the nearest integer is the quotient or the next one, as the remainder tells
  have hsplit : m = k ∨ m = k + 1 := by omega
  rcases hsplit with rfl | rfl
  · have hnear : 2 * r ≤ den := by omega
    split
    · rfl
    · split
      · omega
      · have htwo : (m % 2 == 0) = true := by
          refine beq_iff_eq.mpr (Nat.mod_two_ne_one.mp fun hodd => ?_)
          have := htie hodd
          omega
        rw [htwo, if_pos rfl]
  · have hproduct : (k + 1) * den = k * den + den := Nat.succ_mul k den
    split
    · omega
    · split
      · rfl
      · have hodd : (k % 2 == 0) = false := by
          refine beq_eq_false_iff_ne.mpr fun heven => ?_
          have := htie (by omega)
          omega
        rw [hodd, if_neg Bool.false_ne_true]

/-- The quotients, 1074 places shifted, that are nearest to the integer with so many places. Below a
power of two the next integer is only half as far. -/
structure Rounds (m q : Nat) (w : ℚ) : Prop where
  low : (4 * m - if m = 2 ^ 52 ∧ 0 < q then 1 else 2) * 2 ^ q ≤ 4 * w
  high : 4 * w ≤ (4 * m + 2) * 2 ^ q
  tie : m % 2 = 1 → (4 * m - 2) * 2 ^ q < 4 * w ∧ 4 * w < (4 * m + 2) * 2 ^ q

/-- How many places are cut off so that 53 bits are left. -/
theorem log2_sub_eq {n k : Nat} (hlow : k = 0 ∨ 2 ^ (52 + k) ≤ n) (hhigh : n < 2 ^ (53 + k)) :
    Nat.log2 n - 52 = k := by
  rcases Nat.eq_zero_or_pos n with rfl | hn
  · have hpow := Nat.two_pow_pos (52 + k)
    have : Nat.log2 0 = 0 := rfl
    omega
  · have hlt : Nat.log2 n < 53 + k := (Nat.log2_lt (by omega)).mpr hhigh
    rcases hlow with rfl | hlow
    · omega
    · have : ¬ Nat.log2 n < 52 + k := fun h => Nat.not_lt.mpr hlow ((Nat.log2_lt (by omega)).mp h)
      omega

/-- A quotient is rounded at the place behind which 53 bits are left. -/
theorem ofRatio_of_round (negative : Bool) (num den m k : Nat) (hnum : num ≠ 0) (hden : 0 < den)
    (hlow : k = 0 ∨ 2 ^ 52 * (2 ^ k * den) ≤ num * Nat.pow 2 1074)
    (hhigh : num * Nat.pow 2 1074 < 2 ^ 53 * (2 ^ k * den))
    (hround : roundQuotient (num * Nat.pow 2 1074) (2 ^ k * den) = m)
    (hfinite : m + k * 2 ^ 52 < 0x7FF0000000000000) :
    ofRatio negative num den = ofMagnitude negative (m + k * 2 ^ 52) := by
  have hpow : Nat.pow 2 k = 2 ^ k := rfl
  have hsize : (if (k == 0) = true then m else m + k * Nat.pow 2 52) = m + k * 2 ^ 52 := by
    split
    · next hk => rw [beq_iff_eq.mp hk, Nat.zero_mul, Nat.add_zero]
    · rfl
  rw [ofRatio, beq_eq_false_iff_ne.mpr hnum, if_neg Bool.false_ne_true]
  generalize num * Nat.pow 2 1074 = scaled at hlow hhigh hround ⊢
  have hplaces : Nat.log2 (scaled / den) - 52 = k := by
    refine log2_sub_eq (hlow.imp_right fun hlow => ?_) ?_
    · rwa [Nat.le_div_iff_mul_le hden, Nat.pow_add, Nat.mul_assoc]
    · rwa [Nat.div_lt_iff_lt_mul hden, Nat.pow_add, Nat.mul_assoc]
  simp only [hplaces, hpow, Nat.mul_comm den, hround, hsize]
  rw [if_neg (Nat.not_le.mpr hfinite)]

/-- A quotient that is nearest to a finite double is rounded to it. -/
theorem ofRatio_of_rounds {negative : Bool} (hden : 0 < den) (hm : 0 < m) (hbits : m < 2 ^ 53)
    (hnormal : 0 < q → 2 ^ 52 ≤ m) (hq : q ≤ 2045)
    (h : Rounds m q ((num * Nat.pow 2 1074 : Nat) / den)) :
    ofRatio negative num den = ofMagnitude negative (m + q * 2 ^ 52) := by
  have hround := ofRatio_of_round negative num den
  generalize Nat.pow 2 1074 = one at h hround
  generalize hscaled : num * one = scaled at h hround
  obtain ⟨hlow, hhigh, htie⟩ := h
  have hden' : (0 : ℚ) < den := Nat.cast_pos.mpr hden
  rw [mul_div_assoc', le_div_iff₀ hden', sub_mul, sub_mul, sub_le_iff_le_add] at hlow
  rw [mul_div_assoc', div_le_iff₀ hden'] at hhigh
  rw [mul_div_assoc', lt_div_iff₀ hden', div_lt_iff₀ hden', sub_mul, sub_mul,
    sub_lt_iff_lt_add] at htie
  norm_cast at hlow hhigh htie
  have hplace : 0 < 2 ^ q * den := Nat.mul_pos (Nat.two_pow_pos q) hden
  simp only [Nat.mul_assoc, Nat.add_mul] at hlow hhigh htie
  have hpositive : 0 < m * (2 ^ q * den) := Nat.mul_pos hm hplace
  have htop : m * (2 ^ q * den) + 2 ^ q * den ≤ 2 ^ 53 * (2 ^ q * den) :=
    Nat.succ_mul m _ ▸ Nat.mul_le_mul_right _ hbits
  have hlow' : 4 * (m * (2 ^ q * den)) ≤ 4 * scaled + 2 * (2 ^ q * den) := by
    split at hlow <;> omega
  have hone : m * (2 ^ q * den) ≥ 2 ^ q * den := Nat.le_mul_of_pos_left _ hm
  have hnum : num ≠ 0 := by
    rintro rfl
    omega
  by_cases hplaces : q = 0 ∨ 2 ^ 52 * (2 ^ q * den) ≤ scaled
  · refine hround m q hnum hden hplaces (by omega) ?_ (by omega)
    exact roundQuotient_eq hplace (by omega) (by omega) fun hodd => by
      have := htie hodd
      omega
  · -- below the power of two the quotient has one more place
    obtain ⟨p, rfl⟩ : ∃ p, q = p + 1 := ⟨q - 1, by omega⟩
    have hbelow : scaled < 2 ^ 52 * (2 ^ (p + 1) * den) := by omega
    have htwice : 2 ^ (p + 1) * den = 2 * (2 ^ p * den) := by
      rw [Nat.pow_succ, Nat.mul_right_comm, Nat.mul_comm]
    have hmin : m = 2 ^ 52 := by
      refine Nat.le_antisymm (Nat.le_of_not_lt fun hlt => ?_) (hnormal (Nat.succ_pos p))
      have := Nat.mul_le_mul_right (2 ^ (p + 1) * den) hlt
      rw [Nat.succ_mul] at this
      omega
    rw [if_pos ⟨hmin, Nat.succ_pos p⟩, hmin] at hlow
    have hsame : m + (p + 1) * 2 ^ 52 = 2 ^ 53 + p * 2 ^ 52 := by omega
    have hplace' : 0 < 2 ^ p * den := Nat.mul_pos (Nat.two_pow_pos p) hden
    rw [hsame]
    refine hround (2 ^ 53) p hnum hden (.inr (by omega)) (by omega) ?_ (by omega)
    exact roundQuotient_eq hplace' (by omega) (by omega) fun hodd => by cases hodd

/-! ## Decimal digits -/

/-- A power of ten as a quotient. -/
theorem ten_zpow (e : ℤ) :
    (10 : ℚ) ^ e = (Nat.pow 10 e.toNat : Nat) / (Nat.pow 10 (-e).toNat : Nat) := by
  have hcast : ∀ n : Nat, ((Nat.pow 10 n : Nat) : ℚ) = (10 : ℚ) ^ n := fun n => Nat.cast_pow 10 n
  rw [hcast, hcast]
  rcases Int.le_total 0 e with he | he
  · obtain ⟨n, rfl⟩ := Int.eq_ofNat_of_zero_le he
    simp
  · obtain ⟨n, hn⟩ := Int.eq_ofNat_of_zero_le (Int.neg_nonneg_of_nonpos he)
    obtain rfl : e = -n := by omega
    simp

/-- The digits of a quotient down to a place. -/
def digitsTo (num den : Nat) (e : ℤ) : Nat :=
  if e ≥ 0 then num / (den * Nat.pow 10 e.toNat) else num * Nat.pow 10 (-e).toNat / den

/-- The digits of a quotient are less than one unit of their place below it. -/
theorem digitsTo_le (num : Nat) (hden : 0 < den) (e : ℤ) :
    (digitsTo num den e : ℚ) * 10 ^ e ≤ num / den ∧
      (num : ℚ) / den < (digitsTo num den e + 1) * 10 ^ e := by
  have hdivision : ∀ a b : Nat, 0 < b →
      ((a / b : Nat) : ℚ) ≤ a / b ∧ (a : ℚ) / b < (a / b : Nat) + 1 := by
    intro a b hb
    have hb' : (0 : ℚ) < b := Nat.cast_pos.mpr hb
    rw [le_div_iff₀ hb', div_lt_iff₀ hb']
    have hhigh : a < (a / b + 1) * b := (Nat.div_lt_iff_lt_mul hb).mp (Nat.lt_succ_self _)
    exact ⟨by exact_mod_cast Nat.div_mul_le_self a b, by exact_mod_cast hhigh⟩
  have hden' : (0 : ℚ) < den := Nat.cast_pos.mpr hden
  have hten : ∀ n, 0 < Nat.pow 10 n := fun n => Nat.pow_pos (by decide)
  rw [digitsTo, ten_zpow]
  split
  · next he =>
    have hzero : (-e).toNat = 0 := by omega
    have hpos : (0 : ℚ) < (Nat.pow 10 e.toNat : Nat) := Nat.cast_pos.mpr (hten _)
    have hone : ((Nat.pow 10 0 : Nat) : ℚ) = 1 := Nat.cast_one
    obtain ⟨hlow, hhigh⟩ := hdivision num (den * Nat.pow 10 e.toNat) (Nat.mul_pos hden (hten _))
    rw [Nat.cast_mul, ← div_div, le_div_iff₀ hpos] at hlow
    rw [Nat.cast_mul, ← div_div, div_lt_iff₀ hpos] at hhigh
    rw [hzero, hone, div_one]
    exact ⟨hlow, hhigh⟩
  · next he =>
    have hzero : e.toNat = 0 := by omega
    have hpos : (0 : ℚ) < (Nat.pow 10 (-e).toNat : Nat) := Nat.cast_pos.mpr (hten _)
    have hone : ((Nat.pow 10 0 : Nat) : ℚ) = 1 := Nat.cast_one
    obtain ⟨hlow, hhigh⟩ := hdivision (num * Nat.pow 10 (-e).toNat) den hden
    rw [hzero, hone, mul_one_div, mul_one_div, div_le_iff₀ hpos, lt_div_iff₀ hpos,
      div_mul_eq_mul_div, ← Nat.cast_mul]
    exact ⟨hlow, hhigh⟩

theorem lt_pow_digitCount (n : Nat) : n < Nat.pow 10 (digitCount n) :=
  (Nat.length_toDigits_le_iff (by decide) Nat.length_toDigits_pos).mp (Nat.le_refl _)

theorem pow_digitCount_le {n : Nat} (hn : 0 < n) : Nat.pow 10 (digitCount n - 1) ≤ n := by
  rcases Nat.eq_zero_or_pos (digitCount n - 1) with hone | hmore
  · rw [hone]
    exact hn
  · refine Nat.le_of_not_lt fun hlt => ?_
    have : digitCount n ≤ digitCount n - 1 :=
      (Nat.length_toDigits_le_iff (by decide) hmore).mpr hlt
    omega

theorem digitCount_le {n k : Nat} (hk : 0 < k) (hn : n < Nat.pow 10 k) : digitCount n ≤ k :=
  (Nat.length_toDigits_le_iff (by decide) hk).mpr hn

/-- A positive quotient has its first digit at its exponent. -/
theorem ten_zpow_le (hnum : 0 < num) (hden : 0 < den) :
    (10 : ℚ) ^ (decimalExponent num den - 1) ≤ num / den := by
  have hden' : (0 : ℚ) < den := Nat.cast_pos.mpr hden
  have hnum' : (0 : ℚ) < num := Nat.cast_pos.mpr hnum
  have hcast : ∀ n : Nat, ((Nat.pow 10 n : Nat) : ℚ) = (10 : ℚ) ^ n := fun n => Nat.cast_pow 10 n
  -- below one the first digit is counted from the inverse
  have hbelow : ∀ n : Nat, den ≤ num * Nat.pow 10 n → (10 : ℚ) ^ (-(n : ℤ)) * den ≤ num := by
    intro n hn
    rw [zpow_neg, zpow_natCast, ← hcast,
      inv_mul_le_iff₀ (Nat.cast_pos.mpr (Nat.pow_pos (by decide))), mul_comm]
    exact_mod_cast hn
  rw [le_div_iff₀ hden', decimalExponent]
  split
  · next hge =>
    have hpos : 0 < num / den := Nat.div_pos hge hden
    have hplaces : 0 < digitCount (num / den) := Nat.length_toDigits_pos
    have hle := Nat.le_trans (Nat.mul_le_mul_right den (pow_digitCount_le hpos))
      (Nat.div_mul_le_self num den)
    have hexponent : (digitCount (num / den) : ℤ) - 1 = (digitCount (num / den) - 1 : Nat) := by omega
    rw [hexponent, zpow_natCast, ← hcast]
    exact_mod_cast hle
  · have hplaces : 0 < digitCount (den / num) := Nat.length_toDigits_pos
    dsimp only
    split
    · next hge =>
      have hexponent : 1 - ((digitCount (den / num) : ℤ) - 1) - 1 =
          -(digitCount (den / num) - 1 : Nat) := by omega
      rw [hexponent]
      exact hbelow _ hge
    · have hlt := (Nat.div_lt_iff_lt_mul hnum).mp (lt_pow_digitCount (den / num))
      have hexponent : 1 - (digitCount (den / num) : ℤ) - 1 =
          -(digitCount (den / num) : Nat) := by omega
      rw [hexponent]
      exact hbelow _ (Nat.mul_comm _ num ▸ hlt.le)

/-- The exponent of a quotient is not far below that of its denominator. -/
theorem le_decimalExponent (num : Nat) {k : Nat} (hk : 0 < k) (hden : den < Nat.pow 10 k) :
    1 - (k : ℤ) ≤ decimalExponent num den := by
  rw [decimalExponent]
  split
  · omega
  · have hplaces : digitCount (den / num) ≤ k :=
      digitCount_le hk (Nat.lt_of_le_of_lt (Nat.div_le_self _ _) hden)
    dsimp only
    split <;> omega

/-! ## The fewest digits -/

section

variable {k : ℤ} {inside : Nat → ℤ → Bool}

/-- A place is enough if the digits down to it, or the next larger ones, lie inside. -/
theorem shortest_go_succ (m num den : Nat) (k : ℤ) (inside : Nat → ℤ → Bool) (fuel n : Nat) :
    (∃ d, shortest.go m num den k inside (fuel + 1) n = (d, k - n) ∧ inside d (k - n) = true) ∨
      (inside (digitsTo num den (k - n)) (k - n) = false ∧
        shortest.go m num den k inside (fuel + 1) n =
          shortest.go m num den k inside fuel (n + 1)) := by
  obtain ⟨a, b, hpair, hdigits⟩ : ∃ a b,
      (if k - n ≥ 0 then (num, den * Nat.pow 10 (k - n).toNat)
        else (num * Nat.pow 10 (-(k - n)).toNat, den)) = (a, b) ∧ digitsTo num den (k - n) = a / b := by
    rw [digitsTo]
    split
    · exact ⟨_, _, rfl, rfl⟩
    · exact ⟨_, _, rfl, rfl⟩
  rw [shortest.go, hdigits]
  simp only [hpair]
  split
  · split
    · exact .inl ⟨_, rfl, by assumption⟩
    · exact .inl ⟨_, rfl, by assumption⟩
  · exact .inl ⟨_, rfl, by assumption⟩
  · exact .inl ⟨_, rfl, by assumption⟩
  · exact .inr ⟨by assumption, rfl⟩

/-- The digits that are found lie inside if there are such at one of the places that are tried. -/
theorem shortest_go_inside (m fuel n j : Nat) (hj : j < fuel)
    (h : inside (digitsTo num den (k - (n + j : Nat))) (k - (n + j : Nat)) = true) :
    ∃ d i, i < n + fuel ∧ shortest.go m num den k inside fuel n = (d, k - (i : Nat)) ∧
      inside d (k - (i : Nat)) = true := by
  induction fuel generalizing n j with
  | zero => omega
  | succ fuel ih =>
    rcases shortest_go_succ m num den k inside fuel n with ⟨d, hfound, hd⟩ | ⟨hnone, hmore⟩
    · exact ⟨d, n, by omega, hfound, hd⟩
    · cases j with
      | zero =>
        rw [Nat.add_zero, hnone] at h
        cases h
      | succ j =>
        have hplace : n + (j + 1) = n + 1 + j := by omega
        rw [hplace] at h
        obtain ⟨d, i, hi, hfound, hd⟩ := ih _ _ (Nat.lt_of_succ_lt_succ hj) h
        exact ⟨d, i, by omega, hmore.trans hfound, hd⟩

end

/-- What rounds to a double, as a quotient. -/
theorem rounds_iff {a b c : Nat} (hb : 0 < b) (hm : 0 < m) (hw : 4 * w = a / b)
    (hc : c = if m = 2 ^ 52 ∧ 0 < q then 1 else 2) :
    Rounds m q w ↔ if m % 2 = 0 then
        (4 * m * 2 ^ q - c * 2 ^ q) * b ≤ a ∧ a ≤ (4 * m * 2 ^ q + 2 * 2 ^ q) * b
      else (4 * m * 2 ^ q - c * 2 ^ q) * b < a ∧ a < (4 * m * 2 ^ q + 2 * 2 ^ q) * b := by
  have hb' : (0 : ℚ) < b := Nat.cast_pos.mpr hb
  have hcm : c * 2 ^ q ≤ 4 * m * 2 ^ q := Nat.mul_le_mul_right _ (by split at hc <;> omega)
  have hlow : ((4 * m * 2 ^ q - c * 2 ^ q : Nat) : ℚ) = (4 * m - c) * 2 ^ q := by
    rw [Nat.cast_sub hcm]
    push_cast
    ring
  have hhigh : ((4 * m * 2 ^ q + 2 * 2 ^ q : Nat) : ℚ) = (4 * m + 2) * 2 ^ q := by
    push_cast
    ring
  have hcast : (c : ℚ) = if m = 2 ^ 52 ∧ 0 < q then 1 else 2 := by
    rw [hc]
    split <;> rfl
  -- each comparison of whole numbers is one of quotients
  have hle : (4 * m * 2 ^ q - c * 2 ^ q) * b ≤ a ↔ (4 * m - c : ℚ) * 2 ^ q ≤ 4 * w := by
    rw [hw, le_div_iff₀ hb', ← hlow]
    norm_cast
  have hlt : (4 * m * 2 ^ q - c * 2 ^ q) * b < a ↔ (4 * m - c : ℚ) * 2 ^ q < 4 * w := by
    rw [hw, lt_div_iff₀ hb', ← hlow]
    norm_cast
  have hge : a ≤ (4 * m * 2 ^ q + 2 * 2 ^ q) * b ↔ 4 * w ≤ (4 * m + 2) * 2 ^ q := by
    rw [hw, div_le_iff₀ hb', ← hhigh]
    norm_cast
  have hgt : a < (4 * m * 2 ^ q + 2 * 2 ^ q) * b ↔ 4 * w < (4 * m + 2) * 2 ^ q := by
    rw [hw, div_lt_iff₀ hb', ← hhigh]
    norm_cast
  rw [hle, hlt, hge, hgt]
  split
  · next heven =>
    refine ⟨fun h => ⟨hcast ▸ h.low, h.high⟩, fun h => ⟨hcast ▸ h.1, h.2, fun hodd => ?_⟩⟩
    omega
  · next hodd =>
    have htwo : c = 2 := by
      rw [hc, if_neg]
      rintro ⟨rfl, _⟩
      exact hodd rfl
    rw [htwo, Nat.cast_ofNat]
    refine ⟨fun h => h.tie (by omega), fun h => ⟨?_, h.2.le, fun _ => h⟩⟩
    rw [← hcast, htwo, Nat.cast_ofNat]
    exact h.1.le

/-- Digits lie inside if a double is the nearest to them. -/
theorem exists_inside (hparts : x.parts = (m, q)) (hm : 0 < m) : ∃ inside : Nat → ℤ → Bool,
    (∀ d e, inside d e = true ↔ Rounds m q (d * 10 ^ e * (Nat.pow 2 1074 : Nat))) ∧
      x.shortest = shortest.go m (4 * m * Nat.pow 2 q) (4 * Nat.pow 2 1074)
        (decimalExponent (4 * m * Nat.pow 2 q) (4 * Nat.pow 2 1074)) inside 20 1 := by
  unfold shortest
  rw [hparts]
  refine ⟨_, fun d e => ?_, rfl⟩
  dsimp only
  generalize Nat.pow 2 1074 = one
  -- a power of ten is on the side of the quotient on which it is whole
  obtain ⟨a, b, hpair, hb, hvalue⟩ : ∃ a b, (if e ≥ 0 then (d * Nat.pow 10 e.toNat * (4 * one), 1)
      else (d * (4 * one), Nat.pow 10 (-e).toNat)) = (a, b) ∧ 0 < b ∧
        4 * ((d : ℚ) * 10 ^ e * one) = a / b := by
    rw [ten_zpow]
    split
    · next he =>
      have hzero : (-e).toNat = 0 := by omega
      have hone : Nat.pow 10 0 = 1 := rfl
      refine ⟨_, _, rfl, Nat.one_pos, ?_⟩
      rw [hzero, hone]
      push_cast
      ring
    · next he =>
      have hzero : e.toNat = 0 := by omega
      have hone : Nat.pow 10 0 = 1 := rfl
      refine ⟨_, _, rfl, Nat.pow_pos (by decide), ?_⟩
      rw [hzero, hone]
      push_cast
      ring
  rw [hpair, rounds_iff hb hm hvalue rfl]
  have hpow : ∀ n, Nat.pow 2 n = 2 ^ n := fun _ => rfl
  have hlow : (if (m == 2 ^ 52 && decide (q > 0)) = true then 4 * m * 2 ^ q - 2 ^ q
      else 4 * m * 2 ^ q - 2 * 2 ^ q) =
      4 * m * 2 ^ q - (if m = 2 ^ 52 ∧ 0 < q then 1 else 2) * 2 ^ q := by
    by_cases hc : m = 2 ^ 52 ∧ 0 < q
    · rw [if_pos hc, if_pos (by simpa using hc), Nat.one_mul]
    · rw [if_neg hc, if_neg (by simpa using hc)]
  simp only [hpow, hlow, beq_iff_eq]
  split <;> simp

/-- With eighteen digits a double is told from all others. -/
theorem rounds_digitsTo (hm : 0 < m) (hbits : m < 2 ^ 53) {one : Nat} (hone : 0 < one) :
    let k := decimalExponent (4 * m * Nat.pow 2 q) (4 * one)
    Rounds m q (digitsTo (4 * m * Nat.pow 2 q) (4 * one) (k - 18) * 10 ^ (k - 18) * one) := by
  intro k
  have hnum : 0 < 4 * m * Nat.pow 2 q := Nat.mul_pos (by omega) (Nat.two_pow_pos q)
  have hden : 0 < 4 * one := by omega
  have hone' : (0 : ℚ) < one := Nat.cast_pos.mpr hone
  have hfirst : (10 : ℚ) ^ (k - 1) ≤ _ := ten_zpow_le hnum hden
  obtain ⟨hbelow, habove⟩ := digitsTo_le (4 * m * Nat.pow 2 q) hden (k - 18)
  have hvalue : ((4 * m * Nat.pow 2 q : Nat) : ℚ) / (4 * one : Nat) = m * 2 ^ q / one := by
    have hpow : Nat.pow 2 q = 2 ^ q := rfl
    rw [hpow]
    push_cast
    field_simp
  have hplace : (10 : ℚ) ^ (k - 18) * 10 ^ 17 = 10 ^ (k - 1) := by
    rw [← zpow_natCast, ← zpow_add₀ (by norm_num)]
    congr 1
    omega
  rw [hvalue] at hfirst hbelow habove
  generalize (10 : ℚ) ^ (k - 18) = t at *
  generalize (digitsTo (4 * m * Nat.pow 2 q) (4 * one) (k - 18) : ℚ) = d at *
  rw [← hplace, le_div_iff₀ hone'] at hfirst
  rw [le_div_iff₀ hone'] at hbelow
  rw [div_lt_iff₀ hone'] at habove
  have hpow : (0 : ℚ) < 2 ^ q := by positivity
  have hm' : (m : ℚ) ≤ 10 ^ 17 / 4 := by
    have : (m : ℚ) < 2 ^ 53 := by exact_mod_cast hbits
    linarith
  -- eighteen digits are finer than a quarter of the last place
  have hsmall : 4 * (t * one) ≤ 2 ^ q := by
    have hscaled := mul_le_mul_of_nonneg_right hm' hpow.le
    linarith
  have habove' : (4 * m - 1 : ℚ) * 2 ^ q < 4 * (d * t * one) := by linarith
  have hhigh : 4 * (d * t * one) < (4 * m + 2 : ℚ) * 2 ^ q := by linarith
  refine ⟨?_, hhigh.le, fun _ => ⟨by linarith, hhigh⟩⟩
  split
  · exact habove'.le
  · linarith

theorem Rounds.pos (h : Rounds m q w) (hm : 0 < m) : 0 < w := by
  have hlow := h.low
  have hm' : (1 : ℚ) ≤ m := by exact_mod_cast hm
  have hfactor : (2 : ℚ) ≤ 4 * m - if m = 2 ^ 52 ∧ 0 < q then 1 else 2 := by
    split <;> linarith
  have hpos : 0 < (4 * m - if m = 2 ^ 52 ∧ 0 < q then 1 else 2 : ℚ) * 2 ^ q := by positivity
  linarith

/-- No finite double reaches the four hundredth power of ten. -/
theorem lt_tenPow (hbits : m < 2 ^ 53) (hq : q ≤ 2045) :
    (4 * m + 2) * 2 ^ q < 4 * (Nat.pow 10 400 * Nat.pow 2 1074) := by
  have hmax : ∀ k, q ≤ k → (4 * m + 2) * 2 ^ q ≤ 2 ^ 55 * Nat.pow 2 k := fun k hk =>
    Nat.mul_le_mul (by omega) (Nat.pow_le_pow_right (by decide) hk)
  exact Nat.lt_of_le_of_lt (hmax 2045 hq) (by decide +kernel)

/-- Numbers that round to a finite double are not too large. -/
theorem Rounds.exponent_le {d : Nat} {e : ℤ} (h : Rounds m q (d * 10 ^ e * (Nat.pow 2 1074 : Nat)))
    (hd : 0 < d) (hbits : m < 2 ^ 53) (hq : q ≤ 2045) : e ≤ 400 := by
  refine Int.le_of_not_gt fun hlarge => ?_
  have hbound := lt_tenPow hbits hq
  have hhigh := h.high
  -- the numbers are kept from being computed
  generalize hn : 400 = n at hbound
  have hten : ((Nat.pow 10 n : Nat) : ℚ) ≤ 10 ^ e := by
    have hle : (10 : ℚ) ^ (n : ℤ) ≤ 10 ^ e := zpow_le_zpow_right₀ (by norm_num) (by omega)
    exact ((Nat.cast_pow 10 n).trans (zpow_natCast _ _).symm).trans_le hle
  generalize Nat.pow 10 n = big at hbound hten
  generalize Nat.pow 2 1074 = one at hbound hhigh
  have hone : (0 : ℚ) ≤ one := Nat.cast_nonneg one
  have hfewest : (big : ℚ) ≤ d * 10 ^ e :=
    hten.trans (le_mul_of_one_le_left (zpow_pos (by norm_num) e).le (by exact_mod_cast hd))
  have hproduct := mul_le_mul_of_nonneg_right hfewest hone
  have hbound' : ((4 * m + 2) * 2 ^ q : ℚ) < 4 * (big * one) := by exact_mod_cast hbound
  linarith

/-- The fewest digits of a double are nearest to it. -/
theorem rounds_shortest (hfinite : x.isFinite = true) (hm : 0 < x.parts.1) :
    Rounds x.parts.1 x.parts.2 (x.shortest.1 * 10 ^ x.shortest.2 * (Nat.pow 2 1074 : Nat)) ∧
      -400 ≤ x.shortest.2 := by
  have hbits := (parts_bounds hfinite).1
  obtain ⟨m, q, hparts⟩ : ∃ m q, x.parts = (m, q) := ⟨_, _, rfl⟩
  rw [hparts] at hm hbits ⊢
  obtain ⟨inside, hinside, hshortest⟩ := exists_inside hparts hm
  have hone : ∀ n, 0 < Nat.pow 2 n := Nat.two_pow_pos
  have hplace := (hinside _ _).mpr (rounds_digitsTo hm hbits (hone 1074))
  obtain ⟨d, i, hi, hfound, hd⟩ := shortest_go_inside m 20 1 17 (by decide) hplace
  have hden : 4 * Nat.pow 2 1074 < Nat.pow 10 330 := by decide +kernel
  have hexponent := le_decimalExponent (4 * m * Nat.pow 2 q) (by decide) hden
  rw [hshortest, hfound]
  refine ⟨(hinside _ _).mp hd, ?_⟩
  dsimp only
  omega

/-- Zeros that are dropped do not change the value. -/
theorem stripZeros_spec (fuel d : Nat) (e : ℤ) (hd : 0 < d) : 0 < (stripZeros fuel d e).1 ∧
    ((stripZeros fuel d e).1 : ℚ) * 10 ^ (stripZeros fuel d e).2 = d * 10 ^ e ∧
      e ≤ (stripZeros fuel d e).2 := by
  induction fuel generalizing d e with
  | zero => exact ⟨hd, rfl, Int.le_refl e⟩
  | succ fuel ih =>
    rw [stripZeros]
    split
    · next h =>
      simp only [Bool.and_eq_true, beq_iff_eq] at h
      obtain ⟨hpos, hvalue, hle⟩ := ih (d / 10) (e + 1) (by omega)
      refine ⟨hpos, ?_, by omega⟩
      have hten : ((d / 10 : Nat) : ℚ) * 10 = d := by
        exact_mod_cast (show d / 10 * 10 = d by omega)
      rw [hvalue, zpow_add_one₀ (by norm_num), ← hten]
      ring
    · exact ⟨hd, rfl, Int.le_refl e⟩

/-- The digits of a double that are written: they are nearest to it, and neither very large nor very
small. -/
theorem rounds_written (hfinite : x.isFinite = true) (hzero : x.isZero = false) {d : Nat} {e : ℤ}
    (hwritten : stripZeros 20 x.shortest.1 x.shortest.2 = (d, e)) :
    0 < d ∧ Rounds x.parts.1 x.parts.2 (d * 10 ^ e * (Nat.pow 2 1074 : Nat)) ∧
      -400 ≤ e ∧ e ≤ 400 := by
  have hm : 0 < x.parts.1 := Nat.pos_of_ne_zero (beq_eq_false_iff_ne.mp hzero)
  obtain ⟨hbits, _, hq⟩ := parts_bounds hfinite
  obtain ⟨hrounds, hleast⟩ := rounds_shortest hfinite hm
  have hd : 0 < x.shortest.1 := by
    refine Nat.pos_of_ne_zero fun hnone => (hrounds.pos hm).ne' ?_
    rw [hnone, Nat.cast_zero, zero_mul, zero_mul]
  have hspec := stripZeros_spec 20 x.shortest.1 x.shortest.2 hd
  rw [hwritten] at hspec
  obtain ⟨hpos, hvalue, hle⟩ := hspec
  rw [← hvalue] at hrounds
  exact ⟨hpos, hrounds, hleast.trans hle, hrounds.exponent_le hpos hbits hq⟩

/-- A decimal number that is nearest to a finite double is read as it. -/
theorem ofDecimal_of_rounds (hfinite : x.isFinite = true) (hzero : x.isZero = false) {d : Nat}
    {e : ℤ} (h : Rounds x.parts.1 x.parts.2 (d * 10 ^ e * (Nat.pow 2 1074 : Nat))) :
    ofDecimal x.isNegative d e = x := by
  have hm : 0 < x.parts.1 := Nat.pos_of_ne_zero (beq_eq_false_iff_ne.mp hzero)
  obtain ⟨hbits, hnormal, hq⟩ := parts_bounds hfinite
  have hten : ∀ n, 0 < Nat.pow 10 n := fun n => Nat.pow_pos (by decide)
  have hone : Nat.pow 10 0 = 1 := rfl
  have hratio : ∀ {num den : Nat}, 0 < den → (num : ℚ) / den = d * 10 ^ e →
      ofRatio x.isNegative num den = x := by
    intro num den hden hvalue
    rw [ofRatio_of_rounds hden hm hbits hnormal hq]
    · exact x.ofMagnitude_magnitude
    · rwa [Nat.cast_mul, mul_div_right_comm, hvalue]
  rw [ofDecimal]
  split
  · next he =>
    have hzero : (-e).toNat = 0 := by omega
    refine hratio Nat.one_pos ?_
    rw [ten_zpow, hzero, hone]
    push_cast
    ring
  · next he =>
    have hzero : e.toNat = 0 := by omega
    refine hratio (hten _) ?_
    rw [ten_zpow, hzero, hone]
    push_cast
    ring

end CodeAtlas.Binary64
