import Lox.Number.Decimal
import Mathlib.Algebra.Order.Field.Power
import Mathlib.Tactic.Linarith
import Mathlib.Tactic.NormNum
import Mathlib.Tactic.Positivity
import Mathlib.Tactic.Ring

/-!
# Shortest decimals tell doubles apart

Said in rational numbers, the numbers that read back as a positive double are an interval around it,
and a point of a grid reads back just if it lies in there. A search that has come down to the last
of its grids finds a point, since the steps of this grid are shorter than the interval: so the
shortest decimal of a double always lies in the interval of that double. The intervals of two
doubles have nothing in common, not even where they touch, and so no two doubles have one decimal.
-/

namespace Lox.Number

/-- The mantissas and exponents that finite doubles have. The leading bit of the mantissa is missing
at the least exponent only. -/
structure Binary.Canonical (mantissa : Nat) (exponent : Int) : Prop where
  mantissa_lt : mantissa < 2 * Binary.leadingBit
  least_le : Binary.leastExponent ≤ exponent
  exponent_lt : exponent < 972
  leads : Binary.leadingBit ≤ mantissa ∨ exponent = Binary.leastExponent

namespace Decimal

/-- The number that a decimal stands for. -/
def value (decimal : Decimal) : ℚ :=
  decimal.digits * 10 ^ decimal.exponent

/-- The number is one of those that read back as the double: it lies between the ends, which belong
to these numbers or do not. -/
structure Neighbourhood.Covers (around : Neighbourhood) (x : ℚ) : Prop where
  low_le : around.low * 2 ^ around.exponent ≤ x
  le_high : x ≤ around.high * 2 ^ around.exponent
  inside : around.closed = false →
    around.low * 2 ^ around.exponent < x ∧ x < around.high * 2 ^ around.exponent

/-! ### Grids -/

theorem powerRatio_pos (base : Nat) (hbase : 0 < base) (exponent : Int) :
    0 < (powerRatio base exponent).1 ∧ 0 < (powerRatio base exponent).2 := by
  rw [powerRatio]
  split
  · exact ⟨Nat.one_pos, Nat.pow_pos hbase⟩
  · exact ⟨Nat.pow_pos hbase, Nat.one_pos⟩

theorem powerRatio_eq (base : Nat) (hbase : 0 < base) (exponent : Int) :
    ((powerRatio base exponent).1 : ℚ) = base ^ exponent * (powerRatio base exponent).2 := by
  have hne : (base : ℚ) ≠ 0 := Nat.cast_ne_zero.2 hbase.ne'
  rw [powerRatio]
  split
  case isTrue hneg =>
    obtain ⟨power, rfl⟩ : ∃ power : Nat, exponent = -power := ⟨(-exponent).toNat, by omega⟩
    simp [hne]
  case isFalse hnonneg =>
    obtain ⟨power, rfl⟩ : ∃ power : Nat, exponent = power := ⟨exponent.toNat, by omega⟩
    simp

namespace Grid

/-- A step of a grid and a quarter unit are, in some common unit, the powers that they stand for. -/
theorem exists_unit (place binaryExponent : Int) : ∃ unit : ℚ, 0 < unit ∧
    ((Grid.at place binaryExponent).step : ℚ) = 10 ^ place * unit ∧
    ((Grid.at place binaryExponent).quarter : ℚ) = 2 ^ binaryExponent * unit := by
  obtain ⟨-, htenth⟩ := powerRatio_pos 10 (by decide) place
  obtain ⟨-, hhalf⟩ := powerRatio_pos 2 (by decide) binaryExponent
  have hten := powerRatio_eq 10 (by decide) place
  have htwo := powerRatio_eq 2 (by decide) binaryExponent
  refine ⟨(powerRatio 10 place).2 * (powerRatio 2 binaryExponent).2, by positivity, ?_, ?_⟩
  · show (((powerRatio 10 place).1 * (powerRatio 2 binaryExponent).2 : Nat) : ℚ) = _
    push_cast
    rw [hten]
    push_cast
    ring
  · show (((powerRatio 2 binaryExponent).1 * (powerRatio 10 place).2 : Nat) : ℚ) = _
    push_cast
    rw [htwo]
    push_cast
    ring

variable (place binaryExponent : Int) (count units : Nat)

/-- Points of a grid are compared with quarter units as the numbers that both stand for. -/
theorem steps_le_iff : count * (Grid.at place binaryExponent).step ≤
      units * (Grid.at place binaryExponent).quarter ↔
    (count * 10 ^ place : ℚ) ≤ units * 2 ^ binaryExponent := by
  obtain ⟨unit, hunit, hstep, hquarter⟩ := exists_unit place binaryExponent
  rw [← Nat.cast_le (α := ℚ), Nat.cast_mul, Nat.cast_mul, hstep, hquarter, ← mul_assoc,
    ← mul_assoc, mul_le_mul_iff_left₀ hunit]

theorem le_steps_iff : units * (Grid.at place binaryExponent).quarter ≤
      count * (Grid.at place binaryExponent).step ↔
    (units * 2 ^ binaryExponent : ℚ) ≤ count * 10 ^ place := by
  obtain ⟨unit, hunit, hstep, hquarter⟩ := exists_unit place binaryExponent
  rw [← Nat.cast_le (α := ℚ), Nat.cast_mul, Nat.cast_mul, hstep, hquarter, ← mul_assoc,
    ← mul_assoc, mul_le_mul_iff_left₀ hunit]

/-- A point of a grid reads back just if the number that it stands for does. -/
theorem readsBack_iff (around : Neighbourhood) :
    (Grid.at place around.exponent).readsBack around count = true ↔
      around.Covers (count * 10 ^ place) := by
  have hlow := le_steps_iff place around.exponent count around.low
  have hhigh := steps_le_iff place around.exponent count around.high
  rw [readsBack]
  cases hclosed : around.closed with
  | true =>
    rw [if_pos rfl, Bool.and_eq_true, decide_eq_true_iff, decide_eq_true_iff, hlow, hhigh]
    exact ⟨fun h => ⟨h.1, h.2, by simp [hclosed]⟩, fun h => ⟨h.low_le, h.le_high⟩⟩
  | false =>
    have hlow' := (steps_le_iff place around.exponent count around.low).not
    have hhigh' := (le_steps_iff place around.exponent count around.high).not
    rw [not_le, not_le] at hlow' hhigh'
    rw [if_neg Bool.false_ne_true, Bool.and_eq_true, decide_eq_true_iff, decide_eq_true_iff, hlow',
      hhigh']
    exact ⟨fun h => ⟨h.1.le, h.2.le, fun _ => h⟩, fun h => h.inside hclosed⟩

theorem readsBack_of_nearest? {grid : Grid} {around : Neighbourhood}
    (h : grid.nearest? around = some count) : grid.readsBack around count = true := by
  simp only [nearest?] at h
  split at h
  case h_1 hbelow habove =>
    cases h
    split
    · exact hbelow
    · exact habove
  case h_2 hbelow habove => cases h; exact hbelow
  case h_3 hbelow habove => cases h; exact habove
  case h_4 => cases h

theorem outside_of_readsBack {grid : Grid} {around : Neighbourhood}
    (h : grid.readsBack around count = false) :
    count * grid.step ≤ around.low * grid.quarter ∨
      around.high * grid.quarter ≤ count * grid.step := by
  rw [readsBack] at h
  split at h
  all_goals
    rw [Bool.and_eq_false_iff, decide_eq_false_iff_not, decide_eq_false_iff_not] at h
    omega

/-- Where the steps are shorter than the interval, a point next to the double lies in it. -/
theorem exists_nearest? {grid : Grid} {around : Neighbourhood} (hlow : around.low < around.centre)
    (hhigh : around.centre < around.high) (hstep : 0 < grid.step) (hquarter : 0 < grid.quarter)
    (hshort : around.low * grid.quarter + grid.step < around.high * grid.quarter) :
    ∃ count, grid.nearest? around = some count := by
  have hleft := Nat.mul_lt_mul_of_pos_right hlow hquarter
  have hright := Nat.mul_lt_mul_of_pos_right hhigh hquarter
  have hbelow := Nat.div_mul_le_self (around.centre * grid.quarter) grid.step
  have habove := Nat.lt_mul_div_succ (around.centre * grid.quarter) hstep
  rw [Nat.mul_comm grid.step, Nat.succ_mul] at habove
  simp only [nearest?]
  split
  case h_4 hfirst hsecond =>
    have hfirst := outside_of_readsBack _ hfirst
    have hsecond := outside_of_readsBack _ hsecond
    rw [Nat.succ_mul] at hsecond
    omega
  all_goals exact ⟨_, rfl⟩

end Grid

/-! ### The place of the leading digit -/

/-- Powers of ten and two are compared by powers of them that are close to each other. -/
theorem ten_zpow_le_two_zpow (digits bits : Nat) {place power : Int} (hbits : bits ≠ 0)
    (hplace : place * bits ≤ digits * power)
    (h : ((10 ^ digits : Nat) : ℚ) ^ power ≤ ((2 ^ bits : Nat) : ℚ) ^ power) :
    (10 : ℚ) ^ place ≤ 2 ^ power := by
  refine (pow_le_pow_iff_left₀ (by positivity) (by positivity) hbits).1 ?_
  calc ((10 : ℚ) ^ place) ^ bits = 10 ^ (place * bits) := by rw [zpow_mul, zpow_natCast]
    _ ≤ 10 ^ (digits * power) := zpow_le_zpow_right₀ (by norm_num) hplace
    _ = ((10 ^ digits : Nat) : ℚ) ^ power := by rw [zpow_mul, zpow_natCast, Nat.cast_pow]; rfl
    _ ≤ ((2 ^ bits : Nat) : ℚ) ^ power := h
    _ = ((2 : ℚ) ^ power) ^ bits := by
      rw [Nat.cast_pow, ← zpow_natCast, ← zpow_natCast, ← zpow_mul, ← zpow_mul, mul_comm]
      rfl

theorem ten_pow_le_two_pow : 10 ^ 30102 ≤ 2 ^ 100000 := by decide +kernel

theorem two_pow_le_ten_pow : 2 ^ 100000 ≤ 10 ^ 30103 := by decide +kernel

/-- One less than the estimate of the place of a power of two is never too large. -/
theorem estimate_le {power : Int} (hpower : power ≤ 100000) :
    (10 : ℚ) ^ (power * 30103 / 100000 - 1) ≤ 2 ^ power := by
  obtain hnonneg | hneg := le_or_gt 0 power
  · refine ten_zpow_le_two_zpow 30102 100000 (by decide) (by omega) ?_
    exact zpow_le_zpow_left₀ hnonneg (Nat.cast_nonneg _) (Nat.cast_le.2 ten_pow_le_two_pow)
  · refine ten_zpow_le_two_zpow 30103 100000 (by decide) (by omega) ?_
    obtain ⟨less, rfl⟩ : ∃ less : Nat, power = -less := ⟨(-power).toNat, by omega⟩
    rw [zpow_neg, zpow_neg, zpow_natCast, zpow_natCast]
    have h := Nat.pow_le_pow_left two_pow_le_ten_pow less
    rw [← Nat.cast_le (α := ℚ), Nat.cast_pow, Nat.cast_pow _ less] at h
    exact inv_anti₀ (by positivity) h

section
variable {mantissa : Nat} {exponent : Int} (hcanonical : Binary.Canonical mantissa exponent)
  (hpos : 0 < mantissa)
include hcanonical hpos

/-- Ten to the place of the leading digit is at most the number. -/
theorem leadingPlace_le : (10 : ℚ) ^ leadingPlace mantissa exponent ≤ mantissa * 2 ^ exponent := by
  have hreaches (place : Int) (h : (Grid.at place exponent).step ≤
      mantissa * (Grid.at place exponent).quarter) : (10 : ℚ) ^ place ≤ mantissa * 2 ^ exponent := by
    rw [← Nat.one_mul (Grid.at place exponent).step, Grid.steps_le_iff, Nat.cast_one, one_mul] at h
    exact h
  simp only [leadingPlace]
  split
  case isTrue =>
    -- The estimate is too large, and one less is not.
    have hbits : mantissa.log2 < 53 := (Nat.log2_lt hpos.ne').2 hcanonical.mantissa_lt
    have hexponent := hcanonical.exponent_lt
    calc (10 : ℚ) ^ ((mantissa.log2 + exponent) * 30103 / 100000 - 1)
        ≤ 2 ^ (mantissa.log2 + exponent) := estimate_le (by omega)
      _ = 2 ^ mantissa.log2 * 2 ^ exponent := by
        rw [zpow_add₀ two_ne_zero, zpow_natCast]
      _ ≤ mantissa * 2 ^ exponent := by
        refine mul_le_mul_of_nonneg_right ?_ (by positivity)
        exact_mod_cast Nat.log2_self_le hpos.ne'
  case isFalse hestimate =>
    split
    case isTrue hnext => exact hreaches _ (of_decide_eq_true hnext)
    case isFalse => exact hreaches _ (by simpa using hestimate)

end

/-! ### The interval around a double -/

theorem low_ofFinite (mantissa : Nat) (exponent : Int) :
    ((Neighbourhood.ofFinite mantissa exponent).low = 4 * mantissa - 1 ∧ mantissa = 2 ^ 52 ∧
      Binary.leastExponent < exponent) ∨
    (Neighbourhood.ofFinite mantissa exponent).low = 4 * mantissa - 2 ∧
      (mantissa = 2 ^ 52 → exponent ≤ Binary.leastExponent) := by
  by_cases hpower : mantissa = Binary.leadingBit ∧ Binary.leastExponent < exponent
  · exact .inl ⟨by simp [Neighbourhood.ofFinite, hpower], hpower⟩
  · refine .inr ⟨by simp only [Neighbourhood.ofFinite, if_neg hpower], fun hmantissa => ?_⟩
    exact not_lt.1 fun hexponent => hpower ⟨hmantissa, hexponent⟩

section
variable {mantissa : Nat} {exponent : Int} (hcanonical : Binary.Canonical mantissa exponent)
  (hpos : 0 < mantissa)
include hcanonical hpos

/-- The interval is wider than the number itself when all but the first of 17 digits are dropped. -/
theorem width_of_canonical :
    4 * mantissa + (Neighbourhood.ofFinite mantissa exponent).low * 10 ^ 16 <
      (Neighbourhood.ofFinite mantissa exponent).high * 10 ^ 16 := by
  have hmantissa : mantissa < 2 * 2 ^ 52 := hcanonical.mantissa_lt
  have hhigh : (Neighbourhood.ofFinite mantissa exponent).high = 4 * mantissa + 2 := rfl
  have hlow := low_ofFinite mantissa exponent
  omega

/-- The steps of the last grid are shorter than the interval around the double. -/
theorem step_lt_width : ((Neighbourhood.ofFinite mantissa exponent).low * 2 ^ (exponent - 2) +
      10 ^ (leadingPlace mantissa exponent - 16) : ℚ) <
    (Neighbourhood.ofFinite mantissa exponent).high * 2 ^ (exponent - 2) := by
  have hwidth := width_of_canonical hcanonical hpos
  have hplace := leadingPlace_le hcanonical hpos
  have hunit : (0 : ℚ) < 2 ^ (exponent - 2) := by positivity
  have hquarters : (2 : ℚ) ^ exponent = 4 * 2 ^ (exponent - 2) := by
    rw [zpow_sub₀ two_ne_zero]
    ring
  have hsixteen : (10 : ℚ) ^ leadingPlace mantissa exponent =
      10 ^ 16 * 10 ^ (leadingPlace mantissa exponent - 16) := by
    rw [zpow_sub₀ (by norm_num)]
    ring
  rw [← Nat.cast_lt (α := ℚ)] at hwidth
  push_cast at hwidth
  rw [hquarters, hsixteen] at hplace
  have hscaled := mul_lt_mul_of_pos_right hwidth hunit
  linarith

end

/-! ### The search -/

theorem Grid.exists_nearest?_at {around : Neighbourhood} {place : Int}
    (hlow : around.low < around.centre) (hhigh : around.centre < around.high)
    (hshort : (around.low * 2 ^ around.exponent + 10 ^ place : ℚ) <
      around.high * 2 ^ around.exponent) :
    ∃ count, (Grid.at place around.exponent).nearest? around = some count := by
  obtain ⟨unit, hunit, hstep, hquarter⟩ := exists_unit place around.exponent
  refine exists_nearest? hlow hhigh ?_ ?_ ?_
  · rw [← Nat.cast_pos (α := ℚ), hstep]
    positivity
  · rw [← Nat.cast_pos (α := ℚ), hquarter]
    positivity
  · have h := mul_lt_mul_of_pos_right hshort hunit
    rw [← Nat.cast_lt (α := ℚ)]
    push_cast
    rw [hstep, hquarter]
    linarith

/-- A search comes to a point in the interval, if the steps of its last grid are shorter than it. -/
theorem covers_search {around : Neighbourhood} (hlow : around.low < around.centre)
    (hhigh : around.centre < around.high) (count : Nat) {place : Int}
    (hshort : (around.low * 2 ^ around.exponent + 10 ^ (place - count) : ℚ) <
      around.high * 2 ^ around.exponent) :
    around.Covers (search around (count + 1) place).value := by
  have hfound {digits : Nat} {place : Int}
      (h : (Grid.at place around.exponent).nearest? around = some digits) :
      around.Covers (value ⟨digits, place⟩) :=
    (Grid.readsBack_iff place digits around).1 (Grid.readsBack_of_nearest? digits h)
  induction count generalizing place with
  | zero =>
    rw [Nat.cast_zero, sub_zero] at hshort
    obtain ⟨digits, hdigits⟩ := Grid.exists_nearest?_at hlow hhigh hshort
    rw [search, hdigits]
    exact hfound hdigits
  | succ count ih =>
    rw [search]
    cases hdigits : (Grid.at place around.exponent).nearest? around with
    | some digits => exact hfound hdigits
    | none =>
      refine ih ?_
      rwa [sub_sub, add_comm 1, ← Nat.cast_succ]

theorem value_dropZeros (count : Nat) (decimal : Decimal) :
    (dropZeros count decimal).value = decimal.value := by
  induction count generalizing decimal with
  | zero => rfl
  | succ count ih =>
    rw [dropZeros]
    split
    case isTrue hzero =>
      have hdigits : (decimal.digits : ℚ) = 10 * (decimal.digits / 10 : Nat) := by
        norm_cast
        omega
      rw [ih, value, value, hdigits, zpow_add_one₀ (by norm_num)]
      ring
    case isFalse => rfl

/-- The shortest decimal of a double is one of the numbers that read back as it. -/
theorem covers_shortest {mantissa : Nat} {exponent : Int}
    (hcanonical : Binary.Canonical mantissa exponent) (hpos : 0 < mantissa) :
    (Neighbourhood.ofFinite mantissa exponent).Covers (shortest mantissa exponent).value := by
  have hlow : (Neighbourhood.ofFinite mantissa exponent).low < 4 * mantissa := by
    have hlow := low_ofFinite mantissa exponent
    omega
  rw [shortest, value_dropZeros]
  exact covers_search hlow (by simp [Neighbourhood.ofFinite]) 16
    (step_lt_width hcanonical hpos)

/-! ### Different doubles -/

/-- A number in two intervals, one below the other, is an end of both and belongs to both. -/
theorem Neighbourhood.Covers.touch {first second : Neighbourhood} {x : ℚ} (hfirst : first.Covers x)
    (hsecond : second.Covers x)
    (hle : (first.high * 2 ^ first.exponent : ℚ) ≤ second.low * 2 ^ second.exponent) :
    (first.high * 2 ^ first.exponent : ℚ) = second.low * 2 ^ second.exponent ∧
      first.closed = true ∧ second.closed = true := by
  have hhigh := hfirst.le_high
  have hlow := hsecond.low_le
  refine ⟨le_antisymm hle (hlow.trans hhigh), ?_, ?_⟩
  · by_contra hopen
    have hinside := hfirst.inside (by simpa using hopen)
    linarith [hinside.2]
  · by_contra hopen
    have hinside := hsecond.inside (by simpa using hopen)
    linarith [hinside.1]

section
variable {lesser greater : Nat} {exponent other : Int} {x : ℚ}
  (hfirst : (Neighbourhood.ofFinite lesser exponent).Covers x)
include hfirst

/-- With one exponent, only neighbours touch, and of these one is odd. -/
theorem not_covers_of_mantissa_lt (hlt : lesser < greater) :
    ¬ (Neighbourhood.ofFinite greater exponent).Covers x := by
  intro hsecond
  have hunit : (0 : ℚ) < 2 ^ (exponent - 2) := by positivity
  have hlow := low_ofFinite greater exponent
  have hle : 4 * lesser + 2 ≤ (Neighbourhood.ofFinite greater exponent).low := by omega
  obtain ⟨htouch, heven, heven'⟩ :=
    hfirst.touch hsecond (mul_le_mul_of_nonneg_right (Nat.cast_le.2 hle) hunit.le)
  have hends : 4 * lesser + 2 = (Neighbourhood.ofFinite greater exponent).low :=
    Nat.cast_injective (mul_right_cancel₀ hunit.ne' htouch)
  have hlesser : lesser % 2 = 0 := by simpa [Neighbourhood.ofFinite] using heven
  have hgreater : greater % 2 = 0 := by simpa [Neighbourhood.ofFinite] using heven'
  omega

/-- Where the exponent grows, only the greatest mantissa touches what is above, and it is odd. -/
theorem not_covers_of_exponent_lt (hcanonical : Binary.Canonical lesser exponent)
    (habove : Binary.Canonical greater other) (hlt : exponent < other) :
    ¬ (Neighbourhood.ofFinite greater other).Covers x := by
  intro hsecond
  have hunit : (0 : ℚ) < 2 ^ (exponent - 2) := by positivity
  have hlesser : lesser < 2 * 2 ^ 52 := hcanonical.mantissa_lt
  have hgreater : 2 ^ 52 ≤ greater := by
    obtain hleads | hleast := habove.leads
    · exact hleads
    · exact absurd hcanonical.least_le (by omega)
  have hlow : 2 ^ 54 - 1 ≤ (Neighbourhood.ofFinite greater other).low := by
    have hlow := low_ofFinite greater other
    have hleast := hcanonical.least_le
    omega
  have hgrows : (2 : ℚ) * 2 ^ (exponent - 2) ≤ 2 ^ (other - 2) := by
    rw [mul_comm, ← zpow_add_one₀ two_ne_zero]
    exact zpow_le_zpow_right₀ one_le_two (by omega)
  have hbelow : ((4 * lesser + 2 : Nat) * 2 ^ (exponent - 2) : ℚ) ≤
      ((2 ^ 54 - 1) * 2 : Nat) * 2 ^ (exponent - 2) :=
    mul_le_mul_of_nonneg_right (Nat.cast_le.2 (by omega)) hunit.le
  have hends : (((2 ^ 54 - 1) * 2 : Nat) * 2 ^ (exponent - 2) : ℚ) ≤
      (Neighbourhood.ofFinite greater other).low * 2 ^ (other - 2) := by
    rw [Nat.cast_mul, mul_assoc]
    exact mul_le_mul (Nat.cast_le.2 hlow) hgrows (by positivity) (Nat.cast_nonneg _)
  obtain ⟨htouch, heven, -⟩ := hfirst.touch hsecond (hbelow.trans hends)
  have hgreatest : 4 * lesser + 2 = (2 ^ 54 - 1) * 2 :=
    Nat.cast_injective (mul_right_cancel₀ hunit.ne' (hbelow.antisymm (hends.trans htouch.ge)))
  have heven : lesser % 2 = 0 := by simpa [Neighbourhood.ofFinite] using heven
  omega

end

/-- No number reads back as two doubles. -/
theorem Neighbourhood.Covers.unique {first second : Nat} {exponent other : Int} {x : ℚ}
    (hfirst : Binary.Canonical first exponent) (hsecond : Binary.Canonical second other)
    (hcovers : (Neighbourhood.ofFinite first exponent).Covers x)
    (hcovers' : (Neighbourhood.ofFinite second other).Covers x) :
    first = second ∧ exponent = other := by
  obtain hlt | rfl | hlt := lt_trichotomy exponent other
  · exact absurd hcovers' (not_covers_of_exponent_lt hcovers hfirst hsecond hlt)
  · obtain hlt | rfl | hlt := lt_trichotomy first second
    · exact absurd hcovers' (not_covers_of_mantissa_lt hcovers hlt)
    · exact ⟨rfl, rfl⟩
    · exact absurd hcovers (not_covers_of_mantissa_lt hcovers' hlt)
  · exact absurd hcovers (not_covers_of_exponent_lt hcovers' hsecond hfirst hlt)

end Decimal
end Lox.Number
