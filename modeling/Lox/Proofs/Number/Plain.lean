import Lox.Number.Notation
import Lox.Proofs.Number.Shortest
import Lox.Proofs.Token.Numeral
import Mathlib

/-!
# Numbers in plain form

The plain form of a finite number is its sign and its digits, with at most one point. The digits and
the point give back the decimal that was written, the decimal gives back the mantissa and the
exponent, and these give back the bits. So different finite numbers have different plain forms.
-/

namespace Lox.Number

/-- A double that is neither infinite nor something else than a number. -/
def Finite (x : Float) : Prop :=
  ∃ negative mantissa exponent, Binary.ofFloat x = .finite negative mantissa exponent

namespace Binary

theorem encode_subnormal {fraction : Nat} (hfraction : fraction < leadingBit) :
    encode fraction leastExponent = fraction := by
  rw [encode, if_pos hfraction, min_eq_left]
  exact hfraction.le.trans (by decide)

/-- The leading bit of a mantissa carries into the exponent field. -/
theorem encode_normal {field fraction : Nat} (hpos : 0 < field) (hfield : field < specialField)
    (hfraction : fraction < leadingBit) :
    encode (leadingBit + fraction) (leastExponent + (field - 1 : Nat)) =
      field * leadingBit + fraction := by
  have hcarry : (field - 1) * leadingBit + (leadingBit + fraction) =
      field * leadingBit + fraction := by
    rw [← Nat.add_assoc, ← Nat.succ_mul, Nat.succ_eq_add_one, Nat.sub_add_cancel hpos]
  have hbelow : (field + 1) * leadingBit ≤ specialField * leadingBit :=
    Nat.mul_le_mul_right leadingBit hfield
  rw [Nat.succ_mul] at hbelow
  rw [encode, if_neg (by omega), add_sub_cancel_left, Int.toNat_natCast, hcarry, min_eq_left]
  omega

section
variable {bits mantissa : Nat} {negative : Bool} {exponent : Int}
  (h : ofBits bits = .finite negative mantissa exponent)
include h

theorem canonical_of_ofBits : Canonical mantissa exponent := by
  have hfield : bits / leadingBit % 2048 < 2048 := Nat.mod_lt _ (by decide)
  have hfraction : bits % leadingBit < leadingBit := Nat.mod_lt _ (by decide)
  simp only [ofBits] at h
  split at h
  case isTrue => split at h <;> cases h
  case isFalse hspecial =>
    rw [specialField] at hspecial
    split at h
    case isTrue =>
      cases h
      exact ⟨by omega, le_rfl, by decide, .inr rfl⟩
    case isFalse =>
      cases h
      exact ⟨by omega, by omega, by rw [leastExponent]; omega, .inl (Nat.le_add_right _ _)⟩

/-- The sign and what is encoded of a finite double are all its bits. -/
theorem bits_eq_encode (hbits : bits < 2 ^ 64) :
    bits = (if negative then 2 ^ 63 else 0) + encode mantissa exponent := by
  have hsign : (if (bits >>> 63 % 2 == 1) = true then 2 ^ 63 else 0) = bits / 2 ^ 63 * 2 ^ 63 := by
    rw [Nat.shiftRight_eq_div_pow]
    have hlt : bits / 2 ^ 63 < 2 := by omega
    interval_cases bits / 2 ^ 63 <;> rfl
  have hfields : bits = bits / 2 ^ 63 * 2 ^ 63 + (bits / leadingBit % 2048 * leadingBit +
      bits % leadingBit) := by
    rw [show leadingBit = 2 ^ 52 from rfl]
    omega
  have hfraction : bits % leadingBit < leadingBit := Nat.mod_lt _ (by decide)
  have hfield : bits / leadingBit % 2048 < 2048 := Nat.mod_lt _ (by decide)
  simp only [ofBits] at h
  split at h
  case isTrue => split at h <;> cases h
  case isFalse hspecial =>
    rw [specialField] at hspecial
    split at h
    case isTrue hzero =>
      cases h
      rwa [hzero, Nat.zero_mul, Nat.zero_add, ← hsign, ← encode_subnormal hfraction] at hfields
    case isFalse hnonzero =>
      cases h
      rwa [← hsign, ← encode_normal (by omega) (by rw [specialField]; omega) hfraction] at hfields

end

/-- A finite double is what its sign, mantissa and exponent say. -/
theorem ofFloat_injective_of_finite {x y : Float} {negative : Bool} {mantissa : Nat} {exponent : Int}
    (hx : ofFloat x = .finite negative mantissa exponent)
    (hy : ofFloat y = .finite negative mantissa exponent) : x = y := by
  have hbits := (bits_eq_encode hx x.toBits.toNat_lt).trans (bits_eq_encode hy y.toBits.toNat_lt).symm
  exact Float.toBits_inj.1 (UInt64.toNat_inj.1 hbits)

end Binary

/-! ### Decimals of magnitudes -/

theorem value_magnitude_pos {mantissa : Nat} {exponent : Int}
    (hcanonical : Binary.Canonical mantissa exponent) (hpos : 0 < mantissa) :
    0 < (magnitude mantissa exponent).value := by
  have hlow : 0 < (Decimal.Neighbourhood.ofFinite mantissa exponent).low := by
    have hlow := Decimal.low_ofFinite mantissa exponent
    omega
  rw [magnitude, if_neg hpos.ne']
  refine lt_of_lt_of_le ?_ (Decimal.covers_shortest hcanonical hpos).low_le
  have hcast : (0 : ℚ) < (Decimal.Neighbourhood.ofFinite mantissa exponent).low := Nat.cast_pos.2 hlow
  positivity

/-- Different magnitudes are written by decimals of different values. -/
theorem magnitude_injective {first second : Nat} {exponent other : Int}
    (hfirst : Binary.Canonical first exponent) (hsecond : Binary.Canonical second other)
    (h : (magnitude first exponent).value = (magnitude second other).value) :
    first = second ∧ exponent = other := by
  have hzero (exponent : Int) : (magnitude 0 exponent).value = 0 := by simp [magnitude, Decimal.value]
  obtain rfl | hpos := Nat.eq_zero_or_pos first
  · obtain rfl | hpos' := Nat.eq_zero_or_pos second
    · have hleast {exponent : Int} (h : Binary.Canonical 0 exponent) :
          exponent = Binary.leastExponent := h.leads.resolve_left (by decide)
      exact ⟨rfl, (hleast hfirst).trans (hleast hsecond).symm⟩
    · exact absurd ((hzero exponent).symm.trans h) (value_magnitude_pos hsecond hpos').ne
  · obtain rfl | hpos' := Nat.eq_zero_or_pos second
    · exact absurd (h.trans (hzero other)) (value_magnitude_pos hfirst hpos).ne'
    · rw [magnitude, magnitude, if_neg hpos.ne', if_neg hpos'.ne'] at h
      have hcovers := Decimal.covers_shortest hfirst hpos
      rw [h] at hcovers
      exact hcovers.unique hfirst hsecond (Decimal.covers_shortest hsecond hpos')

/-! ### Decimals written out -/

namespace Decimal

variable (decimal : Decimal)

/-- The digits of a decimal that are written before the point. -/
def wholeDigits : List Char := decimal.places.1.toList

/-- The digits of a decimal that are written behind the point. -/
def fractionDigits : List Char := decimal.places.2.toList

theorem places_of_nonneg (h : 0 ≤ decimal.exponent) :
    decimal.wholeDigits = Nat.toDigits 10 decimal.digits ++
      List.replicate decimal.exponent.toNat '0' ∧ decimal.fractionDigits = [] := by
  have hplaces : decimal.places = (toString decimal.digits ++
      String.ofList (List.replicate decimal.exponent.toNat '0'), "") := if_pos h
  rw [wholeDigits, fractionDigits, hplaces, String.toList_append, String.toList_ofList,
    Nat.toString_eq_ofList_toDigits, String.toList_ofList]
  exact ⟨rfl, rfl⟩

/-- So many zeros stand in front that at least one digit is before the point. -/
theorem places_of_neg (h : decimal.exponent < 0) :
    (∃ zeros, decimal.wholeDigits ++ decimal.fractionDigits =
      List.replicate zeros '0' ++ Nat.toDigits 10 decimal.digits) ∧
    decimal.wholeDigits ≠ [] ∧ (decimal.fractionDigits.length : Int) = -decimal.exponent := by
  obtain ⟨after, hafter⟩ : ∃ after : Nat, decimal.exponent = -after :=
    ⟨(-decimal.exponent).toNat, by omega⟩
  let padded := List.replicate (after + 1 - (toString decimal.digits).length) '0' ++
    (toString decimal.digits).toList
  have hplaces : decimal.places = (String.ofList (padded.take (padded.length - after)),
      String.ofList (padded.drop (padded.length - after))) := by
    rw [places, if_neg (not_le.2 h), hafter, neg_neg, Int.toNat_natCast]
  have hlength : after + 1 ≤ padded.length := by
    simp only [padded, List.length_append, List.length_replicate, String.length_toList]
    omega
  rw [wholeDigits, fractionDigits, hplaces, String.toList_ofList, String.toList_ofList,
    List.take_append_drop, hafter, neg_neg]
  refine ⟨⟨after + 1 - (toString decimal.digits).length, ?_⟩, ?_, ?_⟩
  · simp only [padded]
    rw [Nat.toString_eq_ofList_toDigits, String.toList_ofList]
  · rw [← List.length_pos_iff, List.length_take]
    omega
  · rw [List.length_drop]
    omega

/-- The digits and the place of the point give back the value of a decimal. -/
theorem value_eq_of_places : decimal.value =
    Nat.ofDigitChars 10 (decimal.wholeDigits ++ decimal.fractionDigits) 0 *
      10 ^ (-(decimal.fractionDigits.length : Int)) := by
  obtain hnonneg | hneg := le_or_gt 0 decimal.exponent
  · obtain ⟨hwhole, hfraction⟩ := decimal.places_of_nonneg hnonneg
    have hexponent : (10 : ℚ) ^ decimal.exponent = 10 ^ decimal.exponent.toNat := by
      rw [← zpow_natCast, Int.toNat_of_nonneg hnonneg]
    rw [value, hwhole, hfraction, List.append_nil, Nat.ofDigitChars_append,
      Nat.ofDigitChars_ten_toDigits, Nat.ofDigitChars_replicate_zero, hexponent]
    push_cast
    simp [mul_comm]
  · obtain ⟨⟨zeros, hdigits⟩, -, hlength⟩ := decimal.places_of_neg hneg
    rw [value, hdigits, hlength, neg_neg, Nat.ofDigitChars_append, Nat.ofDigitChars_replicate_zero,
      Nat.mul_zero, Nat.ofDigitChars_ten_toDigits]

theorem wholeDigits_ne_nil : decimal.wholeDigits ≠ [] := by
  obtain hnonneg | hneg := le_or_gt 0 decimal.exponent
  · rw [(decimal.places_of_nonneg hnonneg).1]
    simp [Nat.toDigits_ne_nil]
  · exact (decimal.places_of_neg hneg).2.1

theorem isDigit_of_mem_places {c : Char}
    (h : c ∈ decimal.wholeDigits ++ decimal.fractionDigits) : c.isDigit = true := by
  have hdigit (h : c ∈ Nat.toDigits 10 decimal.digits) : c.isDigit = true :=
    Nat.isDigit_of_mem_toDigits (by decide) (by decide) h
  have hzero {count : Nat} (h : c ∈ List.replicate count '0') : c.isDigit = true := by
    rw [List.eq_of_mem_replicate h]
    rfl
  obtain hnonneg | hneg := le_or_gt 0 decimal.exponent
  · obtain ⟨hwhole, hfraction⟩ := decimal.places_of_nonneg hnonneg
    rw [hwhole, hfraction, List.append_nil] at h
    exact (List.mem_append.1 h).elim hdigit hzero
  · obtain ⟨⟨zeros, hdigits⟩, -, -⟩ := decimal.places_of_neg hneg
    rw [hdigits] at h
    exact (List.mem_append.1 h).elim hzero hdigit

/-- The characters of a decimal that is written out, with a point in front of a fraction. -/
def characters : List Char :=
  decimal.wholeDigits ++ if decimal.fractionDigits = [] then [] else '.' :: decimal.fractionDigits

/-- Decimals that are written out alike have the same value. -/
theorem value_eq_of_characters {first second : Decimal}
    (h : first.characters = second.characters) : first.value = second.value := by
  have hsplit (decimal : Decimal) : spanDigits decimal.characters =
      (decimal.wholeDigits,
        if decimal.fractionDigits = [] then [] else '.' :: decimal.fractionDigits) := by
    refine spanDigits_append (fun c hc => decimal.isDigit_of_mem_places ?_) ?_
    · exact List.mem_append_left _ hc
    · split <;> simp
  have hpair := (hsplit first).symm.trans ((congrArg spanDigits h).trans (hsplit second))
  obtain ⟨hwhole, htail⟩ := Prod.mk.inj hpair
  have hfraction : first.fractionDigits = second.fractionDigits := by
    split at htail <;> split at htail <;> simp_all
  rw [value_eq_of_places, value_eq_of_places, hwhole, hfraction]

/-- A decimal that is written out begins with a digit, and there is nothing else in it than digits
and points. -/
theorem exists_cons_characters : ∃ c rest, decimal.characters = c :: rest ∧ c.isDigit = true ∧
    ∀ d ∈ rest, d.isDigit = true ∨ d = '.' := by
  obtain ⟨c, rest, hwhole⟩ := List.exists_cons_of_ne_nil decimal.wholeDigits_ne_nil
  have hdigits {d : Char} (h : d ∈ c :: rest ++ decimal.fractionDigits) : d.isDigit = true :=
    decimal.isDigit_of_mem_places (hwhole ▸ h)
  refine ⟨c, _, by rw [characters, hwhole, List.cons_append], hdigits (by simp), fun d hd => ?_⟩
  obtain hrest | htail := List.mem_append.1 hd
  · exact .inl (hdigits (by simp [hrest]))
  · split at htail
    case isTrue => cases htail
    case isFalse =>
      obtain rfl | hfraction := List.mem_cons.1 htail
      · exact .inr rfl
      · exact .inl (hdigits (by simp [hfraction]))

end Decimal

/-! ### Plain forms -/

theorem toList_plain {x : Float} {negative : Bool} {mantissa : Nat} {exponent : Int}
    (h : Binary.ofFloat x = .finite negative mantissa exponent) :
    (plain x).toList =
      (if negative then ['-'] else []) ++ (magnitude mantissa exponent).characters := by
  have hempty : (magnitude mantissa exponent).places.2.isEmpty = true ↔
      (magnitude mantissa exponent).fractionDigits = [] := by
    rw [String.isEmpty_iff, Decimal.fractionDigits, String.toList_eq_nil_iff]
  have hplain : plain x = signed negative (if (magnitude mantissa exponent).places.2.isEmpty then
      (magnitude mantissa exponent).places.1 else (magnitude mantissa exponent).places.1 ++ "." ++
        (magnitude mantissa exponent).places.2) := by
    rw [plain, h]
  have hsigned (text : String) : (signed negative text).toList =
      (if negative then ['-'] else []) ++ text.toList := by
    cases negative <;> simp [signed]
  rw [hplain, hsigned, Decimal.characters]
  refine congrArg _ ?_
  split
  case isTrue hnone =>
    rw [if_pos (hempty.1 hnone), List.append_nil]
    rfl
  case isFalse hsome =>
    rw [if_neg (mt hempty.2 hsome), String.toList_append, String.toList_append, List.append_assoc]
    rfl

/-- Different finite numbers have different plain forms. -/
theorem plain_injective {x y : Float} (hx : Finite x) (hy : Finite y) (h : plain x = plain y) :
    x = y := by
  obtain ⟨negative, mantissa, exponent, hx⟩ := hx
  obtain ⟨negative', mantissa', exponent', hy⟩ := hy
  have htext := congrArg String.toList h
  rw [toList_plain hx, toList_plain hy] at htext
  -- A digit is not a minus sign, so the signs agree, and so do the characters behind them.
  have hparts : negative = negative' ∧ (magnitude mantissa exponent).characters =
      (magnitude mantissa' exponent').characters := by
    obtain ⟨c, rest, hfirst, hc, -⟩ := (magnitude mantissa exponent).exists_cons_characters
    obtain ⟨c', rest', hsecond, hc', -⟩ := (magnitude mantissa' exponent').exists_cons_characters
    have hne {c : Char} (hc : c.isDigit = true) : c ≠ '-' := by
      rintro rfl
      exact absurd hc (by decide)
    rw [hfirst, hsecond] at htext ⊢
    cases negative with
    | true =>
      cases negative' with
      | true => exact ⟨rfl, List.append_cancel_left htext⟩
      | false => exact absurd (List.cons.inj htext).1.symm (hne hc')
    | false =>
      cases negative' with
      | true => exact absurd (List.cons.inj htext).1 (hne hc)
      | false => exact ⟨rfl, htext⟩
  obtain ⟨rfl, hcharacters⟩ := hparts
  obtain ⟨rfl, rfl⟩ := magnitude_injective (Binary.canonical_of_ofBits hx)
    (Binary.canonical_of_ofBits hy) (Decimal.value_eq_of_characters hcharacters)
  exact Binary.ofFloat_injective_of_finite hx hy

example : Finite (Binary.nearest 25 10) := ⟨false, 5 * 2 ^ 50, -51, by decide +kernel⟩

/-- The plain form of a finite number begins with a digit or a minus sign, and behind that there is
nothing else in it than digits and points. -/
theorem exists_cons_plain {x : Float} (hx : Finite x) : ∃ c rest, (plain x).toList = c :: rest ∧
    (c.isDigit = true ∨ c = '-') ∧ ∀ d ∈ rest, d.isDigit = true ∨ d = '.' := by
  obtain ⟨negative, mantissa, exponent, hx⟩ := hx
  obtain ⟨c, rest, hcharacters, hdigit, hrest⟩ := (magnitude mantissa exponent).exists_cons_characters
  rw [toList_plain hx, hcharacters]
  cases negative with
  | true => exact ⟨'-', c :: rest, rfl, .inr rfl, List.forall_mem_cons.2 ⟨.inl hdigit, hrest⟩⟩
  | false => exact ⟨c, rest, rfl, .inl hdigit, hrest⟩

end Lox.Number
