import Mathlib.Algebra.Order.Field.Basic
import Mathlib.Algebra.Order.Field.Rat
import Mathlib.Tactic.Ring
import Mathlib.Tactic.NormNum
import Mathlib.Tactic.Positivity
import Verdict.Proofs.Numbers

/-!
# The range of numbers

Whether a number has a double-precision value is decided on its leading digits, and with rounded
factors. The digits left out can only make the number larger than what is scaled, and rounding keeps
the order. So there is a least number that is refused, and it lies below the largest double, but
above the one next to that.
-/

namespace Verdict.Json.Number

/-- The number that digits name behind those of another. -/
def digitsBehind (value : Nat) (digits : List (Fin 10)) : Nat :=
  digits.foldl (fun value digit => 10 * value + digit.val) value

variable {value : Nat} {digits rest : List (Fin 10)} {digit : Fin 10} {number : Number}

theorem le_digitsBehind (value : Nat) (digits : List (Fin 10)) :
    value * 10 ^ digits.length ≤ digitsBehind value digits := by
  induction digits generalizing value with
  | nil => simp [digitsBehind]
  | cons digit rest ih =>
    calc
      value * 10 ^ (rest.length + 1) = 10 * value * 10 ^ rest.length := by ring
      _ ≤ (10 * value + digit.val) * 10 ^ rest.length := Nat.mul_le_mul_right _ (by omega)
      _ ≤ digitsBehind (10 * value + digit.val) rest := ih _

/-- Digits that are absorbed are only moved into the significand. -/
theorem digitsBehind_absorb (value : Nat) (digits : List (Fin 10)) :
    digitsBehind (absorb value digits).1 (absorb value digits).2 = digitsBehind value digits := by
  fun_induction absorb value digits with
  | case1 value => rfl
  | case2 value digit rest next hfits ih => exact ih
  | case3 value digit rest next hfits => rfl

theorem absorb_cases (value : Nat) (digits : List (Fin 10)) :
    absorb value digits = (value, digits) ∨
      (absorb value digits).2.length < digits.length ∧ (absorb value digits).1 < UInt64.size := by
  fun_induction absorb value digits with
  | case1 value => exact .inl rfl
  | case2 value digit rest next hfits ih =>
    refine .inr ?_
    obtain hnone | ⟨hlength, hsmall⟩ := ih
    · rw [hnone]
      exact ⟨Nat.lt_succ_self _, hfits⟩
    · exact ⟨Nat.lt_succ_of_lt hlength, hsmall⟩
  | case3 value digit rest next hfits => exact .inl rfl

theorem size_le_of_absorb (h : (absorb value digits).2 = digit :: rest) :
    UInt64.size ≤ 10 * (absorb value digits).1 + digit.val := by
  fun_induction absorb value digits with
  | case1 value => cases h
  | case2 value digit rest next hfits ih => exact ih h
  | case3 value digit rest next hfits =>
    cases h
    exact Nat.le_of_not_lt hfits

theorem length_absorb_le (value : Nat) (digits : List (Fin 10)) :
    (absorb value digits).2.length ≤ digits.length := by
  obtain hnone | ⟨hlength, -⟩ := absorb_cases value digits
  · rw [hnone]
  · exact hlength.le

theorem digitsBehind_map_digitOfChar {digits : List Char}
    (hdigits : ∀ c ∈ digits, c.isDigit = true) (value : Nat) :
    digitsBehind value (digits.map digitOfChar) = Nat.ofDigitChars 10 digits value := by
  induction digits generalizing value with
  | nil => rfl
  | cons c rest ih =>
    obtain ⟨hc, hrest⟩ := List.forall_mem_cons.mp hdigits
    have hdigit : (digitOfChar c).val = c.toNat - '0'.toNat := by
      rw [digitOfChar, Fin.val_ofNat, Nat.mod_eq_of_lt (digitChar_toNat hc).1]
    rw [Nat.ofDigitChars_cons, ← ih hrest, ← hdigit]
    rfl

theorem digitsBehind_toDigits (value : Nat) :
    digitsBehind 0 ((Nat.toDigits 10 value).map digitOfChar) = value := by
  rw [digitsBehind_map_digitOfChar fun c hc => Text.isDigit_of_mem_toDigits hc]
  exact Text.digitsValue_toDigits value

/-- The digits of the number, without its point. -/
def allDigits (number : Number) : Nat :=
  digitsBehind number.whole number.fraction

/-- The number without its sign. -/
def magnitude (number : Number) : ℚ :=
  number.allDigits * 10 ^ (number.exponent.getD 0 - number.fraction.length)

theorem magnitude_scaled (negative : Bool) (whole power : Nat) :
    magnitude ⟨negative, whole, [], some power⟩ = (whole * 10 ^ power : Nat) := by
  simp [magnitude, allDigits, digitsBehind]

theorem absorb_absorb_le (whole fraction : List (Fin 10)) :
    (absorb (absorb 0 whole).1 fraction).1 *
        10 ^ ((absorb 0 whole).2.length + (absorb (absorb 0 whole).1 fraction).2.length) ≤
      digitsBehind (digitsBehind 0 whole) fraction := by
  have hwhole := digitsBehind_absorb 0 whole
  have hover := @size_le_of_absorb 0 whole
  generalize absorb 0 whole = taken at hwhole hover ⊢
  obtain ⟨value, left⟩ := taken
  rw [← hwhole]
  obtain hnone | ⟨hlength, hsmall⟩ := absorb_cases value fraction
  · rw [hnone, Nat.pow_add, ← Nat.mul_assoc]
    exact (Nat.mul_le_mul_right _ (le_digitsBehind value left)).trans (le_digitsBehind _ fraction)
  cases left with
  | nil =>
    have hrest := le_digitsBehind (absorb value fraction).1 (absorb value fraction).2
    rw [digitsBehind_absorb] at hrest
    change _ ≤ digitsBehind value fraction
    simpa using hrest
  | cons digit rest =>
    -- A digit of the fraction is taken only where a larger one was left over before it.
    have hlarge := hover rfl
    generalize absorb value fraction = all at hlength hsmall ⊢
    calc
      all.1 * 10 ^ ((digit :: rest).length + all.2.length) =
          all.1 * 10 ^ rest.length * 10 ^ (all.2.length + 1) := by
        rw [List.length_cons]
        ring
      _ ≤ (10 * value + digit.val) * 10 ^ rest.length * 10 ^ fraction.length :=
        Nat.mul_le_mul (Nat.mul_le_mul_right _ (by omega))
          (Nat.pow_le_pow_right (by decide) hlength)
      _ ≤ digitsBehind (10 * value + digit.val) rest * 10 ^ fraction.length :=
        Nat.mul_le_mul_right _ (le_digitsBehind _ rest)
      _ ≤ digitsBehind (digitsBehind value (digit :: rest)) fraction := le_digitsBehind _ fraction

/-- Digits are only left out of the significand, so it scales to no more than the number. -/
theorem scientific_le_magnitude (number : Number) :
    (number.scientific.1 : ℚ) * 10 ^ number.scientific.2 ≤ number.magnitude := by
  have hdigits := absorb_absorb_le ((Nat.toDigits 10 number.whole).map digitOfChar) number.fraction
  rw [digitsBehind_toDigits] at hdigits
  have hlength := length_absorb_le
    (absorb 0 ((Nat.toDigits 10 number.whole).map digitOfChar)).1 number.fraction
  unfold scientific magnitude allDigits
  dsimp only
  generalize absorb 0 ((Nat.toDigits 10 number.whole).map digitOfChar) = whole at hdigits hlength ⊢
  generalize absorb whole.1 number.fraction = all at hdigits hlength ⊢
  have hexponent : (whole.2.length : ℤ) - ((number.fraction.length - all.2.length : ℕ) : ℤ) +
      number.exponent.getD 0 =
      ((whole.2.length + all.2.length : ℕ) : ℤ) +
        (number.exponent.getD 0 - number.fraction.length) := by omega
  rw [hexponent, zpow_add₀ (by norm_num), zpow_natCast, ← mul_assoc]
  have hcast : (all.1 : ℚ) * 10 ^ (whole.2.length + all.2.length) ≤
      (digitsBehind number.whole number.fraction : ℚ) := by exact_mod_cast hdigits
  exact mul_le_mul_of_nonneg_right hcast (zpow_pos (by norm_num) _).le

/-! ### Rounding keeps the order

Of two numbers the larger one may be rounded to a coarser unit. Then a power of two lies between
them that is a multiple of both units, so neither of them is rounded past it.
-/

/-- Whether the next multiple of `2 ^ bits` is nearer than the last one, or as near and even. -/
def roundsUp (bits value : Nat) : Bool :=
  2 ^ bits < 2 * (value % 2 ^ bits) ||
    (2 * (value % 2 ^ bits) == 2 ^ bits && value / 2 ^ bits % 2 == 1)

def roundAt (bits value : Nat) : Nat :=
  (if roundsUp bits value then value / 2 ^ bits + 1 else value / 2 ^ bits) * 2 ^ bits

theorem roundTo53Bits_eq (value : Nat) :
    roundTo53Bits value = roundAt (Nat.log2 value + 1 - 53) value := by
  rw [roundTo53Bits, Nat.one_shiftLeft]
  rfl

variable {bits larger count : Nat}

theorem roundsUp_iff : roundsUp bits value = true ↔
    2 ^ bits < 2 * (value % 2 ^ bits) ∨
      2 * (value % 2 ^ bits) = 2 ^ bits ∧ value / 2 ^ bits % 2 = 1 := by
  simp [roundsUp]

theorem roundAt_le (h : value ≤ count * 2 ^ bits) : roundAt bits value ≤ count * 2 ^ bits := by
  have hpos : 0 < 2 ^ bits := Nat.two_pow_pos bits
  apply Nat.mul_le_mul_right
  split
  · rename_i hup
    rw [roundsUp_iff] at hup
    have hsplit := Nat.div_add_mod' value (2 ^ bits)
    have hlt : value / 2 ^ bits * 2 ^ bits < count * 2 ^ bits := by omega
    exact Nat.lt_of_mul_lt_mul_right hlt
  · exact Nat.div_le_of_le_mul (Nat.mul_comm _ _ ▸ h)

theorem le_roundAt (h : count * 2 ^ bits ≤ value) : count * 2 ^ bits ≤ roundAt bits value := by
  have hcount : count ≤ value / 2 ^ bits :=
    (Nat.le_div_iff_mul_le (Nat.two_pow_pos bits)).mpr h
  apply Nat.mul_le_mul_right
  split <;> omega

theorem roundAt_mono (h : value ≤ larger) : roundAt bits value ≤ roundAt bits larger := by
  obtain hlow | hlow := (Nat.div_le_div_right (c := 2 ^ bits) h).lt_or_eq
  · have hbetween : value ≤ larger / 2 ^ bits * 2 ^ bits :=
      ((Nat.div_lt_iff_lt_mul (Nat.two_pow_pos bits)).mp hlow).le
    exact (roundAt_le hbetween).trans (le_roundAt (Nat.div_mul_le_self _ _))
  · have hvalue := Nat.div_add_mod value (2 ^ bits)
    have hlarger := Nat.div_add_mod larger (2 ^ bits)
    rw [hlow] at hvalue
    have hup : roundsUp bits value = true → roundsUp bits larger = true := by
      rw [roundsUp_iff, roundsUp_iff, hlow]
      omega
    unfold roundAt
    rw [hlow]
    apply Nat.mul_le_mul_right
    split
    · rename_i hvalueUp
      rw [if_pos (hup hvalueUp)]
    · split <;> omega

theorem roundTo53Bits_mono (h : value ≤ larger) : roundTo53Bits value ≤ roundTo53Bits larger := by
  rw [roundTo53Bits_eq, roundTo53Bits_eq]
  obtain hlog | hlog | hlog := lt_trichotomy value.log2 larger.log2
  · have hpower (bits : Nat) (hbits : bits ≤ larger.log2) :
        2 ^ (larger.log2 - bits) * 2 ^ bits = 2 ^ larger.log2 := by
      rw [← Nat.pow_add, Nat.sub_add_cancel hbits]
    have hbelow : value ≤ 2 ^ larger.log2 :=
      Nat.lt_log2_self.le.trans (Nat.pow_le_pow_right (by decide) hlog)
    have habove : 2 ^ larger.log2 ≤ larger := Nat.log2_self_le (by rintro rfl; simp at hlog)
    calc
      roundAt (value.log2 + 1 - 53) value ≤ 2 ^ larger.log2 := by
        rw [← hpower (value.log2 + 1 - 53) (by omega)] at hbelow ⊢
        exact roundAt_le hbelow
      _ ≤ roundAt (larger.log2 + 1 - 53) larger := by
        rw [← hpower (larger.log2 + 1 - 53) (by omega)] at habove ⊢
        exact le_roundAt habove
  · rw [hlog]
    exact roundAt_mono h
  · have hvalue : 2 ^ value.log2 ≤ value := Nat.log2_self_le (by rintro rfl; simp at hlog)
    have hlarger : larger < 2 ^ value.log2 :=
      Nat.lt_log2_self.trans_le (Nat.pow_le_pow_right (by decide) hlog)
    omega

/-- The largest double-precision value. -/
def largestDouble : Nat :=
  1 <<< 1024 - 1 <<< 971

/-- The least number that is refused. Its factors are rounded up, and so is their product. -/
def leastRefused : Nat :=
  17976931348623156225 * 10 ^ 289

/-- A significand of 64 bits that scales to less than the least refused number is not refused. -/
theorem scaled_lt_overflowThreshold {significand power : Nat} (hsize : significand < UInt64.size)
    (hpower : power < 309) (h : significand * 10 ^ power < leastRefused) :
    roundTo53Bits significand * roundTo53Bits (10 ^ power) < overflowThreshold := by
  obtain hsmall | hlarge := Nat.lt_or_ge power 289
  · calc
      roundTo53Bits significand * roundTo53Bits (10 ^ power) ≤
          roundTo53Bits UInt64.size * roundTo53Bits (10 ^ 288) :=
        Nat.mul_le_mul (roundTo53Bits_mono hsize.le)
          (roundTo53Bits_mono (Nat.pow_le_pow_right (by decide) (Nat.le_of_lt_succ hsmall)))
      _ < overflowThreshold := by decide +kernel
  · obtain ⟨more, rfl⟩ := Nat.exists_eq_add_of_le hlarge
    -- For each of the other powers, the largest significand is looked at on its own.
    have hlargest : ∀ more < 20,
        roundTo53Bits ((leastRefused - 1) / 10 ^ (289 + more)) *
          roundTo53Bits (10 ^ (289 + more)) < overflowThreshold := by decide +kernel
    have hsignificand : significand ≤ (leastRefused - 1) / 10 ^ (289 + more) :=
      (Nat.le_div_iff_mul_le (by positivity)).mpr (Nat.le_sub_one_of_lt h)
    exact (Nat.mul_le_mul_right _ (roundTo53Bits_mono hsignificand)).trans_lt
      (hlargest more (by omega))

theorem absorb_lt_size (h : value < UInt64.size) : (absorb value digits).1 < UInt64.size := by
  obtain hnone | ⟨-, hsmall⟩ := absorb_cases value digits
  · rwa [hnone]
  · exact hsmall

theorem scientific_lt_size (number : Number) : number.scientific.1 < UInt64.size :=
  absorb_lt_size (absorb_lt_size (by decide))

/-- Every number below the least that is refused has a double-precision value. -/
theorem isFinite_of_magnitude_lt (h : number.magnitude < leastRefused) :
    number.isFinite = true := by
  have hscaled := (scientific_le_magnitude number).trans_lt h
  have hsize := scientific_lt_size number
  unfold isFinite
  generalize number.scientific = scaled at hscaled hsize ⊢
  obtain ⟨significand, exponent⟩ := scaled
  dsimp only at hscaled hsize ⊢
  rcases Nat.eq_zero_or_pos significand with rfl | hpos
  · simp
  rcases lt_or_ge exponent 0 with hneg | hnonneg
  · simp [hneg]
  obtain ⟨power, rfl⟩ := Int.eq_ofNat_of_zero_le hnonneg
  rw [zpow_natCast] at hscaled
  have hnat : significand * 10 ^ power < leastRefused := by exact_mod_cast hscaled
  have hpower : power < 309 := by
    have hle : 10 ^ power ≤ significand * 10 ^ power := Nat.le_mul_of_pos_left _ hpos
    have hlt : leastRefused < 10 ^ 309 := by decide +kernel
    exact (pow_lt_pow_iff_right₀ (by decide)).mp ((hle.trans_lt hnat).trans hlt)
  have hfits := scaled_lt_overflowThreshold hsize hpower hnat
  have hexponent : (power : ℤ) ≤ 308 := by omega
  simp only [Bool.or_eq_true, Bool.and_eq_true, decide_eq_true_eq]
  exact .inr ⟨hexponent, hfits⟩

example : isFinite ⟨false, 17976931348623156225, [], some 289⟩ = false := by decide +kernel

end Verdict.Json.Number
