import Mathlib.Data.List.TakeDrop
import Verdict.Proofs.Spellings

namespace Verdict

namespace Text

variable {digits text : List Char} {number : Int}

theorem isDigit_of_mem_digits (h : isDigits digits = true) {c : Char} (hc : c ∈ digits) :
    c.isDigit = true :=
  List.all_eq_true.mp (Bool.and_eq_true_iff.mp h).2 c hc

theorem integer?_of_isDigits (h : isDigits digits = true) :
    integer? digits = some (digitsValue digits : Int) := by
  have hvalue : natural? digits = some (digitsValue digits) := if_pos h
  unfold integer?
  split
  · exact absurd (isDigit_of_mem_digits h (c := '-') (by simp)) (by decide)
  · exact absurd (isDigit_of_mem_digits h (c := '+') (by simp)) (by decide)
  · rw [hvalue]
    rfl

theorem integer?_of_spells (h : Spells text number) : integer? text = some number := by
  cases h with
  | unsigned h => exact integer?_of_isDigits h
  | plus h =>
    rw [integer?, natural?, if_pos h]
    rfl
  | minus h =>
    rw [integer?, natural?, if_pos h]
    rfl

theorem spells_of_integer? (h : integer? text = some number) : Spells text number := by
  rw [integer?.eq_def] at h
  split at h
  all_goals
    rw [natural?] at h
    split at h
    on_goal 2 => cases h
    rename_i hdigits
    cases h
  · exact .minus hdigits
  · exact .plus hdigits
  · exact .unsigned hdigits

end Text

namespace Json.Number

theorem head?_toDigits_ne_zero {value : Nat} (hpos : 0 < value) :
    (Nat.toDigits 10 value).head? ≠ some '0' := by
  induction value using Nat.strongRecOn with
  | ind value ih =>
    by_cases hsmall : value < 10
    · rw [Nat.toDigits_of_lt_base hsmall, List.head?_cons]
      intro hzero
      have hvalue := Nat.digitChar_eq_zero.mp (Option.some.inj hzero)
      omega
    · have hfirst := ih (value / 10) (by omega) (by omega)
      obtain ⟨first, others, hdigits⟩ :=
        List.exists_cons_of_ne_nil (Nat.toDigits_ne_nil (n := value / 10) (b := 10))
      rw [Nat.toDigits_of_base_le (by decide) (by omega)]
      rw [hdigits] at hfirst ⊢
      exact hfirst

theorem isWhole_toDigits (value : Nat) : isWhole (Nat.toDigits 10 value) = true := by
  by_cases hpos : 0 < value
  · have hfirst := head?_toDigits_ne_zero hpos
    have hne := Nat.toDigits_ne_nil (n := value) (b := 10)
    generalize Nat.toDigits 10 value = digits at hfirst hne
    unfold isWhole
    split
    · exact absurd rfl hne
    · rfl
    · simpa using hfirst
  · have hzero : value = 0 := by omega
    subst hzero
    rfl

theorem digitOfChar_digitChar (digit : Fin 10) : digitOfChar (Nat.digitChar digit.val) = digit := by
  revert digit
  decide

theorem span_isDigit_append {digits rest : List Char} (hdigits : ∀ c ∈ digits, c.isDigit = true)
    (hrest : ∀ c ∈ rest.head?, c.isDigit = false) :
    (digits ++ rest).span Char.isDigit = (digits, rest) := by
  rw [List.span_eq_takeWhile_dropWhile, List.takeWhile_append_of_pos hdigits,
    List.dropWhile_append_of_pos hdigits]
  cases rest with
  | nil => simp
  | cons first rest =>
    have hfirst : first.isDigit = false := hrest first (by simp)
    simp [hfirst]

section Exponents

variable {exponent : Option Int} {text : List Char}

theorem mem_marks_of_isExponentSpelling (h : IsExponentSpelling exponent text) :
    ∀ c ∈ text.head?, c ∈ ['e', 'E'] := by
  intro c hc
  cases h with
  | absent => cases hc
  | present hmark _ =>
    cases hc
    exact hmark

theorem isDigit_of_mem_marks {c : Char} (h : c ∈ ['e', 'E']) : c.isDigit = false := by
  simp only [List.mem_cons, List.not_mem_nil, or_false] at h
  obtain rfl | rfl := h <;> rfl

theorem readExponent?_of_isExponentSpelling (h : IsExponentSpelling exponent text) :
    readExponent? text = some exponent := by
  cases h with
  | absent => rfl
  | @present mark digits value hmark h =>
    have hexponent : (mark == 'e' || mark == 'E') = true := by simpa using hmark
    rw [readExponent?, if_pos hexponent, Text.integer?_of_spells h]
    rfl

theorem readFraction?_of_isExponentSpelling (fraction : List (Fin 10))
    (h : IsExponentSpelling exponent text) :
    readFraction? (fractionWritten fraction ++ text) = some (fraction, text) := by
  have hmarks := mem_marks_of_isExponentSpelling h
  cases fraction with
  | nil =>
    rw [fractionWritten, List.nil_append]
    unfold readFraction?
    split
    · exact absurd (hmarks '.' (by simp)) (by decide)
    · rfl
  | cons first others =>
    have hdigits : ∀ c ∈ (first :: others).map fun digit => Nat.digitChar digit.val,
        c.isDigit = true := by
      intro c hc
      obtain ⟨digit, -, rfl⟩ := List.mem_map.mp hc
      rw [Nat.isDigit_digitChar]
      exact decide_eq_true digit.isLt
    have hrest : ∀ c ∈ text.head?, c.isDigit = false := fun c hc =>
      isDigit_of_mem_marks (hmarks c hc)
    have hback : ((first :: others).map fun digit => Nat.digitChar digit.val).map digitOfChar =
        first :: others := by
      rw [List.map_map]
      exact List.map_id'' digitOfChar_digitChar _
    rw [fractionWritten, List.cons_append, readFraction?, span_isDigit_append hdigits hrest]
    · exact congrArg (fun digits => some (digits, text)) hback
    · simp

end Exponents

theorem readUnsigned?_of_isExponentSpelling (negative : Bool) (whole : Nat)
    (fraction : List (Fin 10)) {exponent : Option Int} {text : List Char}
    (h : IsExponentSpelling exponent text) :
    readUnsigned? negative (Nat.toDigits 10 whole ++ (fractionWritten fraction ++ text)) =
      some ⟨negative, whole, fraction, exponent⟩ := by
  have hrest : ∀ c ∈ (fractionWritten fraction ++ text).head?, c.isDigit = false := by
    intro c hc
    cases fraction with
    | nil => exact isDigit_of_mem_marks (mem_marks_of_isExponentSpelling h c hc)
    | cons first others =>
      have hpoint : '.' = c := by simpa [fractionWritten] using hc
      rw [← hpoint]
      rfl
  have hwhole : guard (isWhole (Nat.toDigits 10 whole) = true) = some () :=
    if_pos (isWhole_toDigits whole)
  rw [readUnsigned?, span_isDigit_append (fun c hc => Text.isDigit_of_mem_toDigits hc) hrest]
  dsimp only
  rw [hwhole, Text.digitsValue_toDigits, Option.bind_eq_bind, Option.bind_some,
    readFraction?_of_isExponentSpelling fraction h]
  change (readExponent? text).bind _ = _
  rw [readExponent?_of_isExponentSpelling h]
  rfl

theorem read?_of_isSpelling {number : Number} {text : List Char} (h : number.IsSpelling text) :
    read? text = some number := by
  obtain ⟨negative, whole, fraction, exponent⟩ := number
  obtain ⟨exponentText, hexponent, rfl⟩ := h
  have hunsigned := readUnsigned?_of_isExponentSpelling negative whole fraction hexponent
  cases negative with
  | true => exact hunsigned
  | false =>
    -- Without a sign the text starts with a digit, so it is read as it is.
    have hdigit (c : Char) (h : c ∈ Nat.toDigits 10 whole) := Text.isDigit_of_mem_toDigits h
    obtain ⟨first, others, hfirst⟩ :=
      List.exists_cons_of_ne_nil (Nat.toDigits_ne_nil (n := whole) (b := 10))
    simp only [Bool.false_eq_true, if_false, List.nil_append]
    rw [hfirst, List.cons_append] at hunsigned ⊢
    unfold read?
    split
    · rename_i heq
      have hsign : first = '-' := (List.cons.inj heq).1
      exact absurd (hdigit first (by simp [hfirst])) (by rw [hsign]; decide)
    · exact hunsigned

theorem digitChar_toNat {c : Char} (h : c.isDigit = true) :
    c.toNat - '0'.toNat < 10 ∧ Nat.digitChar (c.toNat - '0'.toNat) = c := by
  have hrange : 48 ≤ c.toNat ∧ c.toNat ≤ 57 := by simpa [Char.isDigit, UInt32.le_iff_toNat_le] using h
  have hsmall : c.toNat - 48 < 10 := by omega
  refine ⟨hsmall, Char.toNat_inj.mp ?_⟩
  change (Nat.digitChar (c.toNat - 48)).toNat = _
  rw [Nat.toNat_digitChar_of_lt_ten hsmall]
  omega

theorem toDigits_ofDigitChars {digits : List Char} (hdigits : ∀ c ∈ digits, c.isDigit = true)
    {value : Nat} (hpos : 0 < value) :
    Nat.toDigits 10 (Nat.ofDigitChars 10 digits value) = Nat.toDigits 10 value ++ digits := by
  induction digits generalizing value with
  | nil => simp
  | cons c rest ih =>
    obtain ⟨hc, hrest⟩ := List.forall_mem_cons.mp hdigits
    obtain ⟨hsmall, hchar⟩ := digitChar_toNat hc
    rw [Nat.ofDigitChars_cons, ih hrest (by omega),
      ← Nat.toDigits_append_toDigits (by decide) hpos hsmall, Nat.toDigits_of_lt_base hsmall, hchar,
      List.append_assoc]
    rfl

/-- Digits without superfluous zeros are those of the number that they name. -/
theorem toDigits_digitsValue {digits : List Char} (hdigits : ∀ c ∈ digits, c.isDigit = true)
    (hwhole : isWhole digits = true) : Nat.toDigits 10 (Text.digitsValue digits) = digits := by
  unfold isWhole at hwhole
  split at hwhole
  · cases hwhole
  · rfl
  · rename_i first rest _
    obtain ⟨hfirst, hrest⟩ := List.forall_mem_cons.mp hdigits
    obtain ⟨hsmall, hchar⟩ := digitChar_toNat hfirst
    have hpos : 0 < first.toNat - '0'.toNat := by
      refine Nat.pos_of_ne_zero fun hzero => ?_
      rw [hzero] at hchar
      subst hchar
      exact absurd hwhole (by decide)
    rw [Text.digitsValue, Nat.ofDigitChars_cons, Nat.mul_zero, Nat.zero_add,
      toDigits_ofDigitChars hrest hpos, Nat.toDigits_of_lt_base hsmall, hchar]
    rfl

theorem digitChar_digitOfChar {c : Char} (h : c.isDigit = true) :
    Nat.digitChar (digitOfChar c).val = c := by
  obtain ⟨hsmall, hchar⟩ := digitChar_toNat h
  rw [digitOfChar, Fin.val_ofNat, Nat.mod_eq_of_lt hsmall]
  exact hchar

variable {text digits rest : List Char} {fraction : List (Fin 10)} {exponent : Option Int}
  {number : Number} {negative : Bool}

theorem eq_append_of_span (h : text.span Char.isDigit = (digits, rest)) :
    text = digits ++ rest ∧ ∀ c ∈ digits, c.isDigit = true := by
  rw [List.span_eq_takeWhile_dropWhile] at h
  cases h
  exact ⟨List.takeWhile_append_dropWhile.symm, List.all_eq_true.mp List.all_takeWhile⟩

theorem isExponentSpelling_of_readExponent? (h : readExponent? text = some exponent) :
    IsExponentSpelling exponent text := by
  unfold readExponent? at h
  split at h
  · cases h
    exact .absent
  · split at h
    · rename_i hmark
      obtain ⟨value, hvalue, rfl⟩ := Option.map_eq_some_iff.mp h
      exact .present (by simpa using hmark) (Text.spells_of_integer? hvalue)
    · cases h

theorem eq_append_of_readFraction? (h : readFraction? text = some (fraction, rest)) :
    text = fractionWritten fraction ++ rest := by
  unfold readFraction? at h
  split at h
  · split at h
    · cases h
    · rename_i digits _ hnone hspan
      cases h
      obtain ⟨rfl, hdigits⟩ := eq_append_of_span hspan
      have hback : (digits.map digitOfChar).map (fun digit => Nat.digitChar digit.val) = digits := by
        rw [List.map_map]
        exact (List.map_congr_left fun c hc => digitChar_digitOfChar (hdigits c hc)).trans
          (List.map_id digits)
      cases digits with
      | nil => exact absurd rfl hnone
      | cons first others => exact congrArg (fun digits => '.' :: (digits ++ rest)) hback.symm
  · cases h
    rfl

theorem isSpelling_of_readUnsigned? (h : readUnsigned? negative text = some number) :
    number.IsSpelling ((if negative then ['-'] else []) ++ text) := by
  unfold readUnsigned? at h
  generalize hspan : text.span Char.isDigit = parts at h
  obtain ⟨digits, rest⟩ := parts
  obtain ⟨_, hguard, h⟩ := Option.bind_eq_some_iff.mp h
  obtain ⟨⟨fraction, rest⟩, hfraction, h⟩ := Option.bind_eq_some_iff.mp h
  obtain ⟨exponent, hexponent, h⟩ := Option.bind_eq_some_iff.mp h
  cases h
  have hwhole : isWhole digits = true := (Option.ite_none_right_eq_some.mp hguard).1
  obtain ⟨rfl, hdigits⟩ := eq_append_of_span hspan
  refine ⟨rest, isExponentSpelling_of_readExponent? hexponent, ?_⟩
  rw [toDigits_digitsValue hdigits hwhole, eq_append_of_readFraction? hfraction]

theorem isSpelling_of_read? (h : read? text = some number) : number.IsSpelling text := by
  unfold read? at h
  split at h
  · exact isSpelling_of_readUnsigned? h
  · exact isSpelling_of_readUnsigned? h

/-- A text is read as a number exactly if it is a spelling of it. -/
theorem read?_eq_some_iff : read? text = some number ↔ number.IsSpelling text :=
  ⟨isSpelling_of_read?, read?_of_isSpelling⟩

end Json.Number

end Verdict
