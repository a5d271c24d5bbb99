import DialectIR.Text.Numeral
import Mathlib.Algebra.Group.Nat.Defs

/-! Decimal numerals are read back as the number that they were written for. -/

namespace DialectIR.Text

theorem isDigit_of_mem_toDigits {n : Nat} {c : Char} (h : c ∈ Nat.toDigits 10 n) :
    c.isDigit = true :=
  Nat.isDigit_of_mem_toDigits (by decide) (by decide) h

@[simp] theorem digitsValue_toDigits (n : Nat) : digitsValue (Nat.toDigits 10 n) = n := by
  rw [digitsValue, ← Nat.ofDigitChars_eq_foldl]
  exact Nat.ofDigitChars_ten_toDigits

/-- Zeros in front of a numeral do not count. -/
theorem digitsValue_replicate_append (k : Nat) (digits : List Char) :
    digitsValue (List.replicate k '0' ++ digits) = digitsValue digits := by
  simp only [digitsValue, ← Nat.ofDigitChars_eq_foldl, Nat.ofDigitChars_append,
    Nat.ofDigitChars_replicate_zero, Nat.mul_zero]

/-- Zeros behind a numeral scale it. -/
theorem digitsValue_append_replicate (k : Nat) (digits : List Char) :
    digitsValue (digits ++ List.replicate k '0') = 10 ^ k * digitsValue digits := by
  simp only [digitsValue, ← Nat.ofDigitChars_eq_foldl, Nat.ofDigitChars_append,
    Nat.ofDigitChars_replicate_zero]

@[simp] theorem readDigits?_toDigits (n : Nat) : readDigits? (Nat.toDigits 10 n) = some n := by
  have hall : (Nat.toDigits 10 n).all Char.isDigit = true :=
    List.all_eq_true.2 fun _ h => isDigit_of_mem_toDigits h
  have hne : (Nat.toDigits 10 n).isEmpty = false := by
    rw [List.isEmpty_eq_false_iff]
    exact Nat.toDigits_ne_nil
  simp [readDigits?, hall, hne]

/-- A numeral begins with a digit. -/
theorem exists_toDigits_eq_cons (n : Nat) :
    ∃ c cs, Nat.toDigits 10 n = c :: cs ∧ c.isDigit = true ∧ ∀ d ∈ cs, d.isDigit = true := by
  obtain ⟨c, cs, h⟩ := List.exists_cons_of_ne_nil (Nat.toDigits_ne_nil (n := n) (b := 10))
  exact ⟨c, cs, h, isDigit_of_mem_toDigits (h ▸ List.mem_cons_self),
    fun d hd => isDigit_of_mem_toDigits (h ▸ List.mem_cons_of_mem _ hd)⟩

theorem readNat?_ofList_toDigits {max n : Nat} (h : n ≤ max) :
    readNat? max (String.ofList (Nat.toDigits 10 n)) = some n := by
  obtain ⟨c, cs, hcons, hdigit, -⟩ := exists_toDigits_eq_cons n
  have hread := readDigits?_toDigits n
  have hplus : c ≠ '+' := by
    rintro rfl
    cases hdigit
  rw [hcons] at hread
  simp only [readNat?, String.toList_ofList, hcons]
  split
  next heq => exact absurd (List.cons.inj heq).1 hplus
  next => simp [hread, h]

theorem readUInt64?_toString (number : UInt64) :
    readUInt64? (toString number.toNat) = some number := by
  have hlt := number.toNat_lt
  rw [readUInt64?, Nat.toString_eq_ofList_toDigits,
    readNat?_ofList_toDigits (by rw [UInt64.size]; omega)]
  simp

/-- A row of digits, leading zeros and all. -/
def IsNumeral (digits : List Char) : Prop := digits ≠ [] ∧ ∀ c ∈ digits, c.isDigit = true

/-- The number that digits stand for behind a minus sign or none. -/
def signedValue (negative : Bool) (digits : List Char) : Int :=
  if negative then -(digitsValue digits : Int) else digitsValue digits

theorem isNumeral_toDigits (n : Nat) : IsNumeral (Nat.toDigits 10 n) :=
  ⟨Nat.toDigits_ne_nil, fun _ => isDigit_of_mem_toDigits⟩

theorem readDigits?_of_isNumeral {digits : List Char} (h : IsNumeral digits) :
    readDigits? digits = some (digitsValue digits) := by
  have hne : digits.isEmpty = false := List.isEmpty_eq_false_iff.2 h.1
  have hall : digits.all Char.isDigit = true := List.all_eq_true.2 h.2
  simp [readDigits?, hne, hall]

theorem readDigits?_eq_some_iff {digits : List Char} {n : Nat} :
    readDigits? digits = some n ↔ IsNumeral digits ∧ digitsValue digits = n := by
  constructor
  · intro h
    unfold readDigits? at h
    split at h
    · cases h
    next hnumeral =>
      simp only [Bool.or_eq_true, List.isEmpty_iff, Bool.not_eq_true', not_or,
        Bool.not_eq_false] at hnumeral
      exact ⟨⟨hnumeral.1, List.all_eq_true.1 hnumeral.2⟩, Option.some.inj h⟩
  · rintro ⟨hnumeral, rfl⟩
    exact readDigits?_of_isNumeral hnumeral

/-- A natural number of limited size is read from a row of digits, perhaps behind a plus sign. -/
theorem readNat?_eq_some_iff {max n : Nat} {text : String} : readNat? max text = some n
    ↔ n ≤ max ∧ ∃ sign digits, (sign = [] ∨ sign = ['+']) ∧ text.toList = sign ++ digits
      ∧ IsNumeral digits
      ∧ digitsValue digits = n := by
  unfold readNat?
  split
  next digits htext =>
    simp only [Option.filter_eq_some_iff, decide_eq_true_eq, readDigits?_eq_some_iff, htext,
      and_comm (b := n ≤ max)]
    refine and_congr_right fun _ => ⟨fun h => ⟨['+'], digits, .inr rfl, rfl, h⟩, ?_⟩
    rintro ⟨_, digits', rfl | rfl, heq, hnumeral, hvalue⟩
    · obtain rfl : '+' :: digits = digits' := heq
      exact absurd (hnumeral.2 '+' List.mem_cons_self) (by decide)
    · cases heq
      exact ⟨hnumeral, hvalue⟩
  next hplus =>
    simp only [Option.filter_eq_some_iff, decide_eq_true_eq, readDigits?_eq_some_iff,
      and_comm (b := n ≤ max)]
    refine and_congr_right fun _ => ⟨fun h => ⟨[], _, .inl rfl, rfl, h⟩, ?_⟩
    rintro ⟨_, digits', rfl | rfl, heq, hnumeral, hvalue⟩
    · exact heq ▸ ⟨hnumeral, hvalue⟩
    · exact absurd heq (hplus digits')

theorem toDigits_of_isDigit {c : Char} (h : c.isDigit = true) :
    Nat.toDigits 10 (c.toNat - 48) = [c] := by
  have hrange : 48 ≤ c.toNat ∧ c.toNat ≤ 57 := Char.isDigit_iff_toNat.1 h
  have hsmall : c.toNat - 48 < 10 := by omega
  rw [Nat.toDigits_of_lt_base hsmall, List.singleton_inj]
  apply Char.toNat_inj.1
  rw [Nat.toNat_digitChar_of_lt_ten hsmall]
  omega

/-- Digits behind a numeral go on with it. -/
theorem toDigits_append {value : Nat} (hpos : 0 < value) {digits : List Char}
    (hdigits : ∀ c ∈ digits, c.isDigit = true) :
    Nat.toDigits 10 value ++ digits = Nat.toDigits 10 (Nat.ofDigitChars 10 digits value) := by
  induction digits generalizing value with
  | nil => exact List.append_nil _
  | cons c digits ih =>
      obtain ⟨hc, hrest⟩ := List.forall_mem_cons.1 hdigits
      have hrange : 48 ≤ c.toNat ∧ c.toNat ≤ 57 := Char.isDigit_iff_toNat.1 hc
      rw [Nat.ofDigitChars_cons, List.append_cons, ← toDigits_of_isDigit hc,
        Nat.toDigits_append_toDigits (by decide) hpos (by omega)]
      exact ih (by omega) hrest

/-- A row of digits is the numeral of its number with zeros in front. -/
theorem IsNumeral.eq_zeros_append {digits : List Char} (h : IsNumeral digits)
    (hpos : 0 < digitsValue digits) :
    ∃ zeros, digits = List.replicate zeros '0' ++ Nat.toDigits 10 (digitsValue digits) := by
  obtain ⟨hne, hdigits⟩ := h
  induction digits with
  | nil => exact absurd rfl hne
  | cons c digits ih =>
      obtain ⟨hc, hrest⟩ := List.forall_mem_cons.1 hdigits
      by_cases hzero : c = '0'
      · subst hzero
        have hvalue : digitsValue ('0' :: digits) = digitsValue digits :=
          digitsValue_replicate_append 1 digits
        rw [hvalue] at hpos ⊢
        have hmore : digits ≠ [] := by
          rintro rfl
          exact absurd hpos (by decide)
        obtain ⟨zeros, heq⟩ := ih hpos hmore hrest
        exact ⟨zeros + 1, congrArg ('0' :: ·) heq⟩
      · have hrange : 48 ≤ c.toNat ∧ c.toNat ≤ 57 := Char.isDigit_iff_toNat.1 hc
        have hfirst : c.toNat ≠ 48 := fun heq => hzero (Char.toNat_inj.1 heq)
        have hvalue : digitsValue (c :: digits) = Nat.ofDigitChars 10 digits (c.toNat - 48) := by
          rw [digitsValue, ← Nat.ofDigitChars_eq_foldl, Nat.ofDigitChars_cons,
            Nat.mul_zero, Nat.zero_add]
          rfl
        refine ⟨0, ?_⟩
        rw [hvalue, ← toDigits_append (by omega) hrest, toDigits_of_isDigit hc]
        rfl

/-- A numeral of any length is read if it is in range, and only then. -/
theorem readInt64?_eq_some_iff (negative : Bool) {digits : List Char} (h : IsNumeral digits)
    {value : Int64} :
    readInt64? (if negative then "-" ++ String.ofList digits else String.ofList digits) = some value
      ↔ value.toInt = signedValue negative digits := by
  have hmin : Int64.minValue.toInt = -2 ^ 63 := by decide
  have hmax : Int64.maxValue.toInt = 2 ^ 63 - 1 := by decide
  -- what is read, before it is known to be in range
  have hread : readInt64? (if negative then "-" ++ String.ofList digits else String.ofList digits)
      = ((some (signedValue negative digits)).filter fun i =>
          decide (Int64.minValue.toInt ≤ i) && decide (i ≤ Int64.maxValue.toInt)).map
            Int64.ofInt := by
    have hdigits := readDigits?_of_isNumeral h
    cases negative with
    | true =>
        have htext : ("-" ++ String.ofList digits).toList = '-' :: digits := by simp
        simp only [if_true, readInt64?, readInt?, htext, hdigits]
        rfl
    | false =>
        obtain ⟨c, cs, rfl⟩ := List.exists_cons_of_ne_nil h.1
        have hc : c ≠ '+' ∧ c ≠ '-' := by
          have hdigit := h.2 c List.mem_cons_self
          constructor
          · rintro rfl
            cases hdigit
          · rintro rfl
            cases hdigit
        simp only [Bool.false_eq_true, if_false, readInt64?, readInt?, String.toList_ofList]
        split
        next heq => exact absurd (List.cons.inj heq).1 hc.1
        next heq => exact absurd (List.cons.inj heq).1 hc.2
        next =>
          rw [hdigits]
          rfl
  rw [hread, Option.filter_some]
  simp only [hmin, hmax, Bool.and_eq_true, decide_eq_true_eq]
  split
  next hin =>
    rw [Option.map_some, Option.some_inj]
    constructor
    · rintro rfl
      exact Int64.toInt_ofInt_of_le hin.1 (by omega)
    · intro hvalue
      rw [← hvalue, Int64.ofInt_toInt]
  next hout =>
    constructor
    · intro hnone
      cases hnone
    · intro hvalue
      have hlow := value.minValue_le_toInt
      have hhigh := value.toInt_le
      rw [hmin] at hlow
      rw [hmax] at hhigh
      exact absurd ⟨hvalue ▸ hlow, hvalue ▸ hhigh⟩ hout

theorem readInt64?_of_nonneg {value : Int64} {n : Nat} (h : value.toInt = n) :
    readInt64? (String.ofList (Nat.toDigits 10 n)) = some value :=
  (readInt64?_eq_some_iff false (isNumeral_toDigits n)).2 (by simp [signedValue, h])

theorem readInt64?_of_neg {value : Int64} {n : Nat} (h : value.toInt = -n) :
    readInt64? ("-" ++ String.ofList (Nat.toDigits 10 n)) = some value :=
  (readInt64?_eq_some_iff true (isNumeral_toDigits n)).2 (by simp [signedValue, h])

end DialectIR.Text
