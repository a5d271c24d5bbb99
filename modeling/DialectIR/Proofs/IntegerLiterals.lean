import DialectIR.Proofs.Literals
import Mathlib.Data.Int.ModEq

/-! Integer literals are stored as the numbers that they denote: a literal is accepted if its number
is one of 64 bits and is in the range of its type, with or without a sign, and it is stored in two's
complement at the width of the type. -/

namespace DialectIR

open Token Parse

variable {value : Int64} {ty : Ty} {bits : UInt32}

/-- The numbers that a type of up to 63 bits admits are those of its width with and without a
sign. -/
theorem Parse.fitsWidth_iff (hpos : 0 < bits) (hlt : bits < 64) : fitsWidth value bits = true
    ↔ -2 ^ (bits.toNat - 1) ≤ value.toInt ∧ value.toInt ≤ 2 ^ bits.toNat - 1 := by
  have hge : ¬ 64 ≤ bits := UInt32.not_le.2 hlt
  have hpos' : 0 < bits.toNat := hpos
  have hhalf : (2 : Int) ^ bits.toNat = 2 * 2 ^ (bits.toNat - 1) := by
    rw [← pow_succ', Nat.sub_add_cancel hpos']
  simp only [fitsWidth, hge, decide_false, Bool.false_or, Bool.and_eq_true, decide_eq_true_eq,
    Nat.one_shiftLeft, Nat.cast_pow, Nat.cast_ofNat, hhalf]
  omega

/-- The range of a type is that of its width; types of 64 bits and more admit everything. -/
theorem Parse.all_fitsWidth_iff (hty : ty.Writable) : ty.width?.all (fitsWidth value) = true
    ↔ ∀ bits, ty = .int bits → bits < 64 → -2 ^ (bits.toNat - 1) ≤ value.toInt
      ∧ value.toInt ≤ 2 ^ bits.toNat - 1 := by
  cases ty with
  | int bits =>
      have hpos : 0 < bits := hty.1
      change fitsWidth value bits = true ↔ _
      by_cases hlt : bits < 64
      · rw [fitsWidth_iff hpos hlt]
        constructor
        · rintro hrange _ ⟨⟩ -
          exact hrange
        · intro hrange
          exact hrange bits rfl hlt
      · have hge : 64 ≤ bits := UInt32.not_lt.1 hlt
        refine iff_of_true (by simp [fitsWidth, hge]) ?_
        rintro _ ⟨⟩ h
        exact absurd h hlt
  | index | float _ | none | foreign _ =>
      refine iff_of_true rfl ?_
      rintro _ ⟨⟩

/-- A value wrapped to a type of up to 63 bits is the number in the signed range of the type that is
congruent to it. -/
theorem Ty.truncate_spec (hpos : 0 < bits) (hlt : bits < 64) (value : Int64) :
    Int.ModEq (2 ^ bits.toNat) ((Ty.int bits).truncate value).toInt value.toInt
      ∧ -2 ^ (bits.toNat - 1) ≤ ((Ty.int bits).truncate value).toInt
      ∧ ((Ty.int bits).truncate value).toInt < 2 ^ (bits.toNat - 1) := by
  have hpos' : 0 < bits.toNat := hpos
  have hpow : 0 < 2 ^ bits.toNat := Nat.two_pow_pos _
  have hhalf : 2 ^ bits.toNat = 2 * 2 ^ (bits.toNat - 1) := by
    rw [← pow_succ', Nat.sub_add_cancel hpos']
  have hlow := Int.le_bmod (x := value.toInt) hpow
  have hhigh := Int.bmod_lt (x := value.toInt) hpow
  rw [Ty.toInt_truncate rfl hpos hlt]
  refine ⟨?_, ?_, ?_⟩
  · have hcongruent := Int.bmod_emod (x := value.toInt) (m := 2 ^ bits.toNat)
    rwa [Nat.cast_pow, Nat.cast_ofNat] at hcongruent
  · rw [hhalf] at hlow ⊢
    push_cast at hlow
    omega
  · rw [hhalf] at hhigh ⊢
    push_cast at hhigh
    omega

/-- Types that are no integers of up to 63 bits leave a value as it is. -/
theorem Ty.truncate_of_wide (hwide : ∀ bits, ty = .int bits → 64 ≤ bits) (value : Int64) :
    ty.truncate value = value := by
  rw [Ty.truncate_eq_self]
  intro bits hwidth hbits
  cases ty with
  | int bits' =>
      obtain rfl : bits' = bits := Option.some.inj hwidth
      exact absurd hbits.2 (UInt32.not_lt.2 (hwide _ rfl))
  | index =>
      obtain rfl : (64 : UInt32) = bits := Option.some.inj hwidth
      exact absurd hbits.2 (by decide)
  | _ => cases hwidth

/-- **Integer literals are stored as the numbers that they denote.** A literal of any length, of any
type that can stand behind it, is accepted exactly if its number fits 64 bits and, where the type is
an integer of fewer bits, fits these with or without a sign. What is stored is congruent to the
number and in the signed range of the type; in all other types it is the number. And it is read back
from how it is written. -/
theorem Literal.read?_integer_spec {negative : Bool} {digits : List Char} {source : String}
    (hdigits : Text.IsNumeral digits) (h : Literal .integer (.int 64) negative digits ty source) :
    ((Attribute.read? source).isSome = true
        ↔ (-2 ^ 63 ≤ Text.signedValue negative digits ∧ Text.signedValue negative digits < 2 ^ 63)
          ∧ ∀ bits, ty = .int bits → bits < 64 → -2 ^ (bits.toNat - 1)
            ≤ Text.signedValue negative digits
            ∧ Text.signedValue negative digits ≤ 2 ^ bits.toNat - 1)
      ∧ ∀ constant, Attribute.read? source = some constant → ∃ value :
      Int64, constant = .integer value ty
        ∧ (∀ bits, ty = .int bits → bits < 64 →
          Int.ModEq (2 ^ bits.toNat) value.toInt (Text.signedValue negative digits)
          ∧ -2 ^ (bits.toNat - 1) ≤ value.toInt ∧ value.toInt < 2 ^ (bits.toNat - 1))
        ∧ ((∀ bits, ty = .int bits → 64 ≤ bits) → value.toInt = Text.signedValue negative digits)
        ∧ Attribute.read? constant.text = some constant := by
  have hty : ty.Writable := h.writable (by decide)
  have hpositive : ∀ bits, ty = .int bits → 0 < bits := by
    rintro bits rfl
    exact hty.1
  have hread {constant : Attribute} : Attribute.read? source = some constant
      ↔ ∃ value : Int64, value.toInt = Text.signedValue negative digits
        ∧ (∀ bits, ty = .int bits → bits < 64 → -2 ^ (bits.toNat - 1) ≤ value.toInt
          ∧ value.toInt ≤ 2 ^ bits.toNat - 1)
        ∧ constant = .wrapped value ty := by
    simp only [h.read?_integer, Text.readInt64?_eq_some_iff _ hdigits, all_fitsWidth_iff hty]
  constructor
  · rw [Option.isSome_iff_exists]
    constructor
    · rintro ⟨constant, hconstant⟩
      obtain ⟨value, hvalue, hfits, -⟩ := hread.1 hconstant
      rw [← hvalue]
      exact ⟨⟨value.minValue_le_toInt, value.toInt_lt⟩, hfits⟩
    · rintro ⟨⟨hlow, hhigh⟩, hfits⟩
      obtain ⟨value, hvalue⟩ : ∃ value : Int64, value.toInt = Text.signedValue negative digits :=
        ⟨_, Int64.toInt_ofInt_of_le hlow hhigh⟩
      exact ⟨_, hread.2 ⟨value, hvalue, by rwa [hvalue], rfl⟩⟩
  · intro constant hconstant
    obtain ⟨value, hvalue, -, rfl⟩ := hread.1 hconstant
    refine ⟨ty.truncate value, rfl, ?_, ?_, Attribute.read?_text ⟨ty.truncate_truncate value, hty⟩⟩
    · rintro bits rfl hlt
      rw [← hvalue]
      exact Ty.truncate_spec (hpositive bits rfl) hlt value
    · intro hwide
      rw [← hvalue, Ty.truncate_of_wide hwide]

/-- A number that fits a byte without a sign only, spelled with a zero in front, as is its type. -/
theorem Literal.read?_integer_spec_byte :
    Literal .integer (.int 64) false "0200".toList (.int 8) "0200 : i08"
    ∧ ∃ value : Int64, Attribute.read? "0200 : i08" = some (.integer value (.int 8))
    ∧ Int.ModEq (2 ^ 8) value.toInt 200
      ∧ -2 ^ 7 ≤ value.toInt ∧ value.toInt < 2 ^ 7 := by
  have hliteral : Literal .integer (.int 64) false "0200".toList (.int 8) "0200 : i08" :=
    ⟨[], ⟨.integer, "0200", ⟨0, 0⟩⟩, ⟨.colon, ":", ⟨0, 5⟩⟩,
      [⟨.bare, "i08", ⟨0, 7⟩⟩, ⟨.eof, "", ⟨0, 10⟩⟩],
      { here := ⟨.eof, "", ⟨0, 10⟩⟩, later := [], context := {} }, by
        decide +kernel, rfl, rfl, rfl, by rfl, rfl⟩
  obtain ⟨haccepted, hstored⟩ := hliteral.read?_integer_spec
    ⟨by decide, List.all_eq_true.1 (by decide)⟩
  have hvalue : Text.signedValue false "0200".toList = 200 := by decide
  rw [hvalue] at haccepted hstored
  obtain ⟨constant, hconstant⟩ := Option.isSome_iff_exists.1
    (haccepted.2 ⟨by decide, fun bits hbits _ => by cases hbits; decide⟩)
  obtain ⟨value, rfl, hcongruent, -⟩ := hstored constant hconstant
  exact ⟨hliteral, value, hconstant, hcongruent 8 rfl (by decide)⟩

end DialectIR
