import DialectIR.Proofs.IntegerLiterals

/-! Truncation to the width of a type is reduction in two's complement, and it respects arithmetic:
of a result only the last bits of the operands matter. A shift to the left that drops the higher
bits and a shift back that copies the sign do the same. -/

namespace DialectIR

namespace Ty

variable {ty : Ty} {bits : UInt32} {a b value : Int64}

/-- Only the types of integers that say how many bits they have are of fewer than 64. -/
theorem eq_int_of_width (hwidth : ty.width? = some bits) (hlt : bits < 64) : ty = .int bits := by
  cases ty with
  | int bits' => rw [Option.some.inj hwidth]
  | index =>
      obtain rfl : (64 : UInt32) = bits := Option.some.inj hwidth
      exact absurd hlt (by decide)
  | _ => cases hwidth

theorem truncate_modEq (hwidth : ty.width? = some bits) (hpos : 0 < bits) (hlt : bits < 64)
    (value : Int64) :
    (ty.truncate value).toInt ≡ value.toInt [ZMOD 2 ^ bits.toNat] := by
  cases eq_int_of_width hwidth hlt
  exact (truncate_spec hpos hlt value).1

/-- Two numbers in the signed range of a width that are congruent are the same. -/
theorem eq_of_modEq_of_range {width : Nat} (hpos : 0 < width) {m n : Int}
    (h : m ≡ n [ZMOD 2 ^ width]) (hm : -2 ^ (width - 1) ≤ m ∧ m < 2 ^ (width - 1))
    (hn : -2 ^ (width - 1) ≤ n ∧ n < 2 ^ (width - 1)) : m = n := by
  have hhalf : (2 : Int) ^ width = 2 * 2 ^ (width - 1) := by
    rw [← pow_succ', Nat.sub_add_cancel hpos]
  have hdvd : (2 : Int) ^ width ∣ n - m := Int.modEq_iff_dvd.1 h
  have hsmall : |n - m| < 2 ^ width := by
    rw [abs_lt]
    omega
  have hzero : n - m = 0 := Int.eq_zero_of_abs_lt_dvd hdvd hsmall
  omega

/-- **Truncation is reduction in two's complement**: no other number in the signed range is
congruent to the value. -/
theorem eq_toInt_truncate_iff (hwidth : ty.width? = some bits) (hpos : 0 < bits) (hlt : bits < 64)
    {n : Int} :
    n = (ty.truncate value).toInt
      ↔ (-2 ^ (bits.toNat - 1) ≤ n ∧ n < 2 ^ (bits.toNat - 1))
        ∧ n ≡ value.toInt [ZMOD 2 ^ bits.toNat] := by
  cases eq_int_of_width hwidth hlt
  obtain ⟨hmod, hrange⟩ := truncate_spec hpos hlt value
  constructor
  · rintro rfl
    exact ⟨hrange, hmod⟩
  · rintro ⟨hn, hcongruent⟩
    exact eq_of_modEq_of_range hpos (hcongruent.trans hmod.symm) hn hrange

/-- Values that agree in their last bits are truncated alike. -/
theorem truncate_eq_of_modEq (hwidth : ty.width? = some bits) (hpos : 0 < bits) (hlt : bits < 64)
    (h : a.toInt ≡ b.toInt [ZMOD 2 ^ bits.toNat]) : ty.truncate a = ty.truncate b := by
  apply Int64.toInt_inj.1
  obtain ⟨hrange, hmod⟩ := (eq_toInt_truncate_iff hwidth hpos hlt).1 (Eq.refl (ty.truncate a).toInt)
  exact (eq_toInt_truncate_iff hwidth hpos hlt).2 ⟨hrange, hmod.trans h⟩

theorem toNat_smod_ofNat : ∀ amount < 64, ((Int64.ofNat amount).toBitVec.smod 64).toNat = amount :=
  by decide

theorem toInt_shiftLeft {amount : Nat} (h : amount < 64) (value : Int64) :
    (value <<< Int64.ofNat amount).toInt = (value.toInt * 2 ^ amount).bmod (2 ^ 64) := by
  rw [Int64.toInt, Int64.toBitVec_shiftLeft, BitVec.shiftLeft_eq', toNat_smod_ofNat amount h,
    BitVec.toInt_shiftLeft,
    Int64.toInt, BitVec.toInt_eq_toNat_bmod value.toBitVec, Int.bmod_mul_bmod, Nat.shiftLeft_eq]
  push_cast
  rfl

theorem toInt_shiftRight {amount : Nat} (h : amount < 64) (value : Int64) :
    (value >>> Int64.ofNat amount).toInt = value.toInt / 2 ^ amount := by
  rw [Int64.toInt, Int64.toBitVec_shiftRight, BitVec.sshiftRight_eq', toNat_smod_ofNat amount h,
    BitVec.toInt_sshiftRight, Int.shiftRight_eq_div_pow, Int64.toInt]
  push_cast
  rfl

/-- Reduction goes on below zeros behind the last bit. -/
theorem bmod_mul_two_pow (n : Int) {width : Nat} (hpos : 0 < width) (amount : Nat) :
    (n * 2 ^ amount).bmod (2 ^ (width + amount)) = n.bmod (2 ^ width) * 2 ^ amount := by
  obtain ⟨half, rfl⟩ : ∃ half, width = half + 1 := ⟨width - 1, by omega⟩
  have hdouble (exponent : Nat) : ((2 ^ (exponent + 1) : Nat) : Int) = 2 * 2 ^ exponent := by
    rw [pow_succ']
    push_cast
    rfl
  obtain ⟨hlow, hhigh, hdvd⟩ := (Int.bmod_eq_iff (a := n) (Nat.two_pow_pos (half + 1))).1 rfl
  rw [hdouble] at hlow hhigh
  have hscale : (0 : Int) < 2 ^ amount := by positivity
  have hproduct : (2 : Int) ^ (half + amount) = 2 ^ half * 2 ^ amount := pow_add 2 half amount
  have hlow' : -2 ^ half * 2 ^ amount ≤ n.bmod (2 ^ (half + 1)) * 2 ^ amount :=
    mul_le_mul_of_nonneg_right (by omega) hscale.le
  have hhigh' : n.bmod (2 ^ (half + 1)) * 2 ^ amount < 2 ^ half * 2 ^ amount :=
    mul_lt_mul_of_pos_right (by omega) hscale
  refine (Int.bmod_eq_iff (Nat.two_pow_pos _)).2 ⟨?_, ?_, ?_⟩
  · rw [Nat.add_right_comm, hdouble, hproduct]
    rw [neg_mul] at hlow'
    omega
  · rw [Nat.add_right_comm, hdouble, hproduct]
    omega
  · rw [← Int.sub_mul]
    have hscaled := Int.mul_dvd_mul_right (2 ^ amount) hdvd
    push_cast at hscaled ⊢
    rwa [pow_add]

/-- **Truncation is a shift to the left and back.** The higher bits are dropped, and the first one
left is copied. -/
theorem truncate_eq_shifts (hwidth : ty.width? = some bits) (hpos : 0 < bits) (hlt : bits < 64)
    (value : Int64) :
    ty.truncate value = (value <<< Int64.ofNat (64 - bits.toNat)) >>> Int64.ofNat
      (64 - bits.toNat) := by
  have hpos' : 0 < bits.toNat := hpos
  have hlt' : bits.toNat < 64 := hlt
  have hamount : 64 - bits.toNat < 64 := by omega
  have hsum : bits.toNat + (64 - bits.toNat) = 64 := by omega
  have hscaled := bmod_mul_two_pow value.toInt hpos' (64 - bits.toNat)
  rw [hsum] at hscaled
  apply Int64.toInt_inj.1
  rw [toInt_shiftRight hamount, toInt_shiftLeft hamount, hscaled,
    Int.mul_ediv_cancel _ (by positivity), toInt_truncate hwidth hpos hlt]

/-- Operations that may be carried out on the last bits give results that are truncated alike. -/
theorem truncate_op (ty : Ty) {op : Int64 → Int64 → Int64} {exact : Int → Int → Int}
    (hop : ∀ a b, (op a b).toInt = (exact a.toInt b.toInt).bmod (2 ^ 64))
    (hexact : ∀ {m x x' y y' : Int}, x ≡ x' [ZMOD m] → y ≡ y' [ZMOD m] →
      exact x y ≡ exact x' y' [ZMOD m])
    (a b : Int64) :
    ty.truncate (op a b) = ty.truncate (op (ty.truncate a) (ty.truncate b)) := by
  by_cases h : ∃ bits, ty.width? = some bits ∧ 0 < bits ∧ bits < 64
  · obtain ⟨bits, hwidth, hpos, hlt⟩ := h
    have hdvd : (2 : Int) ^ bits.toNat ∣ 2 ^ 64 := pow_dvd_pow 2 (Nat.le_of_lt hlt)
    have hlast (x y : Int64) : (op x y).toInt ≡ exact x.toInt y.toInt [ZMOD 2 ^ bits.toNat] := by
      rw [hop]
      exact Int.ModEq.of_dvd hdvd Int.bmod_emod
    refine truncate_eq_of_modEq hwidth hpos hlt ?_
    calc (op a b).toInt
        ≡ exact a.toInt b.toInt [ZMOD 2 ^ bits.toNat] := hlast a b
      _ ≡ exact (ty.truncate a).toInt (ty.truncate b).toInt [ZMOD 2 ^ bits.toNat] :=
          hexact (truncate_modEq hwidth hpos hlt a).symm (truncate_modEq hwidth hpos hlt b).symm
      _ ≡ (op (ty.truncate a) (ty.truncate b)).toInt [ZMOD 2 ^ bits.toNat] := (hlast _ _).symm
  · have hself (value : Int64) : ty.truncate value = value :=
      truncate_eq_self (fun bits hwidth hbits => h ⟨bits, hwidth, hbits⟩) value
    rw [hself a, hself b]

/-- **Truncation is reduction in two's complement and respects arithmetic.** For types of 1 to 63
bits it gives the only number in the signed range that is congruent to the value, by two shifts; all
other types leave values alone. To truncate once more changes nothing, and sums, differences and
products with wraparound may be formed of truncated values. -/
theorem truncate_reduces (ty : Ty) :
    (∀ bits, ty.width? = some bits → 0 < bits → bits < 64 → ∀ value : Int64,
        (∀ n : Int, n = (ty.truncate value).toInt
          ↔ (-2 ^ (bits.toNat - 1) ≤ n ∧ n < 2 ^ (bits.toNat - 1))
            ∧ n ≡ value.toInt [ZMOD 2 ^ bits.toNat])
        ∧ ty.truncate value = (value <<< Int64.ofNat (64 - bits.toNat)) >>> Int64.ofNat
          (64 - bits.toNat))
      ∧ ((∀ bits, ty.width? = some bits → bits = 0 ∨ 64 ≤ bits) →
        ∀ value, ty.truncate value = value)
      ∧ (∀ value, ty.truncate (ty.truncate value) = ty.truncate value)
      ∧ ∀ a b, ty.truncate (a + b) = ty.truncate (ty.truncate a + ty.truncate b)
        ∧ ty.truncate (a - b) = ty.truncate (ty.truncate a - ty.truncate b)
        ∧ ty.truncate (a * b) = ty.truncate (ty.truncate a * ty.truncate b) := by
  refine ⟨fun bits hwidth hpos hlt value => ?_, fun hwide value => ?_, ty.truncate_truncate,
    fun a b => ⟨?_, ?_, ?_⟩⟩
  · exact ⟨fun n => eq_toInt_truncate_iff hwidth hpos hlt, truncate_eq_shifts hwidth hpos hlt value⟩
  · refine truncate_eq_self (fun bits hwidth hbits => ?_) value
    rcases hwide bits hwidth with rfl | hle
    · exact absurd hbits.1 (by decide)
    · exact absurd hbits.2 (UInt32.not_lt.2 hle)
  · exact ty.truncate_op Int64.toInt_add Int.ModEq.add a b
  · exact ty.truncate_op Int64.toInt_sub Int.ModEq.sub a b
  · exact ty.truncate_op Int64.toInt_mul Int.ModEq.mul a b

/-- A byte without a sign becomes one with a sign, also below a product; a type of no bits leaves
the value alone. -/
theorem truncate_reduces_byte : ((Ty.int 8).truncate 255).toInt = -1
    ∧ (∀ n : Int, n = ((Ty.int 8).truncate 255).toInt ↔ (-2 ^ 7 ≤ n ∧ n < 2 ^ 7)
      ∧ n ≡ 255 [ZMOD 2 ^ 8])
    ∧ (Ty.int 8).truncate 255 = ((255 : Int64) <<< (56 : Int64)) >>> (56 : Int64)
    ∧ (Ty.int 8).truncate (255 * 255) = (Ty.int 8).truncate
      ((Ty.int 8).truncate 255 * (Ty.int 8).truncate 255)
    ∧ (Ty.int 0).truncate 255 = 255 := by
  obtain ⟨hnarrow, -, -, harithmetic⟩ := truncate_reduces (.int 8)
  obtain ⟨honly, hshifts⟩ := hnarrow 8 rfl (by decide) (by decide) 255
  obtain ⟨-, hwide, -, -⟩ := truncate_reduces (.int 0)
  refine ⟨by decide, honly, hshifts, (harithmetic 255 255).2.2, hwide ?_ 255⟩
  rintro bits ⟨⟩
  exact .inl rfl

end Ty

end DialectIR
