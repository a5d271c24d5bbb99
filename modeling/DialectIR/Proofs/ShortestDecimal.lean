import DialectIR.Binary64.Shortest
import DialectIR.Proofs.Numeral
import DialectIR.Proofs.Rounding

/-! The shortest decimal of a number is rounded to it, and it lies on the same side of the bounds
between which numbers are written out as the number itself. -/

namespace DialectIR

namespace Decimal

/-- The number that a decimal stands for. -/
def value (d : Decimal) : ℚ := d.digits * 10 ^ d.exponent

variable {d : Decimal} {m : ℕ} {q : ℤ}

/-- Both sides of the comparison are scaled by one factor. -/
theorem compareScaled_scale (d : Decimal) (m : ℕ) (q : ℤ) : ∃ scale : ℚ, 0 < scale
    ∧ (((d.digits * .pow 10 d.exponent.toNat) <<< (-q).toNat : ℕ) : ℚ) = d.value * scale
    ∧ (((m * .pow 10 (-d.exponent).toNat) <<< q.toNat : ℕ) : ℚ) = m * 2 ^ q * scale := by
  refine ⟨10 ^ (-d.exponent).toNat * 2 ^ (-q).toNat, by positivity, ?_, ?_⟩ <;>
    simp only [Nat.shiftLeft_eq, Nat.pow_eq, Nat.cast_mul, Nat.cast_pow, Nat.cast_ofNat]
  · rw [Binary64.pow_toNat (by norm_num) d.exponent, value]
    ring
  · rw [Binary64.pow_toNat two_ne_zero q]
    ring

theorem compareScaled_eq_lt : d.compareScaled m q = .lt ↔ d.value < m * 2 ^ q := by
  obtain ⟨scale, hpos, hleft, hright⟩ := compareScaled_scale d m q
  rw [← mul_lt_mul_iff_left₀ hpos, ← hleft, ← hright, Nat.cast_lt]
  exact Nat.compare_eq_lt

theorem compareScaled_eq_gt : d.compareScaled m q = .gt ↔ m * 2 ^ q < d.value := by
  obtain ⟨scale, hpos, hleft, hright⟩ := compareScaled_scale d m q
  rw [← mul_lt_mul_iff_left₀ hpos, ← hleft, ← hright, Nat.cast_lt]
  exact Nat.compare_eq_gt

theorem value_dropZeros (d : Decimal) (fuel : ℕ) : (d.dropZeros fuel).value = d.value := by
  induction fuel generalizing d with
  | zero => rfl
  | succ fuel ih =>
      rw [dropZeros]
      split
      next hzero =>
        simp only [Bool.and_eq_true, decide_eq_true_eq] at hzero
        have hdigits : d.digits = d.digits / 10 * 10 := by omega
        rw [ih, value, value, zpow_add_one₀ (by norm_num), hdigits,
          Nat.mul_div_cancel _ (by decide)]
        push_cast
        ring
      next => rfl

end Decimal

namespace Binary64

variable {x y : Binary64} {d : Decimal}

/-- The significand and the exponent of a number are its magnitude as a number of last places. -/
theorem exists_decode (x : Binary64) :
    ∃ e s : ℕ, x.magnitude = 2 ^ 52 * e + s ∧ s < 2 ^ 53 ∧ (2 ^ 52 ≤ s ∨ e = 0)
    ∧ x.decode = (s, (e : ℤ) - 1074) := by
  unfold decode
  simp only [Nat.shiftRight_eq_div_pow, Nat.one_shiftLeft]
  split
  next hzero => exact ⟨0, x.magnitude % 2 ^ 52, by omega, by omega, .inr rfl, rfl⟩
  next hpos =>
    refine ⟨x.magnitude / 2 ^ 52 - 1, 2 ^ 52 + x.magnitude % 2 ^ 52, by omega,
      by omega, by omega, ?_⟩
    congr 1
    omega

theorem numberAt_magnitude (x : Binary64) : numberAt x.magnitude = x.decode.1 * 2 ^ x.decode.2 := by
  obtain ⟨e, s, hmagnitude, hs, he, hdecode⟩ := exists_decode x
  rw [hmagnitude, numberAt_places hs.le he, hdecode]

/-- The point halfway to the number above, in quarters of the last place. -/
theorem halfway_quarters {e s : ℕ} (hs : s < 2 ^ 53) (he : 2 ^ 52 ≤ s ∨ e = 0) :
    halfway (2 ^ 52 * e + s) = (4 * s + 2 : ℕ) * 2 ^ ((e : ℤ) - 1074 - 2) := by
  rw [halfway_places hs he, zpow_sub₀ two_ne_zero _ 2]
  push_cast
  ring

/-- The point halfway to the number below; that of a power of two is only half as far away. -/
theorem halfway_pred_quarters {e s k : ℕ} (hs : s < 2 ^ 53) (he : 2 ^ 52 ≤ s ∨ e = 0)
    (hk : 2 ^ 52 * e + s = k + 1) :
    halfway k = (if s = 2 ^ 52 ∧ 0 < e then 4 * s - 1 else 4 * s - 2 : ℕ)
      * 2 ^ ((e : ℤ) - 1074 - 2) := by
  split
  next hnarrow =>
    obtain ⟨rfl, hpos⟩ := hnarrow
    obtain ⟨e, rfl⟩ := Nat.exists_eq_succ_of_ne_zero hpos.ne'
    obtain rfl : k = 2 ^ 52 * e + (2 ^ 53 - 1) := by omega
    rw [halfway_places (by norm_num) (by norm_num), Nat.cast_succ,
      show (e : ℤ) + 1 - 1074 - 2 = e - 1074 - 1 by omega, zpow_sub_one₀ two_ne_zero]
    norm_num
    ring
  next hwide =>
    obtain rfl : k = 2 ^ 52 * e + (s - 1) := by omega
    rw [halfway_quarters (by omega) (by omega)]
    congr 2
    omega

/-- Comparing digits tells whether a decimal is rounded to a number. -/
theorem readsBack_iff (hpos : 0 < x.magnitude) :
    x.readsBack d = true ↔ Rounds d.value x.magnitude := by
  obtain ⟨e, s, hmagnitude, hs, he, hdecode⟩ := exists_decode x
  obtain ⟨k, hk⟩ := Nat.exists_eq_succ_of_ne_zero hpos.ne'
  have hlow := halfway_pred_quarters hs he (hmagnitude.symm.trans hk)
  have hhigh := halfway_quarters hs he
  rw [← hmagnitude] at hhigh
  have heven : Even x.magnitude ↔ s % 2 = 0 := by
    rw [Nat.even_iff]
    omega
  have hrounds : Rounds d.value x.magnitude
    ↔ (halfway k ≤ d.value ∧ (halfway k = d.value → s % 2 = 0))
      ∧ (d.value ≤ halfway x.magnitude ∧ (d.value = halfway x.magnitude → s % 2 = 0)) := by
    rw [← heven]
    constructor
    · exact fun h => ⟨h.above k hk, h.below⟩
    · rintro ⟨habove, hbelow⟩
      refine ⟨fun k' hk' => ?_, hbelow⟩
      obtain rfl : k = k' := by omega
      exact habove
  have hnarrow : (decide (s = 1 <<< 52) && decide (-1074 < (e : ℤ) - 1074)) = true
    ↔ s = 2 ^ 52 ∧ 0 < e := by
    simp only [Bool.and_eq_true, decide_eq_true_eq, Nat.one_shiftLeft]
    omega
  rw [hrounds, hlow, hhigh]
  unfold readsBack
  simp only [hdecode, hnarrow]
  split
  next heven' =>
    simp only [heven', imp_true_iff, and_true, Bool.and_eq_true, decide_eq_true_eq, ne_eq,
      Decimal.compareScaled_eq_lt, Decimal.compareScaled_eq_gt, not_lt]
  next hodd =>
    simp only [hodd, imp_false, ← lt_iff_le_and_ne, Bool.and_eq_true, decide_eq_true_eq,
      Decimal.compareScaled_eq_lt, Decimal.compareScaled_eq_gt]

theorem readsBack_of_onGrid? {exponent : ℤ} (h : x.onGrid? exponent = some d) :
    x.readsBack d = true := by
  unfold onGrid? at h
  dsimp only at h
  split at h
  next hlower hupper =>
    split at h
    · cases h
      exact hlower
    · cases h
      exact hupper
  next hlower hupper =>
    cases h
    exact hlower
  next hlower hupper =>
    cases h
    exact hupper
  next => cases h

/-- The shortest decimal of a number is rounded to it. -/
theorem rounds_shortest (hpos : 0 < x.magnitude) : Rounds x.shortest.value x.magnitude := by
  unfold shortest
  dsimp only
  split
  next d hfind =>
    obtain ⟨_, -, hgrid⟩ := List.exists_of_findSome?_eq_some hfind
    rw [Decimal.value_dropZeros]
    exact (readsBack_iff hpos).1 (readsBack_of_onGrid? hgrid)
  next =>
    -- the exact value
    convert Rounds.numberAt x.magnitude
    rcases hdecode : x.decode with ⟨m, q⟩
    rw [numberAt_magnitude, hdecode]
    dsimp only
    split
    next hge =>
      obtain ⟨k, rfl⟩ := Int.eq_ofNat_of_zero_le hge
      rw [Int.toNat_natCast, Decimal.value, Nat.shiftLeft_eq, zpow_zero, mul_one, zpow_natCast]
      push_cast
      rfl
    next hlt =>
      obtain ⟨k, hk⟩ := Int.eq_ofNat_of_zero_le (show 0 ≤ -q by omega)
      obtain rfl : q = -k := by omega
      rw [hk, Int.toNat_natCast, Decimal.value, Nat.pow_eq, zpow_neg, zpow_neg,
        zpow_natCast, zpow_natCast, show (10 : ℚ) = 5 * 2 by norm_num, mul_pow]
      push_cast
      field_simp

theorem shortest_congr (h : x.magnitude = y.magnitude) : x.shortest = y.shortest := by
  unfold shortest onGrid? decimalScale readsBack decode
  rw [h]

/-- Where the shortest decimal of a number is at most that number, it bounds the other numbers as it
bounds their shortest decimals. -/
theorem shortest_le_iff (hy : 0 < y.magnitude) (hle : y.shortest.value ≤ numberAt y.magnitude)
    (hx : 0 < x.magnitude) :
    y.shortest.value ≤ x.shortest.value ↔ y.shortest.value ≤ numberAt x.magnitude := by
  constructor
  · intro h
    exact hle.trans
      (strictMono_numberAt.monotone ((rounds_shortest hy).mono (rounds_shortest hx) h))
  · intro h
    rcases ((rounds_shortest hy).mono (.numberAt _) h).eq_or_lt with heq | hlt
    · exact (congrArg Decimal.value (shortest_congr heq)).le
    · by_contra! hgt
      exact absurd ((rounds_shortest hx).mono (rounds_shortest hy) hgt.le) (not_le.2 hlt)

/-! ### Writing it -/

open Text

/-- How many digits of a decimal stand before the point. -/
def point (d : Decimal) : ℤ := (Nat.toDigits 10 d.digits).length + d.exponent

theorem le_point_iff (hd : d.digits ≠ 0) {k : ℤ} : k ≤ point d ↔ 10 ^ (k - 1) ≤ d.value := by
  obtain ⟨hlow, hhigh⟩ := pow_leading d.exponent hd
  constructor
  · intro h
    exact (zpow_le_zpow_right₀ (by norm_num) (by unfold point at h; omega)).trans hlow
  · intro h
    have hlt : (10 : ℚ) ^ (k - 1) < 10 ^ point d := h.trans_lt hhigh
    rw [zpow_lt_zpow_iff_right₀ (by norm_num)] at hlt
    omega

/-- In the middle of its range a decimal is written out: digits, a point and digits. -/
theorem layOut_of_le (hlow : -3 ≤ point d) (hhigh : point d ≤ 16) :
    ∃ whole fraction, IsNumeral whole ∧ IsNumeral fraction
    ∧ layOut d = String.ofList (whole ++ '.' :: fraction)
    ∧ (digitsValue (whole ++ fraction) * 10 ^ (-fraction.length : ℤ) : ℚ) = d.value := by
  obtain ⟨hne, hdigit⟩ := isNumeral_toDigits d.digits
  have hzeros (k : ℕ) : ∀ c ∈ List.replicate k '0', c.isDigit = true := by
    intro c hc
    rw [List.eq_of_mem_replicate hc]
    rfl
  have hpoint : (Nat.toDigits 10 d.digits).length + d.exponent = point d := rfl
  have hwithin : (decide (point d < -3) || decide (16 < point d)) = false := by simp [hlow, hhigh]
  unfold layOut
  simp only [hpoint, hwithin, Bool.false_eq_true, if_false]
  split
  next hsmall =>
    refine ⟨['0'], List.replicate (-point d).toNat '0' ++ Nat.toDigits 10 d.digits,
      ⟨by simp, by simp⟩, ⟨by simp [hne], ?_⟩, rfl, ?_⟩
    · intro c hc
      exact (List.mem_append.1 hc).elim (hzeros _ c) (hdigit c)
    · rw [← List.append_assoc, ← List.replicate_one, List.replicate_append_replicate,
        digitsValue_replicate_append,
        digitsValue_toDigits, Decimal.value, List.length_append, List.length_replicate]
      congr 2
      omega
  next hlarge =>
    split
    next hwhole =>
      refine ⟨Nat.toDigits 10 d.digits ++ List.replicate
        ((point d).toNat - (Nat.toDigits 10 d.digits).length) '0', ['0'],
        ⟨by simp [hne], ?_⟩, ⟨by simp, by simp⟩, rfl, ?_⟩
      · intro c hc
        exact (List.mem_append.1 hc).elim (hdigit c) (hzeros _ c)
      · obtain ⟨k, hk⟩ := Int.eq_ofNat_of_zero_le (show 0 ≤ d.exponent by omega)
        have hzeros' : (point d).toNat - (Nat.toDigits 10 d.digits).length = k := by omega
        rw [hzeros', List.append_assoc, ← List.replicate_one, List.replicate_append_replicate,
          digitsValue_append_replicate,
          digitsValue_toDigits, Decimal.value, hk, pow_succ, zpow_natCast, List.length_replicate]
        push_cast
        rw [zpow_neg_one]
        ring
    next hamong =>
      refine ⟨(Nat.toDigits 10 d.digits).take (point d).toNat,
        (Nat.toDigits 10 d.digits).drop (point d).toNat, ⟨?_, ?_⟩, ⟨?_, ?_⟩, rfl, ?_⟩
      · simp only [ne_eq, List.take_eq_nil_iff, hne, or_false]
        omega
      · exact fun c hc => hdigit c (List.mem_of_mem_take hc)
      · simp only [ne_eq, List.drop_eq_nil_iff]
        omega
      · exact fun c hc => hdigit c (List.mem_of_mem_drop hc)
      · rw [List.take_append_drop, digitsValue_toDigits, Decimal.value, List.length_drop]
        congr 2
        omega

/-- Numbers are written out from `10 ^ -4` to `10 ^ 16`. -/
theorem point_shortest_iff (hx : 0 < x.magnitude) : (-3 ≤ point x.shortest ∧ point x.shortest ≤ 16)
    ↔ 10 ^ (-4 : ℤ) ≤ numberAt x.magnitude ∧ numberAt x.magnitude < 10 ^ (16 : ℤ) := by
  have hdigits : x.shortest.digits ≠ 0 := by
    intro hzero
    have hpos := (rounds_shortest hx).pos hx
    rw [Decimal.value, hzero, Nat.cast_zero, zero_mul] at hpos
    exact absurd hpos (lt_irrefl 0)
  have hbound {y : Binary64} {k : ℤ} (hy : 0 < y.magnitude) (hshortest : y.shortest = ⟨1, k⟩)
      (hcompare : y.shortest.compareScaled y.decode.1 y.decode.2 ≠ .gt) :
      10 ^ k ≤ x.shortest.value ↔ 10 ^ k ≤ numberAt x.magnitude := by
    rw [ne_eq, Decimal.compareScaled_eq_gt, not_lt, ← numberAt_magnitude] at hcompare
    have hvalue : y.shortest.value = 10 ^ k := by simp [hshortest, Decimal.value]
    rw [← hvalue]
    exact shortest_le_iff hy hcompare hx
  have hlow := hbound (y := ⟨0x3F1A36E2EB1C432D⟩) (k := -4) (by decide) (by decide +kernel)
    (by decide +kernel)
  have hhigh := hbound (y := ⟨0x4341C37937E08000⟩) (k := 16) (by decide) (by decide +kernel)
    (by decide +kernel)
  have hnotAbove : point x.shortest ≤ 16 ↔ ¬ 17 ≤ point x.shortest := by omega
  rw [hnotAbove, le_point_iff hdigits, le_point_iff hdigits, ← not_le, ← hlow, ← hhigh]
  norm_num

/-- Beyond, the digits are followed by an exponent. -/
theorem layOut_of_lt (h : point d < -3 ∨ 16 < point d) : ∃ c numeral exponent, c.isDigit = true
    ∧ (numeral = [] ∨ ∃ fraction, IsNumeral fraction ∧ numeral = '.' :: fraction)
    ∧ layOut d = String.ofList (c :: numeral ++ 'e' :: exponent) := by
  obtain ⟨c, tail, hdigits, hc, htail⟩ := exists_toDigits_eq_cons d.digits
  refine ⟨c, if tail.isEmpty then [] else '.' :: tail, (toString (point d - 1)).toList, hc, ?_, ?_⟩
  · split
    next => exact .inl rfl
    next hne => exact .inr ⟨tail, ⟨fun hnil => hne (List.isEmpty_iff.2 hnil), htail⟩, rfl⟩
  · unfold layOut
    have hpoint : (Nat.toDigits 10 d.digits).length + d.exponent = point d := rfl
    have hbeyond : (decide (point d < -3) || decide (16 < point d)) = true := by simpa using h
    simp only [hpoint, hbeyond, if_true]
    rw [← String.toList_inj, hdigits]
    simp

end Binary64

end DialectIR
