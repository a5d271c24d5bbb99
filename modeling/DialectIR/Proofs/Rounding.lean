import DialectIR.Binary64
import Mathlib.Algebra.Order.Field.Power
import Mathlib.Algebra.Order.Ring.Rat
import Mathlib.Tactic.FieldSimp
import Mathlib.Tactic.Linarith
import Mathlib.Tactic.NormNum
import Mathlib.Tactic.Ring

/-! Rounding to binary64 in exact arithmetic. The magnitudes number the numbers from zero on in
their order; between two neighbours lies the point halfway, and the magnitude that a positive number
is rounded to is the only one whose halfway points enclose it. -/

namespace DialectIR.Binary64

/-- How many times the last place has doubled up to a magnitude. -/
def doublings (n : ℕ) : ℕ := n / 2 ^ 52 - 1

/-- The number of a magnitude. Beyond the largest finite one they go on as if there were no
infinity. -/
def numberAt (n : ℕ) : ℚ := (n - 2 ^ 52 * doublings n : ℕ) * 2 ^ ((doublings n : ℤ) - 1074)

/-- The number in the middle between a magnitude and the next. -/
def halfway (n : ℕ) : ℚ := (numberAt n + numberAt (n + 1)) / 2

/-- A magnitude as a number of last places: 53 bits of them, where the last place has been
doubled. -/
theorem exists_places (n : ℕ) :
    ∃ e s, n = 2 ^ 52 * e + s ∧ s < 2 ^ 53 ∧ (2 ^ 52 ≤ s ∨ e = 0) := by
  refine ⟨doublings n, n - 2 ^ 52 * doublings n, ?_, ?_, ?_⟩ <;> unfold doublings <;> omega

theorem numberAt_places {e s : ℕ} (hs : s ≤ 2 ^ 53) (he : 2 ^ 52 ≤ s ∨ e = 0) :
    numberAt (2 ^ 52 * e + s) = s * 2 ^ ((e : ℤ) - 1074) := by
  unfold numberAt
  rcases hs.eq_or_lt with rfl | hlt
  · -- the last place doubles once more
    have hd : doublings (2 ^ 52 * e + 2 ^ 53) = e + 1 := by unfold doublings; omega
    rw [hd, show 2 ^ 52 * e + 2 ^ 53 - 2 ^ 52 * (e + 1) = 2 ^ 52 by omega, Nat.cast_succ,
      add_sub_right_comm, zpow_add₀ two_ne_zero]
    push_cast
    ring
  · have hd : doublings (2 ^ 52 * e + s) = e := by unfold doublings; omega
    rw [hd, Nat.add_sub_cancel_left]

theorem halfway_places {e s : ℕ} (hs : s < 2 ^ 53) (he : 2 ^ 52 ≤ s ∨ e = 0) :
    halfway (2 ^ 52 * e + s) = (s + 1 / 2) * 2 ^ ((e : ℤ) - 1074) := by
  rw [halfway, Nat.add_assoc, numberAt_places hs.le he, numberAt_places hs (by omega)]
  push_cast
  ring

theorem strictMono_numberAt : StrictMono numberAt := by
  refine strictMono_nat_of_lt_succ fun n => ?_
  obtain ⟨e, s, rfl, hs, he⟩ := exists_places n
  rw [Nat.add_assoc, numberAt_places hs.le he, numberAt_places hs (by omega)]
  push_cast
  have hpos : (0 : ℚ) < 2 ^ ((e : ℤ) - 1074) := zpow_pos two_pos _
  linarith

theorem strictMono_halfway : StrictMono halfway := by
  refine strictMono_nat_of_lt_succ fun n => ?_
  have hlow := strictMono_numberAt n.lt_succ_self
  have hhigh := strictMono_numberAt (n + 1).lt_succ_self
  simp only [Nat.succ_eq_add_one] at hlow hhigh
  unfold halfway
  linarith

theorem numberAt_lt_halfway (n : ℕ) : numberAt n < halfway n := by
  have hlt := strictMono_numberAt n.lt_succ_self
  simp only [Nat.succ_eq_add_one] at hlt
  unfold halfway
  linarith

theorem halfway_lt_numberAt (n : ℕ) : halfway n < numberAt (n + 1) := by
  have hlt := strictMono_numberAt n.lt_succ_self
  simp only [Nat.succ_eq_add_one] at hlt
  unfold halfway
  linarith

/-- A positive number is rounded to a magnitude: it lies between the points halfway to the
neighbours, which themselves belong to the even magnitude. -/
structure Rounds (r : ℚ) (n : ℕ) : Prop where
  above : ∀ k, n = k + 1 → halfway k ≤ r ∧ (halfway k = r → Even n)
  below : r ≤ halfway n ∧ (r = halfway n → Even n)

namespace Rounds

variable {r r' : ℚ} {n n' : ℕ}

/-- Rounding keeps the order. -/
theorem mono (h : Rounds r n) (h' : Rounds r' n') (hle : r ≤ r') : n ≤ n' := by
  by_contra! hlt
  obtain ⟨k, rfl⟩ := Nat.exists_eq_succ_of_ne_zero (Nat.ne_zero_of_lt hlt)
  obtain ⟨habove, heven⟩ := h.above k rfl
  obtain ⟨hbelow, heven'⟩ := h'.below
  have hmono : halfway n' ≤ halfway k := strictMono_halfway.monotone (Nat.le_of_lt_succ hlt)
  -- both are the point halfway between the two magnitudes, and only one of these is even
  have hhalfway : halfway n' = halfway k := le_antisymm hmono (habove.trans (hle.trans hbelow))
  obtain rfl : n' = k := strictMono_halfway.injective hhalfway
  have hn := heven (le_antisymm habove (hle.trans hbelow))
  have hn' := heven' (le_antisymm hbelow (habove.trans hle))
  exact Nat.even_add_one.1 hn hn'

theorem unique (h : Rounds r n) (h' : Rounds r n') : n = n' :=
  le_antisymm (h.mono h' le_rfl) (h'.mono h le_rfl)

/-- The number of a magnitude is rounded to it. -/
theorem numberAt (n : ℕ) : Rounds (numberAt n) n where
  above := by
    rintro k rfl
    have hlt := halfway_lt_numberAt k
    exact ⟨hlt.le, fun heq => absurd heq hlt.ne⟩
  below := ⟨(numberAt_lt_halfway n).le, fun heq => absurd heq (numberAt_lt_halfway n).ne⟩

/-- What is not rounded to zero is at least half the smallest number. -/
theorem two_zpow_le (h : Rounds r n) (hpos : 0 < n) : (2 : ℚ) ^ (-1075 : ℤ) ≤ r := by
  obtain ⟨k, rfl⟩ := Nat.exists_eq_succ_of_ne_zero hpos.ne'
  have hzero : halfway 0 = 2 ^ (-1075 : ℤ) := by
    have hplaces := halfway_places (e := 0) (s := 0) (by norm_num) (.inr rfl)
    rw [Nat.mul_zero, Nat.add_zero] at hplaces
    rw [hplaces, show (-1075 : ℤ) = -1 + ((0 : ℕ) - 1074) by norm_num, zpow_add₀ two_ne_zero,
      zpow_neg_one, Nat.cast_zero, zero_add, one_div]
  rw [← hzero]
  exact (strictMono_halfway.monotone (Nat.zero_le k)).trans (h.above k rfl).1

theorem pos (h : Rounds r n) (hpos : 0 < n) : 0 < r :=
  (zpow_pos two_pos _).trans_le (h.two_zpow_le hpos)

/-- A number is rounded to the nearest number of last places, a half to the even one. -/
theorem of_places {e s : ℕ} {t : ℚ} (hs : s ≤ 2 ^ 53) (he : 2 ^ 52 ≤ t ∨ e = 0) (ht : t < 2 ^ 53)
    (hlow : s - 1 / 2 ≤ t) (hhigh : t ≤ s + 1 / 2) (hlowEven : s - 1 / 2 = t → Even s)
    (hhighEven : t = s + 1 / 2 → Even s) :
    Rounds (t * 2 ^ ((e : ℤ) - 1074)) (2 ^ 52 * e + s) := by
  have hpos : (0 : ℚ) < 2 ^ ((e : ℤ) - 1074) := zpow_pos two_pos _
  have heven : Even s → Even (2 ^ 52 * e + s) := fun hs =>
    (Nat.even_mul.2 (.inl (by decide))).add hs
  have hplaces : 2 ^ 52 ≤ s ∨ e = 0 := by
    refine he.imp_left fun ht => ?_
    have hlt : (2 ^ 52 : ℚ) < (s + 1 : ℕ) := by push_cast; linarith
    exact Nat.le_of_lt_succ (by exact_mod_cast hlt)
  constructor
  · intro k hk
    rcases Nat.eq_or_lt_of_le (Nat.zero_le s) with rfl | hspos
    · omega
    · by_cases hfirst : 2 ^ 52 ≤ s - 1 ∨ e = 0
      · obtain rfl : k = 2 ^ 52 * e + (s - 1) := by omega
        rw [halfway_places (by omega) hfirst, mul_le_mul_iff_left₀ hpos, mul_left_inj' hpos.ne',
          Nat.cast_pred hspos]
        refine ⟨by linarith, fun heq => heven (hlowEven (by linarith))⟩
      · -- at a power of two the place below is only half as long
        obtain rfl : s = 2 ^ 52 := by omega
        have hnumber : Binary64.numberAt (k + 1) = 2 ^ 52 * 2 ^ ((e : ℤ) - 1074) := by
          rw [← hk, numberAt_places hs hplaces]
          push_cast
          ring
        have hlt : halfway k < t * 2 ^ ((e : ℤ) - 1074) := by
          refine (hnumber ▸ halfway_lt_numberAt k).trans_le ?_
          rw [mul_le_mul_iff_left₀ hpos]
          exact he.resolve_right fun h => hfirst (.inr h)
        exact ⟨hlt.le, fun heq => absurd heq hlt.ne⟩
  · rcases hs.eq_or_lt with rfl | hlt
    · -- the number is smaller than the power of two that it is rounded to
      have hlt : t * 2 ^ ((e : ℤ) - 1074) < halfway (2 ^ 52 * e + 2 ^ 53) := by
        refine lt_trans ?_ (numberAt_lt_halfway _)
        rw [numberAt_places hs hplaces, mul_lt_mul_iff_left₀ hpos]
        exact_mod_cast ht
      exact ⟨hlt.le, fun heq => absurd heq hlt.ne⟩
    · rw [halfway_places hlt hplaces, mul_le_mul_iff_left₀ hpos, mul_left_inj' hpos.ne']
      exact ⟨hhigh, fun heq => heven (hhighEven heq)⟩

end Rounds

/-! ### Rounding quotients -/

variable {num den : ℕ}

/-- Of a power and its inverse, one is a power of natural numbers. -/
theorem pow_toNat {base : ℚ} (hbase : base ≠ 0) (z : ℤ) :
    base ^ z.toNat = base ^ z * base ^ (-z).toNat := by
  obtain ⟨k, rfl | rfl⟩ := z.eq_nat_or_neg
  · simp
  · simp [hbase]

theorem cast_shiftLeft_div (z : ℤ) :
    ((num <<< (-z).toNat : ℕ) / (den <<< z.toNat : ℕ) : ℚ) = num / den / 2 ^ z := by
  have hpos : (2 : ℚ) ^ (-z).toNat ≠ 0 := pow_ne_zero _ two_ne_zero
  rw [Nat.shiftLeft_eq, Nat.shiftLeft_eq]
  push_cast
  rw [pow_toNat two_ne_zero z, ← mul_assoc, mul_div_mul_right _ _ hpos, div_div]

theorem divHalfEven_spec (num : ℕ) (hden : 0 < den) : (divHalfEven num den : ℚ) - 1 / 2 ≤ num / den
    ∧ (num / den : ℚ) ≤ divHalfEven num den + 1 / 2
    ∧ ((divHalfEven num den : ℚ) - 1 / 2 = num / den → Even (divHalfEven num den))
    ∧ ((num / den : ℚ) = divHalfEven num den + 1 / 2 → Even (divHalfEven num den)) := by
  have hden' : (0 : ℚ) < den := Nat.cast_pos.2 hden
  have hquotient : (num / den : ℚ) = (num / den : ℕ) + (num % den : ℕ) / den := by
    rw [← mul_div_cancel_right₀ ((num / den : ℕ) : ℚ) hden'.ne', ← add_div]
    congr 1
    exact_mod_cast (Nat.div_add_mod' num den).symm
  have hrest : (0 : ℚ) ≤ (num % den : ℕ) / den := div_nonneg (Nat.cast_nonneg _) hden'.le
  have hrest' : ((num % den : ℕ) / den : ℚ) < 1 := by
    rw [div_lt_iff₀ hden', one_mul]
    exact_mod_cast Nat.mod_lt _ hden
  have htie : ((num % den : ℕ) / den : ℚ) = 1 / 2 ↔ 2 * (num % den) = den := by
    rw [div_eq_div_iff hden'.ne' two_ne_zero, one_mul, mul_comm]
    exact_mod_cast Iff.rfl
  unfold divHalfEven
  simp only [Bool.or_eq_true, Bool.and_eq_true, decide_eq_true_eq]
  split
  next hup =>
    have hhalf : (1 / 2 : ℚ) ≤ (num % den : ℕ) / den := by
      rw [div_le_div_iff₀ two_pos hden', one_mul]
      exact_mod_cast (show den ≤ num % den * 2 by omega)
    push_cast
    rw [hquotient]
    refine ⟨by linarith, by linarith, fun heq => ?_, fun heq => by linarith⟩
    have hodd : num / den % 2 = 1 := by
      have := htie.1 (by linarith)
      omega
    exact Nat.even_add_one.2 (Nat.not_even_iff.2 hodd)
  next hdown =>
    have hhalf : ((num % den : ℕ) / den : ℚ) ≤ 1 / 2 := by
      rw [div_le_div_iff₀ hden' two_pos, one_mul]
      exact_mod_cast (show num % den * 2 ≤ den by omega)
    rw [hquotient]
    refine ⟨by linarith, by linarith, fun heq => by linarith, fun heq => ?_⟩
    have heven : num / den % 2 = 0 := by
      have := htie.1 (by linarith)
      omega
    exact Nat.even_iff.2 heven

/-- The sizes of numerator and denominator give that of the quotient, but for one bit. -/
theorem quotient_log2 (hnum : 0 < num) (hden : 0 < den) {guess : ℤ}
    (hguess : guess = num.log2 - den.log2 - 53) :
    (2 ^ 52 : ℚ) ≤ num / den / 2 ^ guess ∧ (num / den / 2 ^ guess : ℚ) < 2 ^ 54 := by
  have hden' : (0 : ℚ) < den := Nat.cast_pos.2 hden
  have hpos : (0 : ℚ) < 2 ^ guess := zpow_pos two_pos _
  rw [le_div_iff₀ hpos, le_div_iff₀ hden', div_lt_iff₀ hpos, div_lt_iff₀ hden']
  constructor
  · have hnumLow : (2 ^ num.log2 : ℚ) ≤ num := by exact_mod_cast Nat.log2_self_le hnum.ne'
    have hdenHigh : (den : ℚ) ≤ 2 ^ (den.log2 + 1) := by exact_mod_cast Nat.lt_log2_self.le
    calc (2 ^ 52 * 2 ^ guess * den : ℚ) ≤ 2 ^ 52 * 2 ^ guess * 2 ^ (den.log2 + 1) := by gcongr
      _ = 2 ^ num.log2 := by
          simp only [← zpow_natCast, ← zpow_add₀ (two_ne_zero (α := ℚ))]
          congr 1
          push_cast
          omega
      _ ≤ num := hnumLow
  · have hnumHigh : (num : ℚ) < 2 ^ (num.log2 + 1) := by exact_mod_cast Nat.lt_log2_self
    have hdenLow : (2 ^ den.log2 : ℚ) ≤ den := by exact_mod_cast Nat.log2_self_le hden.ne'
    calc (num : ℚ) < 2 ^ (num.log2 + 1) := hnumHigh
      _ = 2 ^ 54 * 2 ^ guess * 2 ^ den.log2 := by
          simp only [← zpow_natCast, ← zpow_add₀ (two_ne_zero (α := ℚ))]
          congr 1
          push_cast
          omega
      _ ≤ 2 ^ 54 * 2 ^ guess * den := by gcongr

/-- The last place of a quotient leaves 53 bits of it, unless the format has no smaller place. -/
theorem lastPlace_spec (hnum : 0 < num) (hden : 0 < den) : -1074 ≤ lastPlace num den
    ∧ (num / den : ℚ) / 2 ^ lastPlace num den < 2 ^ 53
    ∧ (2 ^ 52 ≤ (num / den : ℚ) / 2 ^ lastPlace num den ∨ lastPlace num den = -1074) := by
  have hden' : (0 : ℚ) < den := Nat.cast_pos.2 hden
  obtain ⟨guess, hguess⟩ : ∃ guess : ℤ, guess = num.log2 - den.log2 - 53 := ⟨_, rfl⟩
  -- the guess is right or one too small
  obtain ⟨hlow, hhigh⟩ := quotient_log2 hnum hden hguess
  have htooSmall : den <<< (53 + guess.toNat) ≤ num <<< (-guess).toNat
    ↔ (2 ^ 53 : ℚ) ≤ num / den / 2 ^ guess := by
    have hdenShift : (0 : ℚ) < (den <<< guess.toNat : ℕ) := by
      rw [Nat.shiftLeft_eq]
      exact_mod_cast Nat.mul_pos hden (Nat.two_pow_pos _)
    rw [← cast_shiftLeft_div, le_div_iff₀ hdenShift, Nat.add_comm, Nat.shiftLeft_add,
      Nat.shiftLeft_eq _ 53, Nat.mul_comm]
    exact_mod_cast Iff.rfl
  obtain ⟨place, hplace, hplaceLow, hplaceHigh⟩ : ∃ place : ℤ, lastPlace num den = max place (-1074)
      ∧ (2 ^ 52 : ℚ) ≤ num / den / 2 ^ place ∧ (num / den / 2 ^ place : ℚ) < 2 ^ 53 := by
    unfold lastPlace
    simp only [← hguess, htooSmall]
    split
    next hsmall =>
      refine ⟨guess + 1, rfl, ?_, ?_⟩ <;> rw [zpow_add_one₀ two_ne_zero, ← div_div]
      · rw [le_div_iff₀ two_pos]
        linarith
      · rw [div_lt_iff₀ two_pos]
        linarith
    next hsmall => exact ⟨guess, rfl, hlow, not_le.1 hsmall⟩
  rw [hplace]
  rcases le_total (-1074) place with hle | hle
  · rw [max_eq_left hle]
    exact ⟨hle, hplaceHigh, .inl hplaceLow⟩
  · rw [max_eq_right hle]
    refine ⟨le_rfl, lt_of_le_of_lt ?_ hplaceHigh, .inr rfl⟩
    exact div_le_div_of_nonneg_left (div_nonneg num.cast_nonneg hden'.le) (zpow_pos two_pos _)
      (zpow_le_zpow_right₀ one_le_two hle)

/-- What is rounded is the quotient, but for numbers beyond the largest finite one. -/
theorem exists_rounds_nearestMagnitude (hnum : 0 < num) (hden : 0 < den) :
    ∃ n, Rounds (num / den) n ∧ nearestMagnitude num den = min n infinity.magnitude := by
  obtain ⟨hge, hlt, hfull⟩ := lastPlace_spec hnum hden
  obtain ⟨e, he⟩ : ∃ e : ℕ, lastPlace num den = e - 1074 := by
    obtain ⟨e, he⟩ := Int.eq_ofNat_of_zero_le (show 0 ≤ lastPlace num den + 1074 by omega)
    exact ⟨e, by omega⟩
  obtain ⟨s, hs⟩ : ∃ s, s = divHalfEven (num <<< (-(e - 1074 : ℤ)).toNat)
    (den <<< (e - 1074 : ℤ).toNat) := ⟨_, rfl⟩
  have hshift : 0 < den <<< (e - 1074 : ℤ).toNat := by
    rw [Nat.shiftLeft_eq]
    exact Nat.mul_pos hden (Nat.two_pow_pos _)
  have hspec := divHalfEven_spec (num <<< (-(e - 1074 : ℤ)).toNat) hshift
  rw [cast_shiftLeft_div, ← hs] at hspec
  rw [he] at hlt hfull
  obtain ⟨hlow, hhigh, hlowEven, hhighEven⟩ := hspec
  have hsmall : s ≤ 2 ^ 53 := by
    have hcast : (s : ℚ) < (2 ^ 53 + 1 : ℕ) := by
      push_cast
      linarith
    exact Nat.le_of_lt_succ (by exact_mod_cast hcast)
  have hfull' : (2 ^ 52 : ℚ) ≤ num / den / 2 ^ (e - 1074 : ℤ) ∨ e = 0 :=
    hfull.imp_right fun h => by omega
  have hrounds := Rounds.of_places hsmall hfull' hlt hlow hhigh hlowEven hhighEven
  rw [div_mul_cancel₀ _ (zpow_pos two_pos _).ne'] at hrounds
  refine ⟨_, hrounds, ?_⟩
  have he' : (e - 1074 + 1074 : ℤ).toNat = e := by omega
  simp only [nearestMagnitude, hnum.ne', if_false, he, he', ← hs, Nat.shiftLeft_eq e,
    Nat.mul_comm e]

variable {digits : ℕ} {exponent : ℤ}

theorem cast_mul_pow_div (z : ℤ) :
    ((num * .pow 10 z.toNat : ℕ) / (.pow 10 (-z).toNat : ℕ) : ℚ) = num * 10 ^ z := by
  rw [Nat.cast_mul, Nat.pow_eq, Nat.pow_eq, Nat.cast_pow, Nat.cast_pow, Nat.cast_ofNat,
    pow_toNat (by norm_num), ← mul_assoc, mul_div_cancel_right₀ _ (pow_ne_zero _ (by norm_num))]

/-- The place of the first digit of a decimal gives its size. -/
theorem pow_leading (exponent : ℤ) (hdigits : digits ≠ 0) :
    (10 : ℚ) ^ ((Nat.toDigits 10 digits).length + exponent - 1) ≤ digits * 10 ^ exponent
    ∧ (digits * 10 ^ exponent : ℚ) < 10 ^ ((Nat.toDigits 10 digits).length + exponent) := by
  have hpos : (0 : ℚ) < 10 ^ exponent := zpow_pos (by norm_num) _
  have hlength := Nat.length_toDigits_pos (b := 10) (n := digits)
  have hlow : 10 ^ ((Nat.toDigits 10 digits).length - 1) ≤ digits := by
    by_contra! hlt
    rcases Nat.eq_or_lt_of_le hlength with hone | hmore
    · rw [← hone, Nat.sub_self, pow_zero] at hlt
      omega
    · have := (Nat.length_toDigits_le_iff (by decide) (by omega)).2 hlt
      omega
  have hhigh : digits < 10 ^ (Nat.toDigits 10 digits).length :=
    (Nat.length_toDigits_le_iff (by decide) hlength).1 le_rfl
  constructor
  · rw [add_sub_right_comm, zpow_add₀ (by norm_num), mul_le_mul_iff_left₀ hpos,
      ← Nat.cast_pred hlength, zpow_natCast]
    exact_mod_cast hlow
  · rw [zpow_add₀ (by norm_num), mul_lt_mul_iff_left₀ hpos, zpow_natCast]
    exact_mod_cast hhigh

theorem numberAt_zero : numberAt 0 = 0 := by simp [numberAt]

theorem numberAt_infinity : numberAt infinity.magnitude = 2 ^ 1024 := by
  have h := numberAt_places (e := 2046) (s := 2 ^ 52) (by norm_num) (.inl le_rfl)
  rw [show infinity.magnitude = 2 ^ 52 * 2046 + 2 ^ 52 by decide, h, Nat.cast_pow, Nat.cast_ofNat,
    ← zpow_natCast, ← zpow_natCast, ← zpow_add₀ two_ne_zero]
  congr 1

theorem two_pow_le_ten_pow (k : ℕ) : (2 : ℚ) ^ (3 * k) ≤ 10 ^ k := by
  rw [pow_mul]
  exact pow_le_pow_left₀ (by norm_num) (by norm_num) k

/-- A decimal of any length is read as the number that it is rounded to; past the largest finite one
this is infinity. -/
theorem exists_rounds_ofDecimal (digits : ℕ) (exponent : ℤ) : ∃ n, Rounds (digits * 10 ^ exponent) n
    ∧ ofDecimal digits exponent = ⟨UInt64.ofNat (min n infinity.magnitude)⟩ := by
  by_cases hdigits : digits = 0
  · refine ⟨0, ?_, by simp [ofDecimal, hdigits, zero]⟩
    rw [hdigits, Nat.cast_zero, zero_mul, ← numberAt_zero]
    exact .numberAt 0
  have hnum : 0 < digits * .pow 10 exponent.toNat :=
    Nat.mul_pos (Nat.pos_of_ne_zero hdigits) (Nat.pow_pos (by decide))
  have hden : 0 < Nat.pow 10 (-exponent).toNat := Nat.pow_pos (by decide)
  obtain ⟨n, hrounds, hnearest⟩ := exists_rounds_nearestMagnitude hnum hden
  rw [cast_mul_pow_div] at hrounds
  obtain ⟨hleading, hleading'⟩ := pow_leading exponent hdigits
  refine ⟨n, hrounds, ?_⟩
  unfold ofDecimal
  simp only [hdigits, decide_false, Bool.false_or, decide_eq_true_eq]
  split
  next hsmall =>
    -- less than half the smallest number
    obtain rfl : n = 0 := by
      by_contra hne
      refine absurd ((hrounds.two_zpow_le (Nat.pos_of_ne_zero hne)).trans_lt hleading')
        (not_lt.2 ?_)
      calc (10 : ℚ) ^ ((Nat.toDigits 10 digits).length + exponent) ≤ 10 ^ (-401 : ℤ) :=
            zpow_le_zpow_right₀ (by norm_num) (by omega)
        _ = ((10 : ℚ) ^ 401)⁻¹ := by rw [zpow_neg, zpow_ofNat]
        _ ≤ (2 ^ 1075)⁻¹ := inv_anti₀ (pow_pos two_pos _)
            ((pow_le_pow_right₀ one_le_two (by norm_num)).trans (two_pow_le_ten_pow 401))
        _ = 2 ^ (-1075 : ℤ) := by rw [zpow_neg, zpow_ofNat]
    rfl
  next =>
    split
    next hlarge =>
      -- more than what would be the number behind the largest finite one
      have hbeyond : numberAt infinity.magnitude ≤ digits * 10 ^ exponent := by
        calc numberAt infinity.magnitude = 2 ^ 1024 := numberAt_infinity
          _ ≤ 2 ^ (3 * 400) := pow_le_pow_right₀ one_le_two (by norm_num)
          _ ≤ 10 ^ 400 := two_pow_le_ten_pow 400
          _ = 10 ^ (400 : ℤ) := (zpow_ofNat _ _).symm
          _ ≤ 10 ^ ((Nat.toDigits 10 digits).length + exponent - 1) :=
            zpow_le_zpow_right₀ (by norm_num) (by omega)
          _ ≤ digits * 10 ^ exponent := hleading
      rw [Nat.min_eq_right ((Rounds.numberAt _).mono hrounds hbeyond)]
      rfl
    next => rw [hnearest]

theorem ofDecimal_of_rounds {n : ℕ} (h : Rounds (digits * 10 ^ exponent) n)
    (hle : n ≤ infinity.magnitude) :
    ofDecimal digits exponent = ⟨UInt64.ofNat n⟩ := by
  obtain ⟨n', hrounds, hdecimal⟩ := exists_rounds_ofDecimal digits exponent
  obtain rfl := h.unique hrounds
  rw [hdecimal, Nat.min_eq_left hle]

end DialectIR.Binary64
