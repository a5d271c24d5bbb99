import DialectIR.Binary64

/-! The shortest decimal numeral of a binary64 number: of the decimals that round to the number,
those with the fewest digits; of these, the nearest to it; of two equally near, the larger. -/

namespace DialectIR

/-- The decimal `digits * 10 ^ exponent`. -/
structure Decimal where
  digits : Nat
  exponent : Int
deriving DecidableEq

namespace Decimal

/-- How the decimal compares with `m * 2 ^ q`, exactly. -/
def compareScaled (d : Decimal) (m : Nat) (q : Int) : Ordering :=
  compare ((d.digits * .pow 10 d.exponent.toNat) <<< (-q).toNat)
    ((m * .pow 10 (-d.exponent).toNat) <<< q.toNat)

/-- The same decimal without zeros at the end of its digits; `fuel` bounds how many are dropped. -/
def dropZeros (d : Decimal) : Nat → Decimal
  | 0 => d
  | fuel + 1 =>
      if d.digits ≠ 0 && d.digits % 10 = 0 then dropZeros
        ⟨d.digits / 10, d.exponent + 1⟩ fuel else d

end Decimal

namespace Binary64

/-- Whether the decimal rounds to the positive number: it lies between the points halfway to the
neighbours, which themselves belong to the even significand. The neighbour below a power of two is
only half as far away. -/
def readsBack (x : Binary64) (d : Decimal) : Bool :=
  let (m, q) := x.decode
  let narrow := m = 1 <<< 52 && -1074 < q
  let low := d.compareScaled (if narrow then 4 * m - 1 else 4 * m - 2) (q - 2)
  let high := d.compareScaled (4 * m + 2) (q - 2)
  if m % 2 = 0 then low ≠ .lt && high ≠ .gt else low = .gt && high = .lt

/-- The least `k` with `x < 10 ^ k`, for a positive number: within four steps of an estimate from
the binary exponent. -/
def decimalScale (x : Binary64) : Int :=
  let (m, q) := x.decode
  let estimate := Int.fdiv ((m.log2 + q) * 1233) 4096
  let below (k : Int) : Bool := (Decimal.mk 1 k).compareScaled m q = .gt
  let steps : Nat := ((List.range 4).find? fun (i : Nat) => below (estimate + i)).getD 4
  estimate + steps

/-- The nearer of the two decimals with the given exponent around the number, if one of them rounds
to it. -/
def onGrid? (x : Binary64) (exponent : Int) : Option Decimal :=
  let (m, q) := x.decode
  let below := (m * .pow 10 (-exponent).toNat) <<<
    q.toNat / (Nat.pow 10 exponent.toNat <<< (-q).toNat)
  let lower : Decimal := ⟨below, exponent⟩
  let upper : Decimal := ⟨below + 1, exponent⟩
  match x.readsBack lower, x.readsBack upper with
  | true, true =>
      -- twice the number against the sum of both neighbours
      if (Decimal.mk (2 * below + 1) exponent).compareScaled (2 * m) q = .gt then lower else upper
  | true, false => lower
  | false, true => upper
  | false, false => none

/-- The shortest decimal of a positive finite number. Seventeen digits suffice; should none be
found, the exact value stands in. -/
def shortest (x : Binary64) : Decimal :=
  let scale := x.decimalScale
  match (List.range 17).findSome? fun (n : Nat) => x.onGrid? (scale - (n + 1)) with
  | some d => d.dropZeros 17
  | none =>
      let (m, q) := x.decode
      if 0 ≤ q then ⟨m <<< q.toNat, 0⟩ else ⟨m * .pow 5 (-q).toNat, q⟩

/-- A decimal as a numeral. Between `10 ^ -4` and `10 ^ 16` it is written out, with at least one
digit on each side of the point; beyond, with one digit before the point and an exponent. -/
def layOut (d : Decimal) : String :=
  let digits := Nat.toDigits 10 d.digits
  let point : Int := digits.length + d.exponent
  if point < -3 || 16 < point then
    let tail := digits.drop 1
    String.ofList (digits.take 1 ++ (if tail.isEmpty then [] else '.' :: tail)) ++ "e"
      ++ toString (point - 1)
  else if point ≤ 0 then
    String.ofList ("0.".toList ++ List.replicate (-point).toNat '0' ++ digits)
  else if digits.length ≤ point then
    String.ofList (digits ++ List.replicate (point.toNat - digits.length) '0' ++ ".0".toList)
  else String.ofList (digits.take point.toNat ++ '.' :: digits.drop point.toNat)

/-- The number as text. -/
def text (x : Binary64) : String :=
  if x.isNaN then "NaN"
  else
    let unsigned :=
      if x.isInfinite then "inf" else if x.isZero then "0.0" else layOut x.shortest
    if x.isNegative then "-" ++ unsigned else unsigned

end Binary64

end DialectIR
