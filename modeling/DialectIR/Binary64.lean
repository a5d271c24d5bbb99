import DialectIR.Text.Numeral

/-! Floating point numbers of 64 bits, by their bit patterns. Decimal numerals of any length are
read in exact arithmetic and rounded once, to the nearest number and to the even one of two. -/

namespace DialectIR

/-- A number in the interchange format binary64: sign, 11 bits of exponent, 52 bits of fraction. -/
structure Binary64 where
  bits : UInt64
deriving DecidableEq, Inhabited

namespace Binary64

def zero : Binary64 := ⟨0⟩

def infinity : Binary64 := ⟨0x7FF0000000000000⟩

def notANumber : Binary64 := ⟨0x7FF8000000000000⟩

def isNegative (x : Binary64) : Bool := x.bits ≥ 0x8000000000000000

/-- The bits other than the sign. They grow with the distance from zero. -/
def magnitude (x : Binary64) : Nat := x.bits.toNat % (1 <<< 63)

def isNaN (x : Binary64) : Bool := x.magnitude > infinity.magnitude

def isInfinite (x : Binary64) : Bool := x.magnitude = infinity.magnitude

def isZero (x : Binary64) : Bool := x.magnitude = 0

/-- The number with the other sign. -/
def neg (x : Binary64) : Binary64 := ⟨x.bits ^^^ 0x8000000000000000⟩

/-- Numerical equality: the two zeros are equal, and what is not a number equals nothing. -/
def sameNumber (x y : Binary64) : Bool :=
  !x.isNaN && !y.isNaN && (x.bits = y.bits || (x.isZero && y.isZero))

/-- The significand and the exponent of a finite number `m * 2 ^ q`. -/
def decode (x : Binary64) : Nat × Int :=
  let exponent : Nat := x.magnitude >>> 52
  let fraction := x.magnitude % (1 <<< 52)
  if exponent = 0 then (fraction, -1074) else ((1 <<< 52) + fraction, (exponent : Int) - 1075)

/-- The quotient rounded to the nearest natural number, a half to the even one. -/
def divHalfEven (num den : Nat) : Nat :=
  let quotient := num / den
  let twice := 2 * (num % den)
  if den < twice || (twice = den && quotient % 2 = 1) then quotient + 1 else quotient

/-- The exponent of the last place of the number next to `num / den`, both positive: 53 bits of
significand where the format has them. -/
def lastPlace (num den : Nat) : Int :=
  let guess : Int := num.log2 - den.log2 - 53
  let tooSmall := den <<< (53 + guess.toNat) ≤ num <<< (-guess).toNat
  max (if tooSmall then guess + 1 else guess) (-1074)

/-- The magnitude of the number next to `num / den`. Past the largest finite number it is that of
infinity. -/
def nearestMagnitude (num den : Nat) : Nat :=
  if num = 0 then 0 else
    let place := lastPlace num den
    let significand := divHalfEven (num <<< (-place).toNat) (den <<< place.toNat)
    min (((place + 1074).toNat <<< 52) + significand) infinity.magnitude

/-- The number next to `digits * 10 ^ exponent`. Exponents that are out of all proportion to the
number of digits are decided without computing the power. -/
def ofDecimal (digits : Nat) (exponent : Int) : Binary64 :=
  let leading : Int := (Nat.toDigits 10 digits).length + exponent
  if digits = 0 || leading < -400 then zero
  else if 400 < leading then infinity
  else ⟨UInt64.ofNat (nearestMagnitude (digits * .pow 10 exponent.toNat) (.pow 10 (-exponent).toNat))⟩

/-- Reads the exponent part `e12`, `E-7`; nothing means zero. -/
def readExponent? : List Char → Option Int
  | [] => some 0
  | c :: rest =>
      if c ≠ 'e' && c ≠ 'E' then none
      else match rest with
        | '-' :: digits => (Text.readDigits? digits).map fun n => -(n : Int)
        | '+' :: digits => (Text.readDigits? digits).map Int.ofNat
        | digits => (Text.readDigits? digits).map Int.ofNat

/-- Reads digits, with a point among, before or after them, and an exponent. -/
def readUnsigned? (cs : List Char) : Option Binary64 :=
  let whole := cs.takeWhile Char.isDigit
  let rest := cs.dropWhile Char.isDigit
  let (fraction, rest) := match rest with
    | '.' :: rest => (rest.takeWhile Char.isDigit, rest.dropWhile Char.isDigit)
    | rest => ([], rest)
  if whole.isEmpty && fraction.isEmpty then none
  else (readExponent? rest).map fun exponent =>
    ofDecimal (Text.digitsValue (whole ++ fraction)) (exponent - fraction.length)

/-- Reads a number: a numeral, `inf`, `infinity` or `nan` in letters of either case, after an
optional sign. -/
def read? (text : String) : Option Binary64 :=
  let unsigned? (cs : List Char) : Option Binary64 :=
    let word := String.ofList (cs.map Char.toLower)
    if word = "inf" || word = "infinity" then some infinity
    else if word = "nan" then some notANumber
    else readUnsigned? cs
  match text.toList with
  | '-' :: cs => (unsigned? cs).map neg
  | '+' :: cs => unsigned? cs
  | cs => unsigned? cs

end Binary64

end DialectIR
