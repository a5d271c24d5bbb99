/-! Decimal numerals as they are read: ASCII digits, leading zeros allowed, a sign where one is
admitted, and a value within the given bounds. -/

namespace DialectIR.Text

/-- The value of a row of digits, most significant first. -/
def digitsValue (digits : List Char) : Nat :=
  digits.foldl (fun value c => 10 * value + (c.toNat - '0'.toNat)) 0

/-- Reads a row of at least one digit. -/
def readDigits? (cs : List Char) : Option Nat :=
  if cs.isEmpty || !cs.all Char.isDigit then none else some (digitsValue cs)

/-- Reads a natural number of at most `max`; a plus sign may precede it. -/
def readNat? (max : Nat) (text : String) : Option Nat :=
  let value? := match text.toList with
    | '+' :: digits => readDigits? digits
    | digits => readDigits? digits
  value?.filter (· ≤ max)

/-- Reads an integer between `min` and `max`; either sign may precede it. -/
def readInt? (min max : Int) (text : String) : Option Int :=
  let value? : Option Int := match text.toList with
    | '+' :: digits => (readDigits? digits).map Int.ofNat
    | '-' :: digits => (readDigits? digits).map fun n => -(n : Int)
    | digits => (readDigits? digits).map Int.ofNat
  value?.filter fun value => min ≤ value && value ≤ max

/-- Reads an integer of 64 bits. -/
def readInt64? (text : String) : Option Int64 :=
  (readInt? Int64.minValue.toInt Int64.maxValue.toInt text).map Int64.ofInt

/-- Reads a counter of 64 bits. -/
def readUInt64? (text : String) : Option UInt64 :=
  (readNat? (UInt64.size - 1) text).map UInt64.ofNat

end DialectIR.Text
