import DialectIR.Text.Numeral

/-! The types of values and attributes, and the wrapping of integers to the width of a type. -/

namespace DialectIR

/-- The type of a value or of an attribute. -/
inductive Ty where
  /-- Integers of the given number of bits, without a sign of their own. -/
  | int (bits : UInt32)
  | index
  /-- Floating point numbers of the given number of bits. -/
  | float (bits : UInt32)
  | none
  /-- A type that belongs to a dialect, known by name only. -/
  | foreign (name : String)
deriving DecidableEq, Inhabited

/-- The number of bits of an integer type; an index counts as 64. -/
def Ty.width? : Ty → Option UInt32
  | .int bits => some bits
  | .index => some 64
  | _ => Option.none

def Ty.isInteger (ty : Ty) : Bool := ty.width?.isSome

/-- The value reduced to the two's complement range of an integer type of 1 to 63 bits; any other
type leaves it alone. -/
def Ty.truncate (ty : Ty) (value : Int64) : Int64 :=
  match ty.width? with
  | some bits =>
      if 0 < bits && bits < 64 then Int64.ofInt (value.toInt.bmod (1 <<< bits.toNat)) else value
  | Option.none => value

/-- How the type is written. -/
def Ty.text : Ty → String
  | .int bits => "i" ++ toString bits.toNat
  | .index => "index"
  | .float bits => "f" ++ toString bits.toNat
  | .none => "none"
  | .foreign name => "!" ++ name

/-- The builtin type that a word stands for: `index`, `none`, three widths of floating point
numbers, and integers of 1 to 128 bits. -/
def Ty.ofKeyword? (word : String) : Option Ty :=
  if word = "index" then some .index
  else if word = "none" then some .none
  else if word = "f16" then some (.float 16)
  else if word = "f32" then some (.float 32)
  else if word = "f64" then some (.float 64)
  else match word.toList with
    | 'i' :: bits =>
        match Text.readNat? (UInt32.size - 1) (String.ofList bits) with
        | some bits =>
            if bits = 0 || 128 < bits then Option.none else some (.int (UInt32.ofNat bits))
        | Option.none => Option.none
    | _ => Option.none

end DialectIR
