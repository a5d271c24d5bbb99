import DialectIR.Ty

/-! The values that operations define and use. -/

namespace DialectIR

/-- A value, known by its name. -/
structure Value where
  name : String
  ty : Ty
deriving DecidableEq, Inhabited

namespace Value

/-- The value of the given name; the name may be written with its percent sign. -/
def named (name : String) (ty : Ty) : Value :=
  match name.toList with
  | '%' :: rest => ⟨String.ofList rest, ty⟩
  | _ => ⟨name, ty⟩

/-- How the value is written. -/
def text (value : Value) : String := "%" ++ value.name

end Value

end DialectIR
