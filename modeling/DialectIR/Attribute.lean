import DialectIR.Binary64.Shortest
import DialectIR.Dict
import DialectIR.Text.Join
import DialectIR.Ty

/-! Attributes: the constants that belong to an operation, by name. -/

namespace DialectIR

/-- A known constant. -/
inductive Attribute where
  | integer (value : Int64) (ty : Ty)
  | float (value : Binary64) (ty : Ty)
  | bool (value : Bool)
  | string (text : String)
  /-- A reference to a symbol, such as a function. -/
  | symbol (name : String)
  | type (ty : Ty)
deriving DecidableEq, Inhabited

namespace Attribute

/-- An integer wrapped to its type. -/
def wrapped (value : Int64) (ty : Ty) : Attribute := .integer (ty.truncate value) ty

def integer? : Attribute → Option Int64
  | .integer value _ => some value
  | _ => none

/-- The text of a string or the name of a symbol. -/
def text? : Attribute → Option String
  | .string text => some text
  | .symbol name => some name
  | _ => none

/-- How the attribute is written. The text of a string stands between quotes as it is. -/
def text : Attribute → String
  | .integer value ty => toString value.toInt ++ " : " ++ ty.text
  | .float value ty => value.text ++ " : " ++ ty.text
  | .bool value => if value then "true" else "false"
  | .string text => "\"" ++ text ++ "\""
  | .symbol name => "@" ++ name
  | .type ty => ty.text

/-- Equality with floating point values compared as numbers. -/
def sameValue : Attribute → Attribute → Bool
  | .float x ty, .float y ty' => x.sameNumber y && ty = ty'
  | a, b => a = b

end Attribute

/-- The attributes of an operation, by name. -/
abbrev Attributes := Dict Attribute

namespace Attributes

/-- How the dictionary is written. -/
def text (attributes : Attributes) : String :=
  "\x7b"
    ++ Text.joinWith ", " (attributes.entries.map fun entry => entry.1 ++ " = " ++ entry.2.text)
    ++ "\x7d"

/-- Equality with floating point values compared as numbers. -/
def sameValues (a b : Attributes) : Bool :=
  a.keys = b.keys && (a.entries.zip b.entries).all fun pair => pair.1.2.sameValue pair.2.2

end Attributes

end DialectIR
