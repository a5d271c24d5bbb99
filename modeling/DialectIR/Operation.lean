import DialectIR.Attribute
import DialectIR.Value

/-! Operations: trees whose nodes use values, define values and carry attributes, and may hold a
region with a list of operations. -/

namespace DialectIR

/-- The name of an operation; what precedes the first point is the namespace of its dialect. -/
structure OpName where
  text : String
deriving DecidableEq, Inhabited

namespace OpName

instance : Coe String OpName := ⟨OpName.mk⟩

/-- The namespace, empty if the name has no point. -/
def dialect (name : OpName) : String :=
  let cs := name.text.toList
  if cs.contains '.' then String.ofList (cs.takeWhile (· ≠ '.')) else ""

/-- The name within its dialect. -/
def short (name : OpName) : String :=
  let cs := name.text.toList
  if cs.contains '.' then String.ofList ((cs.dropWhile (· ≠ '.')).drop 1) else name.text

end OpName

/-- An operation without its region. -/
structure Head where
  name : OpName
  operands : List Value := []
  results : List Value := []
  attributes : Attributes := .empty
deriving DecidableEq, Inhabited

/-- An operation. A region holds operations in order; it may be empty. -/
structure Operation extends Head where
  region : Option (List Operation) := none

instance : Inhabited Operation := ⟨{ name := "" }⟩

namespace Head

/-- The operation with its operands replaced one by one. -/
def mapOperands (f : Value → Value) (head : Head) : Head :=
  { head with operands := head.operands.map f }

/-- Equality with floating point values compared as numbers. -/
def sameValues (a b : Head) : Bool :=
  a.name = b.name && a.operands = b.operands && a.results = b.results
    && Attributes.sameValues a.attributes b.attributes

end Head

namespace Operation

/-- The operations of the region, none if there is no region. -/
def nested (op : Operation) : List Operation := op.region.getD []

mutual

/-- The operation and all nested ones without their regions, each before what it holds. -/
def heads : Operation → List Head
  | ⟨head, none⟩ => [head]
  | ⟨head, some ops⟩ => head :: headsOfAll ops

/-- The heads of all operations of a list. -/
def headsOfAll : List Operation → List Head
  | [] => []
  | op :: ops => heads op ++ headsOfAll ops

end

mutual

/-- Applies a function to the head of the operation and of all nested ones. -/
def mapHeads (f : Head → Head) : Operation → Operation
  | ⟨head, none⟩ => ⟨f head, none⟩
  | ⟨head, some ops⟩ => ⟨f head, some (mapHeadsOfAll f ops)⟩

/-- Applies a function to all heads in a list of operations. -/
def mapHeadsOfAll (f : Head → Head) : List Operation → List Operation
  | [] => []
  | op :: ops => mapHeads f op :: mapHeadsOfAll f ops

end

mutual

/-- How many operations are nested in each other, this one included. -/
def height : Operation → Nat
  | ⟨_, none⟩ => 1
  | ⟨_, some ops⟩ => heightOfAll ops + 1

/-- The height of the highest operation of a list. -/
def heightOfAll : List Operation → Nat
  | [] => 0
  | op :: ops => max (height op) (heightOfAll ops)

end

mutual

/-- Equality of trees with floating point values compared as numbers. -/
def sameValues : Operation → Operation → Bool
  | ⟨head, none⟩, ⟨head', none⟩ => head.sameValues head'
  | ⟨head, some ops⟩, ⟨head', some ops'⟩ => head.sameValues head' && sameValuesOfAll ops ops'
  | _, _ => false

/-- Equality of lists of trees with floating point values compared as numbers. -/
def sameValuesOfAll : List Operation → List Operation → Bool
  | [], [] => true
  | op :: ops, op' :: ops' => sameValues op op' && sameValuesOfAll ops ops'
  | _, _ => false

end

/-- The number of operands, here and in nested operations, that have the name of the value. -/
def usesOf (op : Operation) (value : Value) : Nat :=
  (op.heads.flatMap (·.operands)).countP (·.name = value.name)

/-- The tree with its operands replaced one by one. -/
def mapOperands (f : Value → Value) (op : Operation) : Operation := op.mapHeads (Head.mapOperands f)

/-- The tree with all uses of one value replaced by another. -/
def replaceUses (op : Operation) (old new : Value) : Operation :=
  op.mapOperands fun operand => if operand.name = old.name then new else operand

end Operation

end DialectIR
