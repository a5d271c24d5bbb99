import DialectIR.Pattern

/-! Simplification of integer arithmetic: operations on constants are folded, and operations with a
neutral or an absorbing operand go. -/

namespace DialectIR

/-- The integer that the operation defines its result to be, if it is a constant of an integer. -/
def Operation.constant? (op : Operation) : Option Int64 :=
  if op.name = "arith.constant" then (op.attributes.get? "value").bind Attribute.integer? else none

namespace Arith

variable {σ : Type}

/-- The result of an operation on integers of 64 bits, with wraparound. -/
def fold? (op : OpName) (lhs rhs : Int64) : Option Int64 :=
  if op = "arith.addi" then some (lhs + rhs)
  else if op = "arith.subi" then some (lhs - rhs)
  else if op = "arith.muli" then some (lhs * rhs)
  else none

/-- The integer that a value is known to be. -/
def constantValue? (value : Value) : Attempt σ (Option Int64) := do
  return (← Attempt.definition? value).bind (·.constant?)

/-- Replaces an operation by a constant of the type of its first result. -/
def replaceByConstant (op : Operation) (value : Int64) : Attempt σ Unit := do
  match op.results with
  | [] => throw (.noResult op.name)
  | result :: _ => Attempt.replaceWithNew (.constant (← Attempt.freshValue result.ty) value)

/-- A match on two operands; any other number of them is none. -/
def onTwoOperands (f : Value → Value → Attempt σ Bool) (op : Operation) : Attempt σ Bool :=
  match op.operands with
  | [lhs, rhs] => f lhs rhs
  | _ => return false

/-- Replaces an operation by one of its operands if the other is the given constant, the right one
first. -/
def dropNeutral (neutral : Int64) (lhs rhs : Value) : Attempt σ Bool := do
  if (← constantValue? rhs) = some neutral then
    Attempt.act (.replace [lhs])
    return true
  else if (← constantValue? lhs) = some neutral then
    Attempt.act (.replace [rhs])
    return true
  else return false

/-- An operation on two constants is a constant. -/
def foldBinary : Pattern σ where
  name := "arith::FoldBinary"
  benefit := 2
  rewrite op := op |> onTwoOperands fun lhs rhs => do
    match ← constantValue? lhs, ← constantValue? rhs with
    | some x, some y =>
        match fold? op.name x y with
        | some value =>
            replaceByConstant op value
            return true
        | none => return false
    | _, _ => return false

/-- Zero is neutral for addition. -/
def addZero : Pattern σ where
  name := "arith::AddZero"
  root := some "arith.addi"
  rewrite := onTwoOperands (dropNeutral 0)

/-- Zero is neutral on the right of a subtraction. -/
def subZero : Pattern σ where
  name := "arith::SubZero"
  root := some "arith.subi"
  rewrite := onTwoOperands fun lhs rhs => do
    if (← constantValue? rhs) = some 0 then
      Attempt.act (.replace [lhs])
      return true
    else return false

/-- A value minus itself is zero. -/
def subSelf : Pattern σ where
  name := "arith::SubSelf"
  root := some "arith.subi"
  rewrite op := op |> onTwoOperands fun lhs rhs => do
    if lhs = rhs then
      replaceByConstant op 0
      return true
    else return false

/-- One is neutral for multiplication. -/
def mulOne : Pattern σ where
  name := "arith::MulOne"
  root := some "arith.muli"
  rewrite := onTwoOperands (dropNeutral 1)

/-- Zero times any value is zero. -/
def mulZero : Pattern σ where
  name := "arith::MulZero"
  root := some "arith.muli"
  rewrite op := op |> onTwoOperands fun lhs rhs => do
    if (← constantValue? lhs) = some 0 || (← constantValue? rhs) = some 0 then
      replaceByConstant op 0
      return true
    else return false

/-- The simplifications, in the order in which a set takes them. -/
def simplifications : List (Pattern σ) := [foldBinary, addZero, subZero, subSelf, mulOne, mulZero]

end Arith

end DialectIR
