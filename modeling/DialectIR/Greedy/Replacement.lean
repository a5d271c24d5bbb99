import DialectIR.Operation

/-! Replacements: which values stand for the results that were replaced. A replacement may be
replaced in turn, so it has to be followed to its end. -/

namespace DialectIR

/-- Values by the names of the results that they replace. -/
abbrev Replacements := Dict Value

namespace Replacements

/-- Follows the replacements of a value for a number of steps at most. -/
def follow? (replaced : Replacements) : Nat → Value → Option Value
  | steps, value =>
      match replaced.get? value.name, steps with
      | none, _ => some value
      | some _, 0 => none
      | some next, steps + 1 => follow? replaced steps next

/-- What a value stands for in the end; nothing if its replacements go round in circles, for
otherwise no step leads to the same name as another. -/
def resolve? (replaced : Replacements) (value : Value) : Option Value :=
  replaced.follow? replaced.size value

/-- The first operand in a tree whose replacements go round in circles. -/
def endless? (replaced : Replacements) (op : Operation) : Option Value :=
  (op.heads.flatMap (·.operands)).find? fun operand => (replaced.resolve? operand).isNone

/-- The tree with its operands replaced by what they stand for. -/
def applyTo (replaced : Replacements) (op : Operation) : Operation :=
  op.mapOperands fun operand => (replaced.resolve? operand).getD operand

end Replacements

end DialectIR
