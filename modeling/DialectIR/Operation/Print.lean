import DialectIR.Operation

/-! The text of an operation: one line for the operation, and one for each nested one, indented. -/

namespace DialectIR

namespace Head

/-- The text up to the region: results, name, operands, attributes and the types of the results. A
module drops the name of its dialect. -/
def text (head : Head) : String :=
  let results := Text.joinWith ", " (head.results.map Value.text)
  let operands := Text.joinWith ", " (head.operands.map Value.text)
  let types := Text.joinWith ", " (head.results.map fun result => result.ty.text)
  (if head.results.isEmpty then "" else results ++ " = ")
    ++ (if head.name = "builtin.module" then "module" else head.name.text)
    ++ (if head.operands.isEmpty then "" else " " ++ operands)
    ++ (if head.attributes.isEmpty then "" else " " ++ Attributes.text head.attributes)
    ++ (if head.results.isEmpty then "" else " : " ++ types)

end Head

namespace Operation

mutual

/-- The text of an operation that starts at the given depth of indentation. -/
def textAt (depth : Nat) : Operation → String
  | ⟨head, none⟩ => head.text
  | ⟨head, some []⟩ => head.text ++ " \x7b\x7d"
  | ⟨head, some (op :: ops)⟩ =>
      head.text ++ " \x7b\n" ++ linesAt (depth + 1) (op :: ops) ++ Text.indentation depth ++ "\x7d"

/-- The operations of a list, each on lines of its own. -/
def linesAt (depth : Nat) : List Operation → String
  | [] => ""
  | op :: ops => Text.indentation depth ++ textAt depth op ++ "\n" ++ linesAt depth ops

end

/-- The text of an operation. -/
def text (op : Operation) : String := op.textAt 0

end Operation

end DialectIR
