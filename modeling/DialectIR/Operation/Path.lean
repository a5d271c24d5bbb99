import DialectIR.Operation

/-! Paths: nested operations by the places of the operations that hold them. -/

namespace DialectIR.Operation

/-- The operation that a path of places leads down to. -/
def at? : List Nat → Operation → Option Operation
  | [], op => some op
  | place :: path, op => op.nested[place]?.bind (at? path)

/-- The tree with the operation at the end of a path changed. -/
def modifyAt (f : Operation → Operation) : List Nat → Operation → Operation
  | [], op => f op
  | place :: path, op => { op with region := op.region.map (·.modify place (modifyAt f path)) }

end DialectIR.Operation
