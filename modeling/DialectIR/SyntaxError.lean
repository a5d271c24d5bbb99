import DialectIR.Operation
import DialectIR.Token.Scan

/-! What is wrong with a source text, and where. -/

namespace DialectIR

/-- Why a source text is not a module. -/
inductive SyntaxFault where
  | token (fault : Token.Fault)
  | expected (kind : Token.Kind) (found : Token)
  | unknownDialect (op : OpName)
  | undefinedOperation (op : OpName) (dialect : String)
  /-- A value is used that is not visible. -/
  | unassigned
  | redefinition (value : String)
  | unknownType (word : String)
  /-- An integer does not fit 64 bits. -/
  | integerRange
  /-- An integer does not fit its type, neither with nor without a sign. -/
  | integerRangeOf (ty : Ty)
  | invalidFloat
  | noAttribute
  | duplicateAttribute (name : String)
  | resultCount (results types : Nat)
  /-- The reader was given fewer steps than there are tokens. -/
  | outOfSteps
deriving DecidableEq

/-- The message about the fault. -/
def SyntaxFault.message : SyntaxFault → String
  | .token fault => fault.message
  | .expected kind found =>
      "Expected " ++ kind.text ++ ", but got \"" ++ found.lexeme ++ "\" of kind " ++ found.kind.text
  | .unknownDialect op =>
      "Dialect `" ++ op.dialect ++ "` not found for operation `" ++ op.text ++ "`"
  | .undefinedOperation op dialect =>
      "Operation `" ++ op.text ++ "` is not defined by dialect `" ++ dialect ++ "`"
  | .unassigned => "Expected assignment before use."
  | .redefinition value => "Redefinition of " ++ value
  | .unknownType word => "Unknown type " ++ word
  | .integerRange => "Integer literal out of range"
  | .integerRangeOf ty => "Integer literal out of range for " ++ ty.text
  | .invalidFloat => "Invalid float literal"
  | .noAttribute => "Expected an attribute value"
  | .duplicateAttribute name => "Duplicate attribute " ++ name
  | .resultCount results types =>
      "Expected " ++ toString results ++ " result types, but got " ++ toString types
  | .outOfSteps => "The source has more tokens than were announced"

/-- A fault at a place of a source text. -/
structure SyntaxError where
  source : String
  location : Location
  fault : SyntaxFault
deriving DecidableEq

/-- The excerpt of the source with the message. Faults behind scanning stand on lines of their
own. -/
def SyntaxError.message (error : SyntaxError) : String :=
  let excerpt := error.location.excerpt error.source error.fault.message
  match error.fault with
  | .token _ => excerpt
  | _ => "\n\n" ++ excerpt ++ "\n"

end DialectIR
