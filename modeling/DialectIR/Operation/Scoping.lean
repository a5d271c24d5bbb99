import DialectIR.Operation.Print

/-! Scoping: every value is defined once, and used only behind its definition, in the region of the
definition or in a region within. An operation does not see its own results. -/

namespace DialectIR

/-- How a tree breaks the rules of scoping. -/
inductive ScopingFault where
  | usedBeforeDefinition (value : Value) (op : Operation)
  | definedTwice (value : Value)

/-- The message about the fault. -/
def ScopingFault.message : ScopingFault → String
  | .usedBeforeDefinition value op => "use of " ++ value.text
    ++ " before its definition in:\n" ++ op.text
  | .definedTwice value => value.text ++ " is defined twice"

namespace Head

/-- The names of the results. -/
def resultNames (head : Head) : List String := head.results.map Value.name

end Head

namespace Operation

/-- Adds the names of values to the names defined so far, which must not contain them. -/
def defineResults (defined : List String) : List Value → Except ScopingFault (List String)
  | [] => .ok defined
  | result :: rest =>
      if result.name ∈ defined then .error (.definedTwice result)
      else defineResults (result.name :: defined) rest

/-- Finds an operand that is not visible. -/
def hiddenOperand? (visible : List String) (head : Head) : Option Value :=
  head.operands.find? fun operand => operand.name ∉ visible

mutual

/-- Checks an operation that sees the values `visible` and comes behind the definitions `defined`.
The answer is what is defined behind it. -/
def checkScoping (visible defined : List String) : Operation → Except ScopingFault (List String)
  | ⟨head, none⟩ =>
      match hiddenOperand? visible head with
      | some operand => .error (.usedBeforeDefinition operand ⟨head, none⟩)
      | none => defineResults defined head.results
  | ⟨head, some ops⟩ =>
      match hiddenOperand? visible head with
      | some operand => .error (.usedBeforeDefinition operand ⟨head, some ops⟩)
      | none =>
          match checkScopingOfAll visible defined ops with
          | .ok defined => defineResults defined head.results
          | .error fault => .error fault

/-- Checks the operations of a region in order; each is visible to the later ones. -/
def checkScopingOfAll (visible defined : List String) :
    List Operation → Except ScopingFault (List String)
  | [] => .ok defined
  | op :: ops =>
      match checkScoping visible defined op with
      | .ok defined => checkScopingOfAll (op.resultNames ++ visible) defined ops
      | .error fault => .error fault

end

/-- Checks the scoping of a whole tree. -/
def verify (op : Operation) : Except ScopingFault Unit :=
  match op.checkScoping [] [] with
  | .ok _ => .ok ()
  | .error fault => .error fault

end Operation

end DialectIR
