import DialectIR.Operation

/-! Dialects: namespaces with the operations that they define. -/

namespace DialectIR

/-- What is known about an operation of a dialect. -/
structure OpDefinition where
  /-- The name within the dialect. -/
  name : String
  /-- Whether the operation has no side effects, so that it can go once its results are unused. -/
  pure : Bool
deriving DecidableEq, Inhabited

/-- A dialect. Two dialects may describe themselves alike and still be different. -/
structure Dialect where
  /-- Tells dialects apart. -/
  identity : String
  /-- The namespace that the dialect claims. -/
  name : String
  description : String := ""
  operations : List OpDefinition := []
deriving DecidableEq, Inhabited

namespace Dialect

/-- The definition of an operation by its name within the dialect; the first one counts. -/
def operation? (dialect : Dialect) (short : String) : Option OpDefinition :=
  dialect.operations.find? (·.name = short)

/-- How a list of dialects is shown. -/
def listText (dialects : List Dialect) : String := "DialectList(" ++ toString dialects.length ++ ")"

/-- The top-level module. -/
def builtin : Dialect where
  identity := "builtin"
  name := "builtin"
  description := "Core operations such as the top-level module"
  operations := [⟨"module", false⟩]

def func : Dialect where
  identity := "func"
  name := "func"
  description := "Functions, calls and returns"
  operations := [⟨"func", false⟩, ⟨"return", false⟩, ⟨"call", false⟩]

def arith : Dialect where
  identity := "arith"
  name := "arith"
  description := "Basic integer arithmetic"
  operations := [⟨"constant", true⟩, ⟨"addi", true⟩, ⟨"subi", true⟩, ⟨"muli", true⟩]

def llvm : Dialect where
  identity := "llvm"
  name := "llvm"
  description := "Operations that map one-to-one to LLVM IR"
  operations := [⟨"mlir.constant", true⟩, ⟨"add", true⟩, ⟨"sub", true⟩, ⟨"mul", true⟩]

end Dialect

namespace Operation

/-- A module that holds the given operations. -/
def module (ops : List Operation) : Operation := { name := "builtin.module", region := some ops }

/-- A function of the given name with the given body. -/
def func (name : String) (body : List Operation) : Operation :=
  { name := "func.func", attributes := Dict.empty.insert "sym_name" (.string name),
    region := some body }

/-- The return of some values from a function. -/
def ret (values : List Value) : Operation := { name := "func.return", operands := values }

/-- The definition of a value as an integer constant, wrapped to the type of the value. -/
def constant (result : Value) (value : Int64) : Operation :=
  { name := "arith.constant", results := [result]
    attributes := Dict.empty.insert "value" (.wrapped value result.ty) }

end Operation

end DialectIR
