import DialectIR.Arith
import DialectIR.Operation.Print

/-! Scripts: patterns that are given as lists of steps. They keep a log of what they see, and can
count how often they were run. -/

namespace DialectIR

namespace Script

/-- What scripts remember. -/
structure Memory where
  /-- The lines of the log, the latest first. -/
  log : List String := []
  /-- How often the patterns were run, by their numbers. -/
  runs : List Nat := []
deriving DecidableEq, Inhabited

/-- Adds a line to the log. -/
def Memory.note (memory : Memory) (line : String) : Memory :=
  { memory with log := line :: memory.log }

/-- A reference to a value. -/
inductive Ref where
  | operand (index : Nat)
  | result (index : Nat)
  | bound (name : String)
  | literal (value : Value)
deriving DecidableEq

/-- References to values in a row. -/
inductive Refs where
  /-- All operands of the matched operation. -/
  | operands
  /-- All results of the matched operation. -/
  | results
  | each (refs : List Ref)
deriving DecidableEq

/-- What a template says about an operation apart from its region. -/
structure Outline where
  /-- Whether the operation starts as a copy of the matched one. -/
  fromMatched : Bool := false
  name : Option OpName := none
  operands : Option Refs := none
  results : Option Refs := none
  removedAttributes : List String := []
  attributes : List (String × Attribute) := []
deriving DecidableEq

/-- A template of an operation. -/
inductive Template where
  | leaf (outline : Outline)
  | withRegion (outline : Outline) (region : List Template)

inductive Step where
  | name (name : OpName)
  | operandCount (count : Nat)
  | hasAttribute (name : String)
  /-- The value is known to be the given integer. -/
  | isConstant (ref : Ref) (value : Int64)
  | definedBy (ref : Ref) (name : OpName)
  /-- Notes the operation that defines a value. -/
  | see (ref : Ref)
  /-- Goes on for a number of runs only. -/
  | times (count : Nat)
  | allowsUnregistered
  | fresh (name : String) (ty : Ty)
  | create (template : Template)
  | replace (refs : Refs)
  | replaceWithNew (template : Template)
  | update (template : Template)
  | erase
  /-- Notes an error of a step instead of failing. -/
  | guarded (step : Step)
  | bail (message : String)
  /-- Ends the run. -/
  | answer (success : Bool)

/-- What references are resolved in: the matched operation and the values that have got names so
far. -/
structure Scope where
  op : Operation
  bindings : Dict Value := .empty

/-- The value of a reference. -/
def Scope.value? (scope : Scope) : Ref → Option Value
  | .operand index => scope.op.operands[index]?
  | .result index => scope.op.results[index]?
  | .bound name => scope.bindings.get? name
  | .literal value => some value

/-- The values of references in a row; there are none if one of them is missing. -/
def Scope.values? (scope : Scope) : Refs → Option (List Value)
  | .operands => some scope.op.operands
  | .results => some scope.op.results
  | .each refs => refs.mapM scope.value?

/-- The operation of an outline, still with the region that it starts from. -/
def Outline.build? (scope : Scope) (outline : Outline) : Option Operation := do
  let start : Operation := if outline.fromMatched then scope.op else { name := "" }
  let operands ← match outline.operands with
    | some refs => scope.values? refs
    | none => some start.operands
  let results ← match outline.results with
    | some refs => scope.values? refs
    | none => some start.results
  let kept := outline.removedAttributes.foldl Dict.erase start.attributes
  let attributes := outline.attributes.foldl (fun all entry => all.insert entry.1 entry.2) kept
  return { name := outline.name.getD start.name, operands, results, attributes,
           region := start.region }

mutual

/-- The operation of a template. -/
def Template.build? (scope : Scope) : Template → Option Operation
  | .leaf outline => outline.build? scope
  | .withRegion outline region => do
      let op ← outline.build? scope
      return { op with region := some (← Template.buildAll? scope region) }

/-- The operations of templates in a row. -/
def Template.buildAll? (scope : Scope) : List Template → Option (List Operation)
  | [] => some []
  | template :: rest => do
      let op ← Template.build? scope template
      return op :: (← Template.buildAll? scope rest)

end

/-- How a script goes on behind a step. -/
inductive Flow where
  | next (scope : Scope)
  | stop (answer : Bool)

/-- Goes on if a condition holds, and else answers that there is nothing to do. -/
def Scope.require (scope : Scope) (condition : Bool) : Flow :=
  if condition then .next scope else .stop false

/-- Goes on with a value; without it there is nothing to do. -/
def withSome {α : Type} (value? : Option α) (f : α → Attempt Memory Flow) : Attempt Memory Flow :=
  match value? with
  | some value => f value
  | none => return .stop false

def note (line : String) : Attempt Memory Unit := Attempt.modifyMemory (·.note line)

/-- The names of values after the results of an inserted operation got names. -/
def withCreated (bindings : Dict Value) (results : List Value) : Dict Value :=
  results.zipIdx.foldl (fun all item => all.insert ("created" ++ toString item.2) item.1) bindings

/-- Runs a step of the pattern of the given number. -/
def Step.run (number : Nat) (scope : Scope) : Step → Attempt Memory Flow
  | .name wanted => return scope.require (scope.op.name = wanted)
  | .operandCount count => return scope.require (scope.op.operands.length = count)
  | .hasAttribute key => return scope.require (scope.op.attributes.contains key)
  | .isConstant ref value =>
      withSome (scope.value? ref) fun operand => do
        return scope.require ((← Arith.constantValue? operand) = some value)
  | .definedBy ref wanted =>
      withSome (scope.value? ref) fun operand => do
        return scope.require ((← Attempt.definition? operand).any (·.name = wanted))
  | .see ref =>
      withSome (scope.value? ref) fun operand => do
        let seen := match ← Attempt.definition? operand with
          | some op => op.text
          | none => "-"
        note ("see " ++ operand.text ++ ": " ++ seen)
        return .next scope
  | .times count => do
      let before := (← Attempt.memory).runs[number]?.getD 0
      Attempt.modifyMemory fun memory => { memory with runs := memory.runs.set number (before + 1) }
      return scope.require (before < count)
  | .allowsUnregistered => return scope.require (← Attempt.view).allowsUnregistered
  | .fresh key ty => do
      let value ← Attempt.freshValue ty
      note ("fresh " ++ value.text)
      return .next { scope with bindings := scope.bindings.insert key value }
  | .create template =>
      withSome (template.build? scope) fun op => do
        Attempt.insert op
        return .next { scope with bindings := withCreated scope.bindings op.results }
  | .replace refs =>
      withSome (scope.values? refs) fun values => do
        Attempt.act (.replace values)
        return .next scope
  | .replaceWithNew template =>
      withSome (template.build? scope) fun op => do
        Attempt.replaceWithNew op
        return .next scope
  | .update template =>
      withSome (template.build? scope) fun op => do
        Attempt.act (.update op)
        return .next scope
  | .erase => do
      Attempt.act .erase
      return .next scope
  | .guarded step => tryCatch (step.run number scope) fun error => do
      note ("caught " ++ error.message)
      return .next scope
  | .bail message => throw (.raised message)
  | .answer success => return .stop success

/-- Runs steps in order; behind the last one the match has succeeded. -/
def runSteps (number : Nat) (scope : Scope) : List Step → Attempt Memory Bool
  | [] => return true
  | step :: rest => do
      match ← step.run number scope with
      | .next scope => runSteps number scope rest
      | .stop answer => return answer

end Script

/-- A pattern that is given by its steps. -/
structure Script where
  name : String
  root : Option OpName := none
  benefit : Nat := 1
  steps : List Script.Step

namespace Script

/-- The line of the log for a run on an operation. -/
def heading (script : Script) (op : Operation) : String :=
  let operands := Text.joinWith " " (op.operands.map Value.text)
  String.ofList (Text.trimEnd (script.name ++ ": " ++ op.name.text ++ " " ++ operands).toList)

/-- The pattern of a script under the given number. -/
def pattern (script : Script) (number : Nat) : Pattern Memory where
  name := script.name
  root := script.root
  benefit := script.benefit
  rewrite op := do
    note (script.heading op)
    runSteps number { op } script.steps

/-- Makes the pattern of a script under a number of its own. -/
def source (script : Script) : PatternSource Memory := fun _ => do
  let number := (← get).runs.length
  modify fun memory => { memory with runs := memory.runs ++ [0] }
  return script.pattern number

/-- Makes the pattern of a script, with a line in the log about it and the context. -/
def announcedSource (script : Script) : PatternSource Memory := fun context => do
  modify (·.note ("new " ++ script.name ++ " " ++ toString context.allowsUnregistered))
  script.source context

end Script

end DialectIR
