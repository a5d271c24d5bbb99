import DialectIR.Arith
import DialectIR.Greedy
import DialectIR.Lowering

/-! Passes: transformations of a module that are run by name. Before it is run, a pass gets ready in
a context in which the dialects that it needs are loaded. -/

namespace DialectIR

/-- What passes work in: the context of the module and the memory of the patterns. -/
structure Workspace (σ : Type) where
  context : Context
  memory : σ

/-- Steps of work that may fail. An error leaves the workspace that it was raised in. -/
abbrev Task (σ : Type) := ExceptT Error (StateM (Workspace σ))

namespace Task

variable {σ : Type}

def context : Task σ Context := return (← get).context

def note (event : Event) : Task σ Unit :=
  modify fun space => { space with context := space.context.note event }

/-- Does something that concerns the memory alone. -/
def withMemory {α : Type} (work : StateM σ α) : Task σ α := do
  let space ← get
  let (result, memory) := work.run space.memory
  set { space with memory }
  return result

end Task

/-- A transformation of modules. -/
structure Pass (σ : Type) where
  /-- The name of the pass. -/
  argument : String
  description : String := ""
  /-- The dialects that have to be loaded. -/
  dependencies : List Dialect := []
  /-- Gets ready; the answer holds the patterns that the pass is going to apply. -/
  prepare : Task σ (FrozenPatterns σ) := return .empty
  /-- Transforms a module with the patterns; the answer tells whether it was changed. -/
  run : FrozenPatterns σ → Operation → Task σ (Bool × Operation)

namespace Pass

variable {σ : Type}

/-- The dialects that the pass needs, unless two of them are in conflict. -/
def dependencyRegistry (pass : Pass σ) : Registry × Option NamespaceConflict :=
  Registry.empty.insertAll pass.dependencies

/-- Applies patterns greedily to a module. -/
def applyPatterns (config : Greedy.Config) (patterns : FrozenPatterns σ) (op : Operation) :
    Task σ (Bool × Operation) := do
  let space ← get
  let rewritten := applyGreedily patterns config op space.context space.memory
  set (Workspace.mk rewritten.context rewritten.memory)
  match rewritten.result with
  | .ok outcome => return (outcome.changed, rewritten.op)
  | .error error => throw error

/-- The pass that applies the patterns of some sources. -/
def ofPatterns (argument description : String) (dependencies : List Dialect)
    (sources : List (PatternSource σ)) (config : Greedy.Config) : Pass σ where
  argument := argument
  description := description
  dependencies := dependencies
  prepare := do Task.withMemory (FrozenPatterns.ofSources (← Task.context) sources)
  run := applyPatterns config

/-- The pass that changes nothing. -/
def idle (argument description : String) : Pass σ where
  argument := argument
  description := description
  run _ op := return (false, op)

/-- Applies the simplifications of all loaded dialects, in the order of their namespaces. -/
def canonicalize (simplifications : Dialect → List (PatternSource σ)) : Pass σ where
  argument := "canonicalize"
  description := "Canonicalize operations"
  prepare := do
    let context ← Task.context
    let dialects := context.loaded.entries.map fun entry => entry.2.dialect
    let patterns : FrozenPatterns σ ←
      Task.withMemory (FrozenPatterns.ofSources context (dialects.flatMap simplifications))
    Task.note (.collected patterns.size)
    return patterns
  run := applyPatterns {}

/-- Lowers integer arithmetic. -/
def convertArithToLLVM : Pass σ :=
  ofPatterns "convert-arith-to-llvm" "Convert arith operations to LLVM" [.llvm]
    (Lowering.patterns.map Pattern.source) {}

end Pass

end DialectIR
