import DialectIR.Pass.Manager

/-! Pipelines: passes that are asked for by name. -/

namespace DialectIR

/-- A pass that can be asked for. -/
structure PassEntry (σ : Type) where
  description : String
  create : Pass σ

/-- The passes that can be asked for, by name. -/
abbrev PassRegistry (σ : Type) := Dict (PassEntry σ)

/-- An option of the command line that is either given or not. -/
structure Flag where
  name : String
  help : String
deriving DecidableEq

namespace PassRegistry

variable {σ : Type}

/-- Makes a pass available under a name, instead of an older one. -/
def register (registry : PassRegistry σ) (name description : String) (create : Pass σ) :
    PassRegistry σ :=
  registry.insert name ⟨description, create⟩

/-- The pass of a name. -/
def create? (registry : PassRegistry σ) (name : String) : Option (Pass σ) :=
  (registry.get? name).map PassEntry.create

/-- The names of the passes with their descriptions, in increasing order. -/
def listing (registry : PassRegistry σ) : List (String × String) :=
  registry.entries.map fun entry => (entry.1, entry.2.description)

/-- The passes of the library. -/
def standard (simplifications : Dialect → List (PatternSource σ)) : PassRegistry σ :=
  let registry : PassRegistry σ :=
    register .empty "canonicalize" "Canonicalize operations" (.canonicalize simplifications)
  registry.register "convert-arith-to-llvm" "Convert arith operations to LLVM" .convertArithToLLVM

/-- The flags for the passes, and the flag to show the module before each of them. -/
def flags (registry : PassRegistry σ) : List Flag :=
  registry.listing.map (fun entry => ⟨entry.1, entry.2⟩)
    ++ [⟨"print-ir-before-all", "Print the IR before each pass"⟩]

end PassRegistry

/-- The names of the passes to be run, in order. -/
structure Pipeline where
  names : List String := []
deriving DecidableEq

namespace Pipeline

/-- What follows the two dashes that an argument starts with. -/
def flagName? (argument : String) : Option String :=
  match argument.toList with
  | '-' :: '-' :: name => some (String.ofList name)
  | _ => none

/-- The pipeline of some names; each may be written with its dashes. -/
def ofNames (names : List String) : Pipeline := ⟨names.map fun name => (flagName? name).getD name⟩

/-- The names of passes that some arguments ask for as flags. -/
def askedFor {σ : Type} (registry : PassRegistry σ) (arguments : List String) : List String :=
  (arguments.filterMap flagName?).filter registry.contains

/-- The pipeline of the arguments of a command line: the flags among them that name passes. -/
def ofArguments {σ : Type} (registry : PassRegistry σ) (arguments : List String) : Pipeline :=
  ofNames (askedFor registry arguments)

def isEmpty (pipeline : Pipeline) : Bool := pipeline.names.isEmpty

/-- How the pipeline is written. -/
def text (pipeline : Pipeline) : String := Text.joinWith " " pipeline.names

/-- A manager of the passes that the names stand for. -/
def manager {σ : Type} (registry : PassRegistry σ) :
    List String → PassManager σ → Except Error (PassManager σ)
  | [], soFar => .ok soFar
  | name :: rest, soFar =>
      match registry.create? name with
      | some pass => manager registry rest (soFar.add pass)
      | none => .error (.unknownPass name)

/-- Runs the pipeline on a module; nothing is run if a name is unknown. -/
def transform {σ : Type} (pipeline : Pipeline) (registry : PassRegistry σ) (printing : Bool)
    (op : Operation) (space : Workspace σ) : Transformed σ :=
  match manager registry pipeline.names { printing } with
  | .error error => ⟨.error error, op, space⟩
  | .ok manager => (manager.run op space).1

end Pipeline

/-- The simplifications of the dialects of the library. -/
def Dialect.standardSimplifications {σ : Type} (dialect : Dialect) : List (PatternSource σ) :=
  if dialect = .arith then Arith.simplifications.map Pattern.source else []

end DialectIR
