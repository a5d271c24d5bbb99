import DialectIR.Error
import DialectIR.Rewrite

/-! Patterns, sets of patterns, and the order in which the patterns of a set are tried. -/

namespace DialectIR

/-- Programs of requests that may fail. -/
abbrev Attempt (σ : Type) := ExceptT Error (Rewrite σ)

namespace Attempt

variable {σ : Type}

/-- The operation that defines a value, if it is known. -/
def definition? (value : Value) : Attempt σ (Option Operation) := .lift (.definingOp value .done)

/-- A value of the given type under a name that is not in use. -/
def freshValue (ty : Ty) : Attempt σ Value := .lift (.freshName fun name => .done (.named name ty))

/-- Inserts an operation before the matched one. -/
def insert (op : Operation) : Attempt σ Unit := .lift (.create op (.done ()))

/-- Settles what becomes of the matched operation; a refusal is an error. -/
def act (action : Action) : Attempt σ Unit :=
  .mk (.act action fun answer => .done (answer.mapError .refused))

/-- Replaces the results of the matched operation by the results of a new one. -/
def replaceWithNew (op : Operation) : Attempt σ Unit := do
  insert op
  act (.replace op.results)

/-- The context without its journal. -/
def view : Attempt σ Context := .lift (.context .done)

/-- What the memory holds. -/
def memory : Attempt σ σ := .lift (.readMemory .done)

/-- Changes the memory. -/
def modifyMemory (f : σ → σ) : Attempt σ Unit :=
  .lift (.readMemory fun memory => .writeMemory (f memory) (.done ()))

end Attempt

/-- A rewrite pattern. -/
structure Pattern (σ : Type) where
  name : String
  /-- The only operations that the pattern is tried on; none stands for all. -/
  root : Option OpName := none
  /-- Of two patterns the one with the higher benefit is tried first. -/
  benefit : Nat := 1
  /-- Looks at an operation and records changes, or answers that there is nothing to do. -/
  rewrite : Operation → Attempt σ Bool

/-- A pattern that is made when it is added to a set, in view of a context. -/
abbrev PatternSource (σ : Type) := Context → StateM σ (Pattern σ)

namespace Pattern

variable {σ : Type}

/-- Whether the pattern is tried on operations of the given name. -/
def appliesTo (pattern : Pattern σ) (op : OpName) : Bool := pattern.root.all (· = op)

/-- The source of a pattern that depends on nothing. -/
def source (pattern : Pattern σ) : PatternSource σ := fun _ => pure pattern

end Pattern

/-- Patterns in the order in which they were added. -/
structure PatternSet (σ : Type) where
  patterns : List (Pattern σ) := []

/-- Patterns in the order in which they are tried. -/
structure FrozenPatterns (σ : Type) where
  patterns : List (Pattern σ) := []

namespace PatternSet

variable {σ : Type}

def empty : PatternSet σ := {}

def size (set : PatternSet σ) : Nat := set.patterns.length

def isEmpty (set : PatternSet σ) : Bool := set.patterns.isEmpty

/-- Adds a pattern. -/
def add (set : PatternSet σ) (pattern : Pattern σ) : PatternSet σ := ⟨set.patterns ++ [pattern]⟩

/-- Makes a pattern and adds it. -/
def insert (set : PatternSet σ) (context : Context) (source : PatternSource σ) :
    StateM σ (PatternSet σ) := do
  return set.add (← source context)

/-- Makes patterns and adds them in order. -/
def insertAll (set : PatternSet σ) (context : Context) :
    List (PatternSource σ) → StateM σ (PatternSet σ)
  | [] => return set
  | source :: rest => do (← set.insert context source).insertAll context rest

/-- Orders the patterns by decreasing benefit; those of one benefit keep their order. -/
def freeze (set : PatternSet σ) : FrozenPatterns σ :=
  ⟨set.patterns.mergeSort fun a b => decide (b.benefit ≤ a.benefit)⟩

end PatternSet

namespace FrozenPatterns

variable {σ : Type}

def empty : FrozenPatterns σ := {}

def size (set : FrozenPatterns σ) : Nat := set.patterns.length

def isEmpty (set : FrozenPatterns σ) : Bool := set.patterns.isEmpty

/-- The names of the patterns in the order in which they are tried. -/
def names (set : FrozenPatterns σ) : List String := set.patterns.map (·.name)

/-- The patterns to be tried on operations of the given name. -/
def patternsFor (set : FrozenPatterns σ) (op : OpName) : List (Pattern σ) :=
  set.patterns.filter (·.appliesTo op)

/-- The patterns of some sources, ready to be tried. -/
def ofSources (context : Context) (sources : List (PatternSource σ)) :
    StateM σ (FrozenPatterns σ) := do
  return (← PatternSet.empty.insertAll context sources).freeze

end FrozenPatterns

end DialectIR
