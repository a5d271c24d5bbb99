import DialectIR.Event
import DialectIR.Registry

/-! Contexts: the dialects that are available and the instances of them that are loaded. Dialects
are loaded when they are first asked for. -/

namespace DialectIR

/-- A loaded dialect. The serial number tells the instances of a context apart. -/
structure Instance where
  dialect : Dialect
  serial : Nat
deriving DecidableEq, Inhabited

/-- The context in which modules are read and transformed. -/
structure Context where
  registry : Registry := .empty
  loaded : Dict Instance := .empty
  allowsUnregistered : Bool := false
  /-- What happened in the context, the latest first. -/
  journal : List Event := []
deriving Inhabited

namespace Context

/-- A context in which the dialects of a registry are available. -/
def ofRegistry (registry : Registry) : Context := { registry }

/-- The namespaces of the loaded dialects in increasing order. -/
def loadedNames (context : Context) : List String := context.loaded.keys

/-- The namespaces of the available dialects in increasing order. -/
def availableNames (context : Context) : List String := context.registry.names

def loaded? (context : Context) (name : String) : Option Instance := context.loaded.get? name

def note (context : Context) (event : Event) : Context :=
  { context with journal := event :: context.journal }

/-- The context without its journal: all that patterns may look at. -/
def withoutJournal (context : Context) : Context := { context with journal := [] }

/-- The context after the dialect of a namespace was asked for: loaded if it is available. -/
def load (context : Context) (name : String) : Context :=
  match context.loaded? name, context.registry.get? name with
  | none, some dialect =>
      { context with
        loaded := context.loaded.insert name ⟨dialect, context.loaded.size⟩
        journal := .loading name :: context.journal }
  | _, _ => context

/-- The dialect of a namespace, as it is loaded or would be loaded. -/
def dialect? (context : Context) (name : String) : Option Dialect :=
  match context.loaded? name with
  | some loaded => some loaded.dialect
  | none => context.registry.get? name

/-- Asks for the dialects of some namespaces in turn. -/
def loadEach (context : Context) (names : List String) : Context := names.foldl load context

/-- Loads all that is available. -/
def loadAll (context : Context) : Context := context.loadEach context.availableNames

/-- Makes the dialects of a registry available, up to the first conflict. -/
def append (context : Context) (registry : Registry) : Context × Option NamespaceConflict :=
  let (registry, conflict?) := context.registry.append registry
  ({ context with registry }, conflict?)

/-- Registers a dialect and loads it. -/
def loadDialect (context : Context) (dialect : Dialect) : Except NamespaceConflict Context :=
  match context.registry.insert dialect with
  | .ok registry => .ok ({ context with registry }.load dialect.name)
  | .error conflict => .error conflict

/-- The definition of an operation by its dialect. -/
def definition? (context : Context) (name : OpName) : Option OpDefinition :=
  (context.dialect? name.dialect).bind (·.operation? name.short)

/-- Whether an operation is known to have no side effects. -/
def isPure (context : Context) (name : OpName) : Bool :=
  match context.definition? name with
  | some definition => definition.pure
  | none => false

end Context

end DialectIR
