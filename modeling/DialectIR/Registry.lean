import DialectIR.Dialect
import DialectIR.Text.Quoted

/-! Registries: the dialects that can be loaded, each under the namespace that it claims. -/

namespace DialectIR

/-- Two different dialects claim one namespace. -/
structure NamespaceConflict where
  dialect : String
deriving DecidableEq

/-- The message about the conflict. -/
def NamespaceConflict.message (conflict : NamespaceConflict) : String :=
  "Tried to register a different dialect for namespace `" ++ conflict.dialect ++ "`"

/-- Dialects by namespace. -/
structure Registry where
  entries : Dict Dialect := .empty
  named : ∀ name dialect, entries.get? name = some dialect → dialect.name = name := by simp

namespace Registry

/-- The registry without dialects. -/
def empty : Registry := {}

instance : Inhabited Registry := ⟨empty⟩

/-- The dialect that is registered for a namespace. -/
def get? (registry : Registry) (name : String) : Option Dialect := registry.entries.get? name

def contains (registry : Registry) (name : String) : Bool := registry.entries.contains name

/-- The namespaces in increasing order. -/
def names (registry : Registry) : List String := registry.entries.keys

/-- The dialects in the order of their namespaces. -/
def dialects (registry : Registry) : List Dialect := registry.entries.entries.map (·.2)

def size (registry : Registry) : Nat := registry.entries.size

/-- The registry with one more dialect under its namespace. -/
def add (registry : Registry) (dialect : Dialect) : Registry where
  entries := registry.entries.insert dialect.name dialect
  named name other h := by
    rw [Dict.get?_insert] at h
    split at h
    next heq => rw [← Option.some.inj h, heq]
    next => exact registry.named name other h

/-- Registers a dialect. To register it once more is fine; a namespace that another dialect has is
refused. -/
def insert (registry : Registry) (dialect : Dialect) : Except NamespaceConflict Registry :=
  match registry.get? dialect.name with
  | some existing => if existing = dialect then .ok registry else .error ⟨dialect.name⟩
  | none => .ok (registry.add dialect)

/-- Registers dialects one after the other, up to the first conflict; what was registered before it
stays. -/
def insertAll (registry : Registry) : List Dialect → Registry × Option NamespaceConflict
  | [] => (registry, none)
  | dialect :: rest =>
      match registry.insert dialect with
      | .ok registry => insertAll registry rest
      | .error conflict => (registry, some conflict)

/-- Registers all dialects of another registry, in the order of their namespaces. -/
def append (registry other : Registry) : Registry × Option NamespaceConflict :=
  registry.insertAll other.dialects

/-- The list of namespaces as it is shown. -/
def listing (registry : Registry) : String :=
  "[" ++ Text.joinWith ", " (registry.names.map Text.quoted) ++ "]"

/-- The registry of the dialects of the library. -/
def standard : Registry := (empty.insertAll [.builtin, .func, .arith, .llvm]).1

end Registry

end DialectIR
