import DialectIR.Operation.Print
import DialectIR.Pass

/-! Managers: passes in the order in which they are run. Before a run all passes get ready, unless
they have got ready since the last one was added. -/

namespace DialectIR

/-- A pass that got ready, with the patterns that it applies. -/
structure ReadyPass (σ : Type) where
  pass : Pass σ
  patterns : FrozenPatterns σ

/-- What a run leaves. -/
structure Transformed (σ : Type) where
  /-- Whether the module was changed, or why the run ended early. -/
  result : Except Error Bool
  /-- The module as the last successful pass left it. -/
  op : Operation
  space : Workspace σ

structure PassManager (σ : Type) where
  passes : List (Pass σ) := []
  /-- The passes, all of them, once they have got ready. -/
  ready : Option (List (ReadyPass σ)) := none
  /-- Whether the module is shown before each pass. -/
  printing : Bool := false

namespace PassManager

variable {σ : Type}

/-- The manager with one more pass; none counts as ready any more. -/
def add (manager : PassManager σ) (pass : Pass σ) : PassManager σ :=
  { manager with passes := manager.passes ++ [pass], ready := none }

def enablePrinting (manager : PassManager σ) : PassManager σ := { manager with printing := true }

def size (manager : PassManager σ) : Nat := manager.passes.length

def isEmpty (manager : PassManager σ) : Bool := manager.passes.isEmpty

/-- Makes the dialects available that the passes need, and loads them. -/
def loadDependencies (passes : List (Pass σ)) : Task σ Unit := do
  let (needed, conflict?) := Registry.empty.insertAll (passes.flatMap (·.dependencies))
  if let some found := conflict? then throw (.conflict found)
  let space ← get
  let (context, conflict?) := space.context.append needed
  set { space with context }
  if let some found := conflict? then throw (.conflict found)
  set { space with context := context.loadEach needed.names }

/-- Gets a pass ready. -/
def preparePass (pass : Pass σ) : Task σ (ReadyPass σ) := do
  let patterns ← pass.prepare.adapt (Error.inInitialization pass.argument)
  return ⟨pass, patterns⟩

/-- Gets passes ready in order. -/
def prepareAll : List (Pass σ) → Task σ (List (ReadyPass σ))
  | [] => return []
  | pass :: rest => do
      let ready ← preparePass pass
      return ready :: (← prepareAll rest)

/-- Gets all passes ready. -/
def prepare (manager : PassManager σ) : Task σ (List (ReadyPass σ)) := do
  loadDependencies manager.passes
  prepareAll manager.passes

/-- Runs a pass on a module. -/
def runPass (printing : Bool) (ready : ReadyPass σ) (op : Operation) :
    Task σ (Bool × Operation) := do
  let argument := ready.pass.argument
  if printing then Task.note (.dump argument op.text)
  Task.note (.running argument)
  (ready.pass.run ready.patterns op).adapt (Error.inPass argument)

/-- Runs passes in order up to the first that fails. `changed` tells whether earlier ones have
changed the module. -/
def runReady (printing : Bool) : List (ReadyPass σ) → Bool → Operation → Workspace σ → Transformed σ
  | [], changed, op, space => ⟨.ok changed, op, space⟩
  | ready :: rest, changed, op, space =>
      match (runPass printing ready op).run.run space with
      | (.error error, space) => ⟨.error error, op, space⟩
      | (.ok (changedNow, op), space) => runReady printing rest (changed || changedNow) op space

/-- Runs all passes on a module, getting them ready first if they are not. -/
def run (manager : PassManager σ) (op : Operation) (space : Workspace σ) :
    Transformed σ × PassManager σ :=
  match manager.ready with
  | some ready => (runReady manager.printing ready false op space, manager)
  | none =>
      match manager.prepare.run.run space with
      | (.error error, space) => (⟨.error error, op, space⟩, manager)
      | (.ok ready, space) =>
          (runReady manager.printing ready false op space, { manager with ready := some ready })

end PassManager

end DialectIR
