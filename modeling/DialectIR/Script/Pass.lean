import DialectIR.Pass
import DialectIR.Script

/-! Scripted passes: passes that note when they get ready and when they are run, and that end as
they are told to. -/

namespace DialectIR

/-- A pass that is given by how it ends. -/
structure ScriptedPass where
  argument : String
  dependencies : List Dialect := []
  /-- The error that the pass raises instead of getting ready. -/
  initError : Option String := none
  /-- The error that the pass raises when it is run. -/
  runError : Option String := none
  /-- Whether the pass claims to have changed the module. -/
  changed : Bool := false

namespace ScriptedPass

def note (line : String) : Task Script.Memory Unit := Task.withMemory (modify (·.note line))

/-- Ends with an error if there is one. -/
def raise : Option String → Task Script.Memory Unit
  | some message => throw (.raised message)
  | none => return ()

/-- The pass itself. -/
def pass (script : ScriptedPass) : Pass Script.Memory where
  argument := script.argument
  description := "scripted"
  dependencies := script.dependencies
  prepare := do
    let loaded := (← Task.context).loadedNames
    note ("init " ++ script.argument ++ " " ++ Text.joinWith "," loaded)
    raise script.initError
    return .empty
  run _ op := do
    note ("run " ++ script.argument ++ " " ++ op.name.text)
    raise script.runError
    return (script.changed, op)

end ScriptedPass

end DialectIR
