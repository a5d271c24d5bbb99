import DialectIR.Operation.Scoping
import DialectIR.Parse
import DialectIR.Pass.Pipeline

/-! Trials: a module is read and transformed with the dialects and the passes of the library, and
the trial fails if anything does, or if nothing changes. -/

namespace DialectIR

/-- Why a trial fails. -/
inductive TrialFault where
  | failed (error : Error)
  /-- A pass is asked for without the dashes. -/
  | unmarkedPass (argument : String)
  | noChanges
  | misscoped (fault : ScopingFault)

/-- The message about the fault. -/
def TrialFault.message : TrialFault → String
  | .failed error => "called `Result::unwrap()` on an `Err` value: " ++ error.report
  | .unmarkedPass argument => "passes should be prefixed with `--`, got " ++ argument
  | .noChanges => "Expected changes"
  | .misscoped fault => fault.message

namespace Trial

/-- Reads a module, without the white space around it. -/
def read (source : String) : Except TrialFault (Operation × Context) :=
  match parse (Text.trim source) (.ofRegistry .standard) with
  | (.ok op, context) => .ok (op, context)
  | (.error error, _) => .error (.failed (.malformed error))

/-- The module of a source. -/
def parsed (source : String) : Except TrialFault Operation := (read source).map Prod.fst

/-- The module of a source after some passes, which have to change it. -/
def transformed (arguments : List String) (source : String) : Except TrialFault Operation := do
  let (op, context) ← read source
  match arguments.find? fun argument => (Pipeline.flagName? argument).isNone with
  | some argument => throw (.unmarkedPass argument)
  | none =>
      let registry : PassRegistry Unit := .standard Dialect.standardSimplifications
      let outcome := (Pipeline.ofNames arguments).transform registry false op ⟨context, ()⟩
      match outcome.result with
      | .error error => throw (.failed error)
      | .ok false => throw .noChanges
      | .ok true => return outcome.op

/-- Checks the scoping of a module. -/
def verified (op : Operation) : Except TrialFault Operation :=
  match op.verify with
  | .ok () => .ok op
  | .error fault => .error (.misscoped fault)

end Trial

end DialectIR
