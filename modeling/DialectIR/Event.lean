import DialectIR.Text.Join

/-! Events: what a context records while modules are read and transformed in it, and how the command
line shows it. -/

namespace DialectIR

/-- Something worth a line in the log, or the text of a module before a pass. -/
inductive Event where
  | loading (dialect : String)
  | collected (patterns : Nat)
  | running (pass : String)
  | iteration (number : Nat) (op : String)
  | matching (depth : Nat) (op pattern : String)
  | success (depth : Nat)
  | removing (op : String)
  | notConverged (op : String) (rewrites maxIterations : Nat)
  | dump (pass text : String)
deriving DecidableEq

namespace Event

/-- How much an event matters. -/
inductive Level where
  | debug
  | info
  | warn
deriving DecidableEq

/-- The name of the level, aligned to the right. -/
def Level.text : Level → String
  | .debug => "DEBUG"
  | .info => " INFO"
  | .warn => " WARN"

/-- The level and the message of an event of the log; a dump is none. -/
def logged? : Event → Option (Level × String)
  | .loading dialect => some (.debug, "Loading dialect " ++ dialect)
  | .collected patterns =>
      some (.debug, "Collected " ++ toString patterns ++ " canonicalization patterns")
  | .running pass => some (.info, "Running pass " ++ pass)
  | .iteration number op =>
      some (.debug, "Greedy rewrite iteration " ++ toString number ++ " on " ++ op)
  | .matching depth op pattern =>
      some (.debug, Text.indentation depth ++ "Matching " ++ op ++ " with " ++ pattern)
  | .success depth => some (.debug, Text.indentation depth ++ "--> Success")
  | .removing op => some (.debug, "Removing dead operation " ++ op)
  | .notConverged op rewrites maxIterations =>
      some (.warn, "Greedy rewrite on " ++ op ++ " did not converge (" ++ toString rewrites
        ++ " rewrites, max " ++ toString maxIterations ++ " iterations)")
  | .dump _ _ => none

/-- What the event adds to the error stream: a dump always, a line of the log if asked for. -/
def shown (withLog : Bool) (event : Event) : String :=
  match event with
  | .dump pass text => "// ----- // IR Dump Before " ++ pass ++ " // ----- //\n" ++ text ++ "\n\n"
  | event =>
      match event.logged? with
      | some (level, message) => if withLog then level.text ++ " " ++ message ++ "\n" else ""
      | none => ""

end Event

end DialectIR
