import DialectIR.Registry
import DialectIR.Rewrite
import DialectIR.SyntaxError

/-! Why reading or transforming a module fails. An error may have a cause, which may have
another. -/

namespace DialectIR

inductive Error where
  | malformed (error : SyntaxError)
  | conflict (found : NamespaceConflict)
  | unknownPass (name : String)
  | refused (refusal : Refusal)
  /-- An operation without results cannot become a constant. -/
  | noResult (op : OpName)
  /-- A pattern claims success, but has recorded nothing. -/
  | unchanged (pattern : String) (op : OpName)
  | erasedInUse (result : Value)
  /-- Replacing a value leads back to a value that was replaced. -/
  | endlessReplacement (value : Value)
  /-- Operations are nested too deeply while they are rewritten. -/
  | nestedTooDeeply
  /-- An error that a pattern or a pass of the user raised. -/
  | raised (message : String)
  | inPattern (pattern : String) (op : OpName) (cause : Error)
  | inPass (pass : String) (cause : Error)
  | inInitialization (pass : String) (cause : Error)

namespace Error

/-- The message without the causes. -/
def message : Error → String
  | .malformed error => error.message
  | .conflict found => found.message
  | .unknownPass name => "Unknown pass: " ++ name
  | .refused refusal => refusal.message
  | .noResult op => "Expected " ++ op.text ++ " to have a result"
  | .unchanged pattern op =>
      "Pattern " ++ pattern ++ " reported success on " ++ op.text ++ " without changing the IR"
  | .erasedInUse result =>
      "Erased an operation while its result " ++ result.text ++ " is still in use"
  | .endlessReplacement value => "Replacing " ++ value.text ++ " does not end"
  | .nestedTooDeeply => "Operations are nested too deeply"
  | .raised message => message
  | .inPattern pattern op _ => "Pattern " ++ pattern ++ " failed on " ++ op.text
  | .inPass pass _ => "Pass " ++ pass ++ " failed"
  | .inInitialization pass _ => "Failed to initialize pass " ++ pass

/-- The messages of the causes, the nearest first. -/
def causes : Error → List String
  | .inPattern _ _ cause | .inPass _ cause | .inInitialization _ cause =>
    cause.message :: cause.causes
  | _ => []

/-- The messages of the error and of its causes. -/
def chain (error : Error) : List String := error.message :: error.causes

/-- A text whose lines behind the first start with a margin. -/
def withMargin (margin text : String) : String :=
  Text.joinWith ("\n" ++ margin) ((Text.splitNewlines text.toList).map String.ofList)

/-- The causes as they are listed from a number on, the numbers aligned to the right. -/
def numberedFrom (number : Nat) : List String → String
  | [] => ""
  | cause :: rest =>
      let digits := toString number
      "\n" ++ Text.repeated " " (5 - digits.length) ++ digits ++ ": " ++ withMargin "       " cause
        ++ numberedFrom (number + 1) rest

/-- The message with all causes below. -/
def report (error : Error) : String :=
  match error.causes with
  | [] => error.message
  | [cause] => error.message ++ "\n\nCaused by:\n    " ++ withMargin "    " cause
  | causes => error.message ++ "\n\nCaused by:" ++ numberedFrom 0 causes

end Error

end DialectIR
