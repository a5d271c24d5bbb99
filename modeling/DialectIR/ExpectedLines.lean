import DialectIR.Text.Join
import DialectIR.Text.Lines
import DialectIR.Text.Quoted

/-! Comparison of an output with the lines that are expected of it, either line by line, or as lines
that have to occur in order. White space around either text does not matter. -/

namespace DialectIR

/-- How an output falls short of what is expected. -/
inductive LineFault where
  /-- The output ends before an expected line. -/
  | missing (number : Nat)
  /-- The output goes on behind the expected lines. -/
  | unexpected (number : Nat)
  | different (actual expected : String)
  /-- An expected line does not occur behind those before it. -/
  | notContained (expected : List String) (number : Nat)
deriving DecidableEq

namespace ExpectedLines

/-- The lines of a text without the white space around it. -/
def linesOf (text : String) : List String := Text.lines (Text.trim text)

/-- The first difference between two lists of lines, numbered from `number` on. -/
def firstDifference? (number : Nat) : List String → List String → Option LineFault
  | [], [] => none
  | [], _ :: _ => some (.missing number)
  | _ :: _, [] => some (.unexpected number)
  | actual :: actuals, expected :: expecteds =>
      if actual = expected then firstDifference? (number + 1) actuals expecteds
      else some (.different actual expected)

/-- Compares two texts line by line. -/
def checkExact (actual expected : String) : Option LineFault :=
  firstDifference? 0 (linesOf actual) (linesOf expected)

/-- The lines behind the first one that contains a text. -/
def linesBehind? (part : List Char) : List String → Option (List String)
  | [] => none
  | line :: rest => if Text.occursIn part line.toList then some rest else linesBehind? part rest

/-- The number of the first expected line that no line contains, each being looked for behind the
line that contains the one before it. Blank expected lines are left out. -/
def firstMissing? (number : Nat) : List String → List String → Option Nat
  | [], _ => none
  | expected :: expecteds, actuals =>
      let part := (Text.trim expected).toList
      if part.isEmpty then firstMissing? (number + 1) expecteds actuals
      else match linesBehind? part actuals with
        | some rest => firstMissing? (number + 1) expecteds rest
        | none => some number

/-- Checks that the expected lines occur in order. -/
def checkContained (actual expected : String) : Option LineFault :=
  (firstMissing? 0 (linesOf expected) (linesOf actual)).map (.notContained (linesOf expected))

end ExpectedLines

/-- The expected lines with a mark on one of them. -/
def LineFault.marked (expected : List String) (number : Nat) : String :=
  let line (item : String × Nat) := item.1 ++ if item.2 = number then "   <== missing" else ""
  Text.joinWith "" (expected.zipIdx.map fun item => "\n" ++ line item)

/-- The message about the fault, for the place that asked for the comparison. -/
def LineFault.message (caller : String) : LineFault → String
  | .missing number => "Line " ++ toString number ++ " not found in output: called from " ++ caller
  | .unexpected number =>
      "Unexpected line " ++ toString number ++ " in output: called from " ++ caller
  | .different actual expected =>
      "assertion `left == right` failed: called from " ++ caller ++ "\n  left: "
        ++ Text.quoted actual
        ++ "\n right: " ++ Text.quoted expected
  | .notContained expected number =>
      "A line is missing from the output:\n```" ++ marked expected number
        ++ "\n```\nwhen called from "
        ++ caller

end DialectIR
