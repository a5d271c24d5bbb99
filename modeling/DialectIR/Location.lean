import DialectIR.Text.Join
import DialectIR.Text.Lines

/-! Places in a source text, and excerpts of the source that point at a place. -/

namespace DialectIR

/-- A place in a source text: the number of newlines before it, and the number of characters since
the last of them. -/
structure Location where
  line : Nat
  column : Nat
deriving DecidableEq, Inhabited

namespace Location

/-- The beginning of a source text. -/
def start : Location := ⟨0, 0⟩

/-- The place behind one more character. -/
def next (location : Location) (c : Char) : Location :=
  if c = '\n' then ⟨location.line + 1, 0⟩ else ⟨location.line, location.column + 1⟩

/-- The place behind some more characters. -/
def after (location : Location) (cs : List Char) : Location := cs.foldl next location

def text (location : Location) : String :=
  "loc(:" ++ toString location.line ++ ":" ++ toString location.column ++ ")"

/-- A line of the source by its number, empty if there is none. -/
def sourceLine (source : String) (line : Nat) : String :=
  String.ofList ((Text.splitNewlines source.toList)[line]?.getD [])

/-- The line of the place with its number, after the line before it, and the message in the line
below, behind a caret under the place. -/
def excerpt (location : Location) (source message : String) : String :=
  let numbered (line : Nat) := "\n" ++ toString line ++ "  | " ++ sourceLine source line
  let before := if location.line = 0 then "" else numbered (location.line - 1)
  let margin := location.column + 4 + (toString location.line).length
  "```" ++ before ++ numbered location.line ++ "\n" ++ Text.repeated " " margin ++ "^ "
    ++ message ++ "\n```"

end Location

end DialectIR
