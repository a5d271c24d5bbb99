import DialectIR.Text.Letter
import DialectIR.Token

/-! Scanning: a source text cut into tokens, each as long as possible, and layout between them. -/

namespace DialectIR

/-- Why a source text is not a sequence of tokens. -/
inductive Token.Fault where
  | unterminatedString
  | unexpected (c : Char)
deriving DecidableEq

/-- The message about the fault. -/
def Token.Fault.message : Token.Fault → String
  | .unterminatedString => "Unterminated string"
  | .unexpected c => "Scanning failed starting at: " ++ String.singleton c

namespace Token

/-- The characters that begin a name. -/
def startsName (c : Char) : Bool := Text.isLetter c || c = '_' || c = '@' || c = '%'

/-- The characters that go on with a name. -/
def continuesName (c : Char) : Bool :=
  Text.isLetter c || Text.isNumber c || c = '_' || c = '.' || c = '$'

/-- The characters between the quotes of a string. There are no escapes. -/
def inString (c : Char) : Bool := c ≠ '"' && c ≠ '\n'

/-- A piece of the source: the class of its token, none for layout, and how many characters it takes
besides its first. -/
structure Piece where
  kind? : Option Kind
  more : Nat

/-- The piece of a name with the given characters. -/
def namePiece (name : List Char) : Piece :=
  let kind : Kind :=
    if name = "true".toList then .true
    else if name = "false".toList then .false
    else match name with
      | '@' :: _ => .symbol
      | '%' :: _ => .value
      | _ => .bare
  ⟨some kind, name.length - 1⟩

/-- The piece of a number that goes on with the given characters: digits, and a point only with a
digit behind it. -/
def numberPiece (rest : List Char) : Piece :=
  let whole := rest.takeWhile Char.isDigit
  match rest.dropWhile Char.isDigit with
  | '.' :: fraction =>
      let digits := fraction.takeWhile Char.isDigit
      if digits.isEmpty then ⟨some .integer, whole.length⟩
      else ⟨some .float, whole.length + 1 + digits.length⟩
  | _ => ⟨some .integer, whole.length⟩

/-- The piece that a character begins, in view of the characters behind it. -/
def pieceAt (c : Char) (rest : List Char) : Except Fault Piece :=
  match c with
  | '(' => .ok ⟨some .lparen, 0⟩
  | ')' => .ok ⟨some .rparen, 0⟩
  | '\x7b' => .ok ⟨some .lbrace, 0⟩
  | '\x7d' => .ok ⟨some .rbrace, 0⟩
  | ':' => .ok ⟨some .colon, 0⟩
  | ',' => .ok ⟨some .comma, 0⟩
  | '=' => .ok ⟨some .equal, 0⟩
  | '!' => .ok ⟨some .exclamation, 0⟩
  | '-' => .ok ⟨some .minus, 0⟩
  | ' ' | '\r' | '\t' | '\n' => .ok ⟨none, 0⟩
  | '/' =>
      if rest.head? = some '/' then .ok ⟨none, (rest.takeWhile (· ≠ '\n')).length⟩
      else .error (.unexpected c)
  | '"' =>
      let body := rest.takeWhile inString
      if rest[body.length]? = some '"' then .ok ⟨some .string, body.length + 1⟩
      else .error .unterminatedString
  | c =>
      if c.isDigit then .ok (numberPiece rest)
      else if startsName c then .ok (namePiece (c :: rest.takeWhile continuesName))
      else .error (.unexpected c)

/-- The tokens of the characters from a place on, closed by the end of the source. -/
def scanFrom (location : Location) : List Char → Except (Fault × Location) (List Token)
  | [] => .ok [⟨.eof, "", location⟩]
  | c :: rest =>
      match pieceAt c rest with
      | .error fault => .error (fault, location)
      | .ok piece =>
          let taken := c :: rest.take piece.more
          match scanFrom (location.after taken) (rest.drop piece.more) with
          | .error fault => .error fault
          | .ok tokens =>
              match piece.kind? with
              | some kind => .ok (⟨kind, String.ofList taken, location⟩ :: tokens)
              | none => .ok tokens
termination_by cs => cs.length
decreasing_by simp only [List.length_drop, List.length_cons]; omega

/-- The tokens of a source text. -/
def scan (source : String) : Except (Fault × Location) (List Token) :=
  scanFrom .start source.toList

end Token

end DialectIR
