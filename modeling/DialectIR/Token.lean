import DialectIR.Location

/-! The tokens of the textual form. -/

namespace DialectIR

/-- The classes of tokens. -/
inductive Token.Kind where
  /-- The end of the source. -/
  | eof
  /-- A name such as `foo`, `arith.addi` or `i64`. -/
  | bare
  /-- A symbol such as `@foo`. -/
  | symbol
  /-- A value such as `%foo`. -/
  | value
  | float
  | integer
  | string
  | colon
  | comma
  | equal
  | lparen
  | rparen
  | lbrace
  | rbrace
  | minus
  | exclamation
  | true
  | false
deriving DecidableEq, Inhabited

/-- The name of the class in messages. -/
def Token.Kind.text : Token.Kind → String
  | .eof => "Eof"
  | .bare => "BareIdentifier"
  | .symbol => "AtIdentifier"
  | .value => "PercentIdentifier"
  | .float => "FloatLiteral"
  | .integer => "Integer"
  | .string => "String"
  | .colon => "Colon"
  | .comma => "Comma"
  | .equal => "Equal"
  | .lparen => "LParen"
  | .rparen => "RParen"
  | .lbrace => "LBrace"
  | .rbrace => "RBrace"
  | .minus => "Minus"
  | .exclamation => "Exclamation"
  | .true => "KwTrue"
  | .false => "KwFalse"

/-- All classes. -/
def Token.Kind.all : List Token.Kind :=
  [.eof, .bare, .symbol, .value, .float, .integer, .string, .colon, .comma, .equal,
    .lparen, .rparen, .lbrace, .rbrace, .minus, .exclamation, .true, .false]

/-- The class of a name. -/
def Token.Kind.ofText? (name : String) : Option Token.Kind := all.find? (·.text = name)

/-- A token: its class, the characters it was read from, and the place of the first of them. -/
structure Token where
  kind : Token.Kind
  lexeme : String
  location : Location
deriving DecidableEq, Inhabited

/-- How the token is listed. -/
def Token.text (token : Token) : String :=
  token.kind.text ++ " \"" ++ token.lexeme ++ "\" " ++ token.location.text

end DialectIR
