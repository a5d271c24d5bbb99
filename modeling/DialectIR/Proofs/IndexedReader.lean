import DialectIR.Parse

/-! A second reader of the textual form, which keeps all tokens and the index of the next one. It
can stop for two further reasons: there is no token at an index, or a loop has had as many rounds as
it was allowed. Unlike that of the other reader, the number of rounds is the same for all loops,
however deep they stand. -/

namespace DialectIR.Parse.Indexed

/-- The state of the reader. -/
structure Cursor where
  tokens : List Token
  /-- The place of the next token in the list. -/
  index : Nat := 0
  context : Context
  scopes : List (Dict Ty) := [.empty]
  defined : List String := []

/-- Why the reader stops without a result. -/
inductive Stop where
  | fault (reason : SyntaxFault) (location : Location)
  /-- There is no token at an index. -/
  | outside
  /-- A loop would go on, or operations would stand deeper, than was allowed. -/
  | exhausted

def Stop.of (fault : SyntaxFault × Location) : Stop := .fault fault.1 fault.2

/-- Readers that go by an index. -/
abbrev Walk := ExceptT Stop (StateM Cursor)

variable {α : Type}

def fault (location : Location) (reason : SyntaxFault) : Walk α := throw (.fault reason location)

/-- The token at an index. -/
def peekAt (index : Nat) : Walk Token := do
  match (← get).tokens[index]? with
  | some token => return token
  | none => throw .outside

/-- The next token. -/
def peek : Walk Token := do peekAt (← get).index

/-- The token so many places behind the next one, or else the last one. -/
def peekBehind (count : Nat) : Walk Token := do
  let cursor ← get
  peekAt (min (cursor.index + count) (cursor.tokens.length - 1))

/-- The token before the next one. -/
def previous : Walk Token := do
  let index := (← get).index
  if index = 0 then throw .outside else peekAt (index - 1)

/-- Takes the next token, unless it ends the source. The new index has to be one of the list. -/
def advance : Walk Token := do
  if (← peek).kind ≠ .eof then
    modify fun cursor => { cursor with index := cursor.index + 1 }
    let _ ← peek
  previous

def isNext (kind : Token.Kind) : Walk Bool := return (← peek).kind = kind

/-- Takes the next token if it is of the given class. -/
def accept (kind : Token.Kind) : Walk Bool := do
  if ← isNext kind then
    let _ ← advance
    return true
  else return false

/-- Takes the next token, which has to be of the given class. -/
def expect (kind : Token.Kind) : Walk Token := do
  let token ← peek
  if token.kind = kind then advance else fault token.location (.expected kind token)

/-- Reads items between commas, at least one, in so many rounds. -/
def commaSeparated (item : α → Walk α) : Nat → α → Walk α
  | 0, _ => throw .exhausted
  | rounds + 1, result => do
      let result ← item result
      if ← accept .comma then commaSeparated item rounds result else return result

/-- Reads a use of a visible value. -/
def operand : Walk Value := do
  let token ← expect .value
  let name := unmarked token.lexeme
  match (← get).scopes.findSome? (·.get? name) with
  | some ty => return .named name ty
  | none => fault token.location .unassigned

/-- Makes a value visible in the innermost region. -/
def Cursor.define (cursor : Cursor) (name : String) (ty : Ty) : Cursor :=
  { cursor with
    defined := name :: cursor.defined
    scopes := match cursor.scopes with
      | scope :: outer => scope.insert name ty :: outer
      | [] => [] }

/-- Defines the value that a token names. -/
def define (token : Token) (ty : Ty) : Walk Value := do
  let name := unmarked token.lexeme
  if (← get).defined.contains name then fault token.location (.redefinition token.lexeme)
  else
    modify (·.define name ty)
    return .named name ty

def type : Walk Ty := do
  if ← accept .exclamation then
    return .foreign (← expect .bare).lexeme
  else
    let token ← expect .bare
    match Ty.ofKeyword? token.lexeme with
    | some ty => return ty
    | none => fault token.location (.unknownType token.lexeme)

/-- Reads the type behind the colon that may follow a literal. -/
def literalType (default : Ty) : Walk Ty := do
  if ← accept .colon then type else return default

/-- Reads an integer literal behind its sign. -/
def integerAttribute (negative : Bool) : Walk Attribute := do
  let token ← expect .integer
  match Text.readInt64? (if negative then "-" ++ token.lexeme else token.lexeme) with
  | none => fault token.location .integerRange
  | some value =>
      let ty ← literalType (.int 64)
      if ty.width?.all (fitsWidth value) then return .wrapped value ty
      else fault token.location (.integerRangeOf ty)

/-- Reads a floating point literal behind its sign. -/
def floatAttribute (negative : Bool) : Walk Attribute := do
  let token ← expect .float
  match Binary64.read? token.lexeme with
  | none => fault token.location .invalidFloat
  | some value =>
      let ty ← literalType (.float 64)
      return .float (if negative then value.neg else value) ty

/-- Reads the value of an attribute. -/
def attributeValue : Walk Attribute := do
  let token ← peek
  match token.kind with
  | .minus => do
      let _ ← advance
      if ← isNext .float then floatAttribute true else integerAttribute true
  | .integer => integerAttribute false
  | .float => floatAttribute false
  | .true => do
      let _ ← advance
      return .bool true
  | .false => do
      let _ ← advance
      return .bool false
  | .string => do
      let _ ← advance
      return .string (unquoted token.lexeme)
  | .symbol => do
      let _ ← advance
      return .symbol (unmarked token.lexeme)
  | .bare | .exclamation => return .type (← type)
  | _ => fault token.location .noAttribute

/-- Reads an entry of a dictionary into the entries before it. -/
def attributeEntry (attributes : Attributes) : Walk Attributes := do
  let name ← expect .bare
  let _ ← expect .equal
  let value ← attributeValue
  if attributes.contains name.lexeme then fault name.location (.duplicateAttribute name.lexeme)
  else return attributes.insert name.lexeme value

/-- Reads a dictionary of attributes in braces. -/
def attributes (limit : Nat) : Walk Attributes := do
  let _ ← expect .lbrace
  let attributes ← commaSeparated attributeEntry limit .empty
  let _ ← expect .rbrace
  return attributes

/-- Whether a dictionary comes next, and not a region. -/
def startsAttributes : Walk Bool := do
  if ← isNext .lbrace then
    if (← peekBehind 1).kind = .bare then return (← peekBehind 2).kind = .equal else return false
  else return false

/-- Reads a dictionary of attributes if one comes next. -/
def attributes? (limit : Nat) : Walk Attributes := do
  if ← startsAttributes then attributes limit else return .empty

/-! ### Operations -/

/-- Checks that an operation may be used, loading its dialect. -/
def checkName (name : OpName) (token : Token) : Walk Unit := do
  modify fun cursor => { cursor with context := cursor.context.load name.dialect }
  match nameFault? (← get).context name with
  | some reason => fault token.location reason
  | none => return ()

/-- Reads the names of the results and the equals sign behind them, if the operation has results. -/
def resultTokens (limit : Nat) : Walk (List Token) := do
  if ← isNext .value then
    let tokens ← commaSeparated (fun tokens => return tokens ++ [← expect .value]) limit []
    let _ ← expect .equal
    return tokens
  else return []

/-- Reads the operands, which start on the line of the name. -/
def operands (line limit : Nat) : Walk (List Value) := do
  let next ← peek
  if next.kind = .value && next.location.line = line then
    commaSeparated (fun values => return values ++ [← operand]) limit []
  else return []

/-- Reads the types of the results behind a colon. -/
def resultTypes (limit : Nat) : Walk (List Ty) := do
  if ← accept .colon then
    commaSeparated (fun types => return types ++ [← type]) limit []
  else return []

/-- Checks that there are as many types as results. -/
def checkCount (token : Token) (results types : Nat) : Walk Unit :=
  if types = results then return () else fault token.location (.resultCount results types)

/-- Defines results of the given types in turn. -/
def defineAll : List (Token × Ty) → Walk (List Value)
  | [] => return []
  | (token, ty) :: rest => do
      let value ← define token ty
      return value :: (← defineAll rest)

/-- Reads operations up to a token of the given class, which is left, in fewer than so many
rounds. -/
def operationsUntil (close : Token.Kind) (operation : Walk Operation) : Nat → Walk (List Operation)
  | 0 => throw .exhausted
  | rounds + 1 => do
      if ← isNext close then return []
      let op ← operation
      return op :: (← operationsUntil close operation rounds)

/-- Reads a region in braces. -/
def region (operation : Walk Operation) (limit : Nat) : Walk (List Operation) := do
  let _ ← expect .lbrace
  modify fun cursor => { cursor with scopes := .empty :: cursor.scopes }
  let ops ← operationsUntil .rbrace operation limit
  let _ ← expect .rbrace
  modify fun cursor => { cursor with scopes := cursor.scopes.tail }
  return ops

/-- Reads a region if one comes next. -/
def region? (operation : Walk Operation) (limit : Nat) : Walk (Option (List Operation)) := do
  if ← isNext .lbrace then some <$> region operation limit else return none

/-- Reads an operation of so many levels at most. -/
def operation (limit : Nat) : Nat → Walk Operation
  | 0 => throw .exhausted
  | levels + 1 => do
      let tokens ← resultTokens limit
      let nameToken ← expect .bare
      let name := operationName nameToken.lexeme
      checkName name nameToken
      let operands ← operands nameToken.location.line limit
      let attributes ← attributes? limit
      let types ← resultTypes limit
      checkCount nameToken tokens.length types.length
      let region ← region? (operation limit levels) limit
      let results ← defineAll (tokens.zip types)
      return { name, operands, results, attributes, region }

/-- Reads a module up to the end of its tokens. -/
def module (limit : Nat) : Walk Operation :=
  asModule <$> operationsUntil .eof (operation limit limit) limit

end DialectIR.Parse.Indexed
