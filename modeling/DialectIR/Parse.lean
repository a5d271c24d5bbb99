import DialectIR.Context
import DialectIR.SyntaxError

/-! Reading a module from its text. Every operation has to be defined by a dialect of the context,
unless the context allows unregistered dialects; a dialect is loaded as soon as one of its
operations is met. Values are visible from their definition to the end of the region that it stands
in. -/

namespace DialectIR

namespace Parse

/-- The state of the reader. There is always a next token: the last one ends the source and
stays. -/
structure State where
  /-- The next token. -/
  here : Token
  later : List Token
  context : Context
  /-- The types of the visible values, by region, the innermost first. -/
  scopes : List (Dict Ty) := [.empty]
  /-- The names of all values defined so far. -/
  defined : List String := []

/-- Readers: they end with a result or with a fault at a place, and leave a state in either case. -/
abbrev Reader := ExceptT (SyntaxFault × Location) (StateM State)

/-- The state behind the next token. -/
def State.advance (state : State) : State :=
  if state.here.kind = .eof then state
  else match state.later with
    | token :: later => { state with here := token, later }
    | [] => state

def fault {α : Type} (location : Location) (fault : SyntaxFault) : Reader α :=
  throw (fault, location)

/-- Whether the next token is of the given class. -/
def isNext (kind : Token.Kind) : Reader Bool := return (← get).here.kind = kind

/-- Takes the next token if it is of the given class. -/
def accept (kind : Token.Kind) : Reader Bool := do
  if ← isNext kind then
    modify State.advance
    return true
  else return false

/-- Takes the next token, which has to be of the given class. -/
def expect (kind : Token.Kind) : Reader Token := do
  let token := (← get).here
  if token.kind = kind then
    modify State.advance
    return token
  else fault token.location (.expected kind token)

/-- Reads items between commas, at least one and at most `steps`, from an initial result on. -/
def commaSeparated {α : Type} (item : α → Reader α) : Nat → α → Reader α
  | 0, _ => do fault (← get).here.location .outOfSteps
  | steps + 1, result => do
      let result ← item result
      if ← accept .comma then commaSeparated item steps result else return result

/-- The text without its first character. -/
def unmarked (lexeme : String) : String := String.ofList (lexeme.toList.drop 1)

/-- Reads a use of a visible value. -/
def operand : Reader Value := do
  let token ← expect .value
  let name := unmarked token.lexeme
  match (← get).scopes.findSome? (·.get? name) with
  | some ty => return .named name ty
  | none => fault token.location .unassigned

/-- Makes a value visible in the innermost region. -/
def State.define (state : State) (name : String) (ty : Ty) : State :=
  { state with
    defined := name :: state.defined
    scopes := match state.scopes with
      | scope :: outer => scope.insert name ty :: outer
      | [] => [] }

/-- Defines the value that a token names. -/
def define (token : Token) (ty : Ty) : Reader Value := do
  let name := unmarked token.lexeme
  if (← get).defined.contains name then fault token.location (.redefinition token.lexeme)
  else
    modify (·.define name ty)
    return .named name ty

/-- Reads a type: a builtin one, or a foreign one behind an exclamation mark. -/
def type : Reader Ty := do
  if ← accept .exclamation then
    return .foreign (← expect .bare).lexeme
  else
    let token ← expect .bare
    match Ty.ofKeyword? token.lexeme with
    | some ty => return ty
    | none => fault token.location (.unknownType token.lexeme)

/-- Reads the type behind the colon that may follow a literal. -/
def literalType (default : Ty) : Reader Ty := do
  if ← accept .colon then type else return default

/-- Whether an integer literal may stand for a value of a type of this width: it fits with or
without a sign. -/
def fitsWidth (value : Int64) (bits : UInt32) : Bool :=
  let half : Nat := 1 <<< (bits.toNat - 1)
  64 ≤ bits || (-(half : Int) ≤ value.toInt && value.toInt < 2 * (half : Int))

/-- Reads an integer literal behind its sign. -/
def integerAttribute (negative : Bool) : Reader Attribute := do
  let token ← expect .integer
  match Text.readInt64? (if negative then "-" ++ token.lexeme else token.lexeme) with
  | none => fault token.location .integerRange
  | some value =>
      let ty ← literalType (.int 64)
      if ty.width?.all (fitsWidth value) then return .wrapped value ty
      else fault token.location (.integerRangeOf ty)

/-- Reads a floating point literal behind its sign. -/
def floatAttribute (negative : Bool) : Reader Attribute := do
  let token ← expect .float
  match Binary64.read? token.lexeme with
  | none => fault token.location .invalidFloat
  | some value =>
      let ty ← literalType (.float 64)
      return .float (if negative then value.neg else value) ty

/-- The text without quotes at its ends. -/
def unquoted (lexeme : String) : String :=
  let isQuote (c : Char) : Bool := c = '"'
  String.ofList ((lexeme.toList.dropWhile isQuote).reverse.dropWhile isQuote).reverse

/-- Reads the value of an attribute. -/
def attributeValue : Reader Attribute := do
  let token := (← get).here
  match token.kind with
  | .minus => do
      modify State.advance
      if ← isNext .float then floatAttribute true else integerAttribute true
  | .integer => integerAttribute false
  | .float => floatAttribute false
  | .true => do
      modify State.advance
      return .bool true
  | .false => do
      modify State.advance
      return .bool false
  | .string => do
      modify State.advance
      return .string (unquoted token.lexeme)
  | .symbol => do
      modify State.advance
      return .symbol (unmarked token.lexeme)
  | .bare | .exclamation => return .type (← type)
  | _ => fault token.location .noAttribute

/-- Reads an entry of a dictionary into the entries before it. -/
def attributeEntry (attributes : Attributes) : Reader Attributes := do
  let name ← expect .bare
  let _ ← expect .equal
  let value ← attributeValue
  if attributes.contains name.lexeme then fault name.location (.duplicateAttribute name.lexeme)
  else return attributes.insert name.lexeme value

/-- Reads a dictionary of attributes in braces. -/
def attributes (steps : Nat) : Reader Attributes := do
  let _ ← expect .lbrace
  let attributes ← commaSeparated attributeEntry steps .empty
  let _ ← expect .rbrace
  return attributes

/-- Whether a dictionary comes next, and not a region: a name and an equals sign follow the
brace. -/
def State.startsAttributes (state : State) : Bool :=
  state.here.kind = .lbrace && match state.later with
    | first :: second :: _ => first.kind = .bare && second.kind = .equal
    | _ => false

/-- Reads a dictionary of attributes if one comes next. -/
def attributes? (steps : Nat) : Reader Attributes := do
  if (← get).startsAttributes then attributes steps else return .empty

/-! ### Operations -/

/-- Why an operation may not be used in a context: its dialect is unknown or does not define it. -/
def nameFault? (context : Context) (name : OpName) : Option SyntaxFault :=
  if context.allowsUnregistered then none
  else match context.dialect? name.dialect with
    | none => some (.unknownDialect name)
    | some dialect =>
        if (dialect.operation? name.short).isSome then none
        else some (.undefinedOperation name dialect.name)

/-- Checks that an operation may be used, loading its dialect. -/
def checkName (name : OpName) (token : Token) : Reader Unit := do
  modify fun state => { state with context := state.context.load name.dialect }
  match nameFault? (← get).context name with
  | some reason => fault token.location reason
  | none => return ()

/-- Reads operations up to a token of the given class, which is left. -/
def operationsUntil (close : Token.Kind) (operation : Reader Operation) :
    Nat → Reader (List Operation)
  | 0 => do fault (← get).here.location .outOfSteps
  | steps + 1 => do
      if ← isNext close then return []
      let op ← operation
      return op :: (← operationsUntil close operation steps)

/-- Reads a region in braces. What it defines is not visible behind it. -/
def region (operation : Reader Operation) (steps : Nat) : Reader (List Operation) := do
  let _ ← expect .lbrace
  modify fun state => { state with scopes := .empty :: state.scopes }
  let ops ← operationsUntil .rbrace operation steps
  let _ ← expect .rbrace
  modify fun state => { state with scopes := state.scopes.tail }
  return ops

/-- Reads a region if one comes next. -/
def region? (operation : Reader Operation) (steps : Nat) : Reader (Option (List Operation)) := do
  if ← isNext .lbrace then some <$> region operation steps else return none

/-- Reads the names of the results and the equals sign behind them, if the operation has results. -/
def resultTokens (steps : Nat) : Reader (List Token) := do
  if ← isNext .value then
    let tokens ← commaSeparated (fun tokens => return tokens ++ [← expect .value]) steps []
    let _ ← expect .equal
    return tokens
  else return []

/-- Reads the operands. They start on the line of the name, or else the results of the next
operation would be taken for them. -/
def operands (line steps : Nat) : Reader (List Value) := do
  let next := (← get).here
  if next.kind = .value && next.location.line = line then
    commaSeparated (fun values => return values ++ [← operand]) steps []
  else return []

/-- Reads the types of the results behind a colon. -/
def resultTypes (steps : Nat) : Reader (List Ty) := do
  if ← accept .colon then commaSeparated (fun types => return types ++ [← type]) steps []
    else return []

/-- Checks that there are as many types as results. -/
def checkCount (token : Token) (results types : Nat) : Reader Unit :=
  if types = results then return () else fault token.location (.resultCount results types)

/-- Defines results of the given types in turn. -/
def defineAll : List (Token × Ty) → Reader (List Value)
  | [] => return []
  | (token, ty) :: rest => do
      let value ← define token ty
      return value :: (← defineAll rest)

/-- The name of an operation as it is written; a module may leave out its dialect. -/
def operationName (word : String) : OpName := if word = "module" then "builtin.module" else word

/-- Reads an operation: results, name, operands, attributes, types and region. Its results are
visible only behind it. -/
def operation : Nat → Reader Operation
  | 0 => do fault (← get).here.location .outOfSteps
  | steps + 1 => do
      let tokens ← resultTokens (steps + 1)
      let nameToken ← expect .bare
      let name := operationName nameToken.lexeme
      checkName name nameToken
      let operands ← operands nameToken.location.line (steps + 1)
      let attributes ← attributes? (steps + 1)
      let types ← resultTypes (steps + 1)
      checkCount nameToken tokens.length types.length
      let region ← region? (operation steps) (steps + 1)
      let results ← defineAll (tokens.zip types)
      return { name, operands, results, attributes, region }

/-- The module of some operations: the only one if it is a module, else a new module around them. -/
def asModule : List Operation → Operation
  | [op] => if op.name = "builtin.module" then op else .module [op]
  | ops => .module ops

/-- Reads the operations of a source text from its tokens. There is a step for each token. -/
def topLevel (tokens : List Token) (context : Context) :
    Except (SyntaxFault × Location) (List Operation) × Context :=
  match tokens with
  | [] => (.error (.outOfSteps, .start), context)
  | here :: later =>
      let steps := tokens.length
      let (result, state) := operationsUntil .eof (operation steps) steps |>.run.run
        { here, later, context }
      (result, state.context)

/-- Reads a module from its tokens. -/
def module (tokens : List Token) (context : Context) :
    Except (SyntaxFault × Location) Operation × Context :=
  let (result, context) := topLevel tokens context
  (asModule <$> result, context)

end Parse

/-- Reads a module from its text. Dialects that were met are loaded, also when reading fails. -/
def parse (source : String) (context : Context) : Except SyntaxError Operation × Context :=
  match Token.scan source with
  | .error (fault, location) => (.error ⟨source, location, .token fault⟩, context)
  | .ok tokens =>
      let (result, context) := Parse.module tokens context
      (result.mapError fun (fault, location) => ⟨source, location, fault⟩, context)

end DialectIR
