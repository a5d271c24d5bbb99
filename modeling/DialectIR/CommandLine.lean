import DialectIR.FileTree
import DialectIR.Parse
import DialectIR.Pass.Pipeline

/-! The command line: a module is read from a file or from the standard input, transformed by the
passes that are asked for, and printed. -/

namespace DialectIR

namespace CommandLine

/-- The passes that can be asked for. -/
def passes : PassRegistry Unit := .standard Dialect.standardSimplifications

/-- The options besides the passes. -/
def ownFlags : List Flag :=
  [⟨"allow-unregistered-dialect", "Accept operations of dialects that are not registered"⟩,
   ⟨"debug", "Print debug logs to stderr"⟩]

/-- All options that are either given or not, where the passes of a registry can be asked for. -/
def flags {σ : Type} (registry : PassRegistry σ) : List Flag := registry.flags ++ ownFlags

/-- What the arguments say. -/
structure Options where
  /-- The options that are given. -/
  given : List String := []
  /-- The input file, if one is named. -/
  input : Option String := none
deriving DecidableEq

/-- What the arguments ask for. -/
inductive Request where
  | help
  | version
  /-- An argument that cannot be accepted. -/
  | misuse (argument : String)
  | work (options : Options)
deriving DecidableEq

/-- Takes arguments as input files, of which there may be one. -/
def readFiles (options : Options) : List String → Request
  | [] => .work options
  | argument :: rest =>
      if options.input.isSome then .misuse argument
      else readFiles { options with input := some argument } rest

/-- Reads arguments from left to right, with flags of the given names. Whatever decides the request
first counts. A flag takes no value behind an equals sign, and behind two dashes there are no
options. -/
def readArguments (known : List String) (options : Options) : List String → Request
  | [] => .work options
  | argument :: rest =>
      match argument.toList with
      | ['-', '-'] => readFiles options rest
      | '-' :: '-' :: cs =>
          let name := String.ofList cs
          if known.contains name && !cs.contains '=' && !options.given.contains name then
            readArguments known { options with given := name :: options.given } rest
          else if name = "help" then .help
          else if name = "version" then .version
          else .misuse argument
      | '-' :: 'h' :: _ => .help
      | '-' :: 'V' :: _ => .version
      | '-' :: _ :: _ => .misuse argument
      | _ =>
          if options.input.isSome then .misuse argument
          else readArguments known { options with input := some argument } rest

/-- What the arguments of a command line ask for, where the passes of a registry can be asked
for. -/
def Request.ofArguments {σ : Type} (registry : PassRegistry σ) (arguments : List String) :
    Request :=
  readArguments ((flags registry).map Flag.name) {} arguments

/-- Whether the option of a name is given. -/
def Options.has (options : Options) (name : String) : Bool := options.given.contains name

/-- The input file; a dash stands for the standard input. -/
def Options.source (options : Options) : String := options.input.getD "-"

/-- Why the input cannot be read. -/
inductive InputFault where
  | unreadable (fault : FileFault)
  | notText
deriving DecidableEq

/-- The message about the fault. -/
def InputFault.message : InputFault → String
  | .unreadable fault => fault.message
  | .notText => "stream did not contain valid UTF-8"

/-- The text that the bytes of an input encode. -/
def decode (input : Except FileFault ByteArray) : Except InputFault String := do
  match String.fromUTF8? (← input.mapError .unreadable) with
  | some text => return text
  | none => throw .notText

/-- What the program answers. -/
structure Answer where
  exitCode : Nat := 0
  output : String := ""
  errors : String := ""
deriving DecidableEq

/-- The answer to a failure, behind what was logged before. -/
def failure (log message : String) : Answer :=
  { exitCode := 1, errors := log ++ "Error: " ++ message ++ "\n" }

/-- What the journal of a context adds to the error stream. -/
def Options.logOf (options : Options) (context : Context) : String :=
  Text.joinWith "" (context.journal.reverse.map (Event.shown (options.has "debug")))

/-- Reads a module, transforms it and prints it. -/
def Options.transform (options : Options) (pipeline : Pipeline) (source : String) : Answer :=
  let start := { Context.ofRegistry .standard with
    allowsUnregistered := options.has "allow-unregistered-dialect" }
  match parse source start with
  | (.error error, context) => failure (options.logOf context) (Error.malformed error).report
  | (.ok op, context) =>
      let done := pipeline.transform passes (options.has "print-ir-before-all") op ⟨context, ()⟩
      let log := options.logOf done.space.context
      match done.result with
      | .error error => failure log error.report
      | .ok _ => { output := done.op.text ++ "\n", errors := log }

/-- Does what the options say with the input that was read for them. -/
def Options.run (options : Options) (arguments : List String) (input : Except InputFault String) :
    Answer :=
  match input with
  | .error fault => failure "" fault.message
  | .ok source => options.transform (.ofArguments passes arguments) source

/-- The name and the version of the program. -/
def versionText : String := "passwrap-opt 0.1.0\n"

/-- What the program does. -/
def purposeText : String := "Runs passwrap passes on textual IR and prints the result\n"

/-- How the program is called. -/
def usageText : String := "\nUsage: passwrap-opt [OPTIONS] [INPUT]\n"

/-- The options with their letters, if they have any, and what they do. -/
def optionLines : List (String × String) :=
  (flags passes).map (fun flag => ("    --" ++ flag.name, flag.help))
    ++ [("-h, --help", "Print help"), ("-V, --version", "Print version")]

/-- How the program is used. -/
def helpText : String :=
  let width := (optionLines.map fun line => line.1.length).foldl max 0
  let shown (line : String × String) :=
    "  " ++ line.1 ++ Text.repeated " " (width - line.1.length) ++ "  " ++ line.2 ++ "\n"
  purposeText ++ usageText
    ++ "\nArguments:\n  [INPUT]  The input file (- is interpreted as stdin) [default: -]\n"
    ++ "\nOptions:\n" ++ Text.joinWith "" (optionLines.map shown)

/-- What is said about an argument that cannot be accepted. -/
def misuseText (argument : String) : String :=
  "error: unexpected argument '" ++ argument ++ "' found\n" ++ usageText
    ++ "\nFor more information, try '--help'.\n"

/-- The input that a request needs. -/
def Request.source? : Request → Option String
  | .work options => some options.source
  | _ => none

/-- The answer to a request, with the input that was read for it. -/
def Request.answer (request : Request) (arguments : List String)
    (input : Except FileFault ByteArray) :
    Answer :=
  match request with
  | .help => { output := helpText }
  | .version => { output := versionText }
  | .misuse argument => { exitCode := 2, errors := misuseText argument }
  | .work options => options.run arguments (decode input)

/-- The answer to the arguments of a command line at a place of a tree of files. -/
def answerAt (place : FileTree.Place) (standardInput : ByteArray) (arguments : List String) :
    Answer :=
  let request := Request.ofArguments passes arguments
  let input := match request.source? with
    | some "-" => .ok standardInput
    | some path => place.read path
    | none => .ok .empty
  request.answer arguments input

end CommandLine

end DialectIR
