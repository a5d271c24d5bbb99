import DialectIR.CommandLine

/-! The program: the command line with the standard streams and the files of the system. -/

open DialectIR CommandLine

/-- The fault of a number, with what the system says about it. -/
def faultOf (code : UInt32) (details : String) : FileFault :=
  match code.toNat with
  | 2 => .missing
  | 20 => .notDirectory
  | 21 => .directory
  | 36 => .nameTooLong
  | code => .other details code

/-- Reads the input of a name. -/
def readInput (source : String) : IO (Except FileFault ByteArray) := do
  try
    if source = "-" then return .ok (← (← IO.getStdin).readBinToEnd)
    else return .ok (← IO.FS.readBinFile source)
  catch
    | .noFileOrDirectory _ code details | .inappropriateType _ code details
    | .permissionDenied _ code details | .invalidArgument _ code details
    | .noSuchThing _ code details | .hardwareFault code details | .otherError code details =>
        return .error (faultOf code details)
    | error => return .error (.other (toString error) 5)

def main (arguments : List String) : IO UInt32 := do
  let request := Request.ofArguments passes arguments
  let input ← match request.source? with
    | some source => readInput source
    | none => pure (.ok .empty)
  let answer := request.answer arguments input
  IO.print answer.output
  IO.eprint answer.errors
  return answer.exitCode.toUInt32
