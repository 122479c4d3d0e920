import QuantumLowering.Command.Run

namespace QuantumLowering

def fileErrorOf : IO.Error → FileError
  | .noFileOrDirectory _ _ _ => .notFound
  | .inappropriateType _ 21 _ => .isDirectory
  | .inappropriateType _ _ _ => .notDirectory
  | .invalidArgument _ 36 _ => .nameTooLong
  | .permissionDenied _ code details => .other s!"{details} (os error {code})"
  | .userError reason => if reason.endsWith "non UTF-8 data." then .notText else .other reason
  | e => .other (toString e)

def diskAccess : FileAccess IO where
  read path := do
    try return .ok (← IO.FS.readFile path)
    catch e => return .error (fileErrorOf e)
  write path text := do
    try
      IO.FS.writeFile path text
      return .ok ()
    catch e => return .error (fileErrorOf e)

def usage : String :=
  "Usage: quoll [-v] translate -i <INPUT> [-o <OUTPUT>] [-c <CONFIG>] [--pretty] [--show]\n" ++
  "       quoll [-v] render -i <INPUT>\n" ++
  "       quoll [-v] version\n"

def runOnDisk (args : List String) : IO UInt32 := do
  match Arguments.parse? (← IO.getEnv "QUOLL_CONFIG") args with
  | none =>
    IO.eprint usage
    return 2
  | some invocation =>
    let report ← invocation.report diskAccess
    IO.print report.printed
    IO.eprint report.complaint
    return report.exitCode.toUInt32

end QuantumLowering

def main (args : List String) : IO UInt32 := QuantumLowering.runOnDisk args
