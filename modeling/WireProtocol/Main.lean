import WireProtocol.CommandLine.Decode
import WireProtocol.CommandLine.Encode

/-!
# The program

The first argument names the command, `decode` or `encode`; the others are the command's own.
-/

set_option autoImplicit false

namespace WireProtocol.Program

/-- The system's description of a failure to read a file. -/
def fileFault : IO.Error → FileFault
  | .noFileOrDirectory _ code details => .system details code.toNat
  | .permissionDenied _ code details => .system details code.toNat
  | .inappropriateType _ code details => .system details code.toNat
  | .otherError code details => .system details code.toNat
  | e => .system e.toString 0

/-- What is at a path. -/
def readPath (path : String) : IO FileRead := do
  try
    return .ok (← IO.FS.readBinFile path).toList
  catch e => return .error (fileFault e)

/-- The report of a command. -/
def run : List String → IO Report
  | "decode" :: args =>
    match DecodeOptions.ofArguments args with
    | .error e => return .failed "" e
    | .ok o => return o.run (← readPath o.description) (← readPath o.input)
  | "encode" :: args =>
    match EncodeOptions.ofArguments args with
    | .error e => return .failed "" e
    | .ok o => return o.run (← readPath o.description)
  | _ => return ⟨"", "usage: decode | encode, with arguments\n", 1⟩

end WireProtocol.Program

def main (args : List String) : IO UInt32 := do
  let report ← WireProtocol.Program.run args
  (← IO.getStdout).putStr report.output
  (← IO.getStderr).putStr report.notes
  return report.status
