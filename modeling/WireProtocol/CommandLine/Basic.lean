import WireProtocol.Capture.Basic
import WireProtocol.DefinitionError
import WireProtocol.Error
import WireProtocol.Text.Utf8

/-!
# Outcomes of commands

A command ends with a report: what it printed, what it noted beside that, and its exit status. A
command that fails notes the failure and its cause; what it printed before stays.
-/

set_option autoImplicit false

namespace WireProtocol

/-- Why the text of a count is none. -/
inductive CountFault where
  | empty
  | badDigit
  | tooLarge
  deriving DecidableEq, Repr

def CountFault.text : CountFault → String
  | .empty => "cannot parse integer from empty string"
  | .badDigit => "invalid digit found in string"
  | .tooLarge => "number too large to fit in target type"

/-- Why a file is not read. -/
inductive FileFault where
  /-- The system's own description and number of the failure. -/
  | system (description : String) (code : Nat)
  | notText
  deriving DecidableEq, Repr

def FileFault.text : FileFault → String
  | .system description code => description ++ s!" (os error {code})"
  | .notText => "stream did not contain valid UTF-8"

/-- What is at a path. -/
abbrev FileRead := Except FileFault Bytes

/-- Why a command fails. -/
inductive CommandError where
  | decodeUsage
  | encodeUsage
  /-- An option stands last and has no value. -/
  | missingValue (option : String)
  | badByteCount (option : String) (fault : CountFault)
  | badIndex (fault : CountFault)
  | unreadable (path : String) (fault : FileFault)
  | unreadableCapture (fault : FileFault)
  /-- A capture file ends before its format can be told. -/
  | shortCapture
  | capture (fault : CaptureFault)
  | definition (error : DefinitionError)
  /-- A sum overflows while the description is resolved, which stops the program. -/
  | overflow
  | noMessage (key : String) (index : Nat)
  | notWritten (name : String) (error : CodecError)

namespace CommandError

/-- What a failure says. -/
def message : CommandError → String
  | .decodeUsage =>
    "usage: comms_decode <protocol.dsl> <input> [--pcap] [--chunk N] [--max-garbage N] " ++
      "[--summary] [--verbose]"
  | .encodeUsage => "usage: comms_encode <protocol.dsl> [<message-id|name> [index]] [--verbose]"
  | .missingValue option => option ++ " needs a value"
  | .badByteCount option _ => option ++ " expects a byte count"
  | .badIndex _ => "index must be a number"
  | .unreadable path _ => "reading " ++ path
  | .unreadableCapture fault => fault.text
  | .shortCapture => "failed to fill whole buffer"
  | .capture fault => fault.text
  | .definition error => error.text
  | .overflow => "attempt to add with overflow"
  | .noMessage key index => "no message \x60" ++ key ++ s!"\x60 (index {index})"
  | .notWritten name _ => "encoding " ++ name

/-- The cause that a failure states apart. -/
def cause? : CommandError → Option String
  | .badByteCount _ fault => some fault.text
  | .badIndex fault => some fault.text
  | .unreadable _ fault => some fault.text
  | .notWritten _ error => some error.text
  | _ => none

/-- The note about a failure. A program that is stopped also notes where it was; that place is left
out. -/
def note (e : CommandError) : String :=
  match e with
  | .overflow => e.message ++ "\n"
  | _ =>
    let cause := match e.cause? with
      | some cause => "\n\nCaused by:\n    " ++ cause
      | none => ""
    "Error: " ++ e.message ++ cause ++ "\n"

/-- The exit status after a failure. -/
def status : CommandError → UInt32
  | .overflow => 101
  | _ => 1

/-- The failure of a command whose description gives nothing. -/
def ofDefinition : DefinitionFailure → CommandError
  | .reported error => .definition error
  | .overflow => .overflow

end CommandError

/-- The outcome of a command. -/
structure Report where
  output : String
  notes : String
  /-- The exit status, zero if the command succeeded. -/
  status : UInt32

/-- A failure after some output. -/
def Report.failed (output : String) (e : CommandError) : Report := ⟨output, e.note, e.status⟩

/-- The text in the file at a path. -/
def FileRead.text (path : String) (file : FileRead) : Except CommandError String :=
  match file with
  | .error fault => .error (.unreadable path fault)
  | .ok bs =>
    match Utf8.decode? bs with
    | some s => .ok s
    | none => .error (.unreadable path .notText)

end WireProtocol
