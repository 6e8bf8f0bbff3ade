import WireProtocol.CommandLine.Arguments
import WireProtocol.Description.Resolution
import WireProtocol.Dump

/-!
# Encoding messages

The command reads a protocol's description and prints the frames of new messages: of one type, or of
every type in order.
-/

set_option autoImplicit false

namespace WireProtocol

/-- What the command is asked to do. -/
structure EncodeOptions where
  /-- The path of the description. -/
  description : String
  /-- The message type, by id or name; none stands for all. -/
  key : Option String
  /-- The place of the type among those of its id. -/
  index : Nat

/-- Reads the arguments. Those past the index are ignored. -/
def EncodeOptions.ofArguments (args : List String) : Except CommandError EncodeOptions := do
  let (_, args) := Arguments.takeFlag Arguments.verboseNames args
  match args with
  | [] => .error .encodeUsage
  | description :: args =>
    let index ← match args with
      | _ :: index :: _ => (Arguments.count index).mapError .badIndex
      | _ => .ok 0
    return { description, key := args.head?, index }

/-- Prints the frames of messages after some output, up to the first that cannot be written. -/
def writeAll (engine : Engine) (output : String) : List Message → Report
  | [] => ⟨output, "", 0⟩
  | m :: ms =>
    match engine.frame.write m with
    | .ok bs =>
      writeAll engine (output ++ m.name ++ s!" ({m.id}): " ++ spacedHex bs ++ "\n") ms
    | .error e => .failed output (.notWritten m.name e)

namespace EncodeOptions

/-- The messages that are asked for. -/
def messages (o : EncodeOptions) (engine : Engine) : Except CommandError (List Message) :=
  match o.key with
  | none => .ok engine.registry.prototypes
  | some key =>
    match engine.registry.createByKey? key o.index with
    | some m => .ok [m]
    | none => .error (.noMessage key o.index)

/-- Encodes with the description at the path. -/
def run (o : EncodeOptions) (description : FileRead) : Report :=
  let start : Except CommandError (Engine × List Message) := do
    let source ← description.text o.description
    let engine ← (Engine.ofSource source).mapError .ofDefinition
    return (engine, ← o.messages engine)
  match start with
  | .error e => .failed "" e
  | .ok (engine, ms) => writeAll engine "" ms

end EncodeOptions

end WireProtocol
