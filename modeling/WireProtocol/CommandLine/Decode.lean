import WireProtocol.Capture.Pcapng
import WireProtocol.CommandLine.Arguments
import WireProtocol.Description.Resolution
import WireProtocol.Dump

/-!
# Decoding a file

The command reads a protocol's description and an input, which is a stream of frames or a capture of
packets that carry the stream in pieces. It prints the messages, whole or as summaries, and notes how
many there were of each kind.
-/

set_option autoImplicit false

namespace WireProtocol

/-- What the command is asked to do. -/
structure DecodeOptions where
  /-- The path of the description. -/
  description : String
  /-- The path of the input. -/
  input : String
  /-- Whether the input is a capture. -/
  isCapture : Bool
  /-- The greatest count of bytes that are fed at once; zero stands for one. -/
  chunk : Nat
  /-- The greatest count of garbage bytes in one message, if it is not the usual one. -/
  maxGarbage : Option Nat
  /-- Whether summaries are printed. -/
  summaries : Bool

/-- Reads the arguments. Those past the two paths are ignored. -/
def DecodeOptions.ofArguments (args : List String) : Except CommandError DecodeOptions := do
  let (_, args) := Arguments.takeFlag Arguments.verboseNames args
  let (summaries, args) := Arguments.takeFlag ["--summary", "-s"] args
  let (isCapture, args) := Arguments.takeFlag ["--pcap"] args
  let (chunk, args) ← Arguments.takeByteCount "--chunk" args
  let (maxGarbage, args) ← Arguments.takeByteCount "--max-garbage" args
  match args with
  | description :: input :: _ =>
    return { description, input, isCapture, chunk := chunk.getD 4096, maxGarbage, summaries }
  | _ => .error .decodeUsage

/-- How far a decoding is. -/
structure Decoding where
  engine : Engine
  output : String := ""
  /-- The count of messages of known types. -/
  regular : Nat := 0
  /-- The count of messages with unknown ids. -/
  raw : Nat := 0
  /-- The count of messages that are garbage or failed a checksum. -/
  invalid : Nat := 0

namespace Decoding

/-- Prints and counts a message. -/
def add (summaries : Bool) (d : Decoding) (m : Message) : Decoding :=
  let d := { d with output := d.output ++ if summaries then m.summary ++ "\n" else m.dump }
  match m.kind with
  | .regular => { d with regular := d.regular + 1 }
  | .rawData => { d with raw := d.raw + 1 }
  | .invalid _ => { d with invalid := d.invalid + 1 }

/-- Feeds a chunk of the stream. -/
def feedChunk (summaries : Bool) (d : Decoding) (chunk : Bytes) (isFinal : Bool) : Decoding :=
  let (engine, messages) := d.engine.feed chunk isFinal
  messages.foldl (add summaries) { d with engine }

/-- Feeds bytes in chunks; no bytes are one chunk. -/
def feed (o : DecodeOptions) (isFinal : Bool) (d : Decoding) (bs : Bytes) : Decoding :=
  let size := max o.chunk 1
  match _ : bs.drop size with
  | [] => d.feedChunk o.summaries bs isFinal
  | b :: rest => feed o isFinal (d.feedChunk o.summaries (bs.take size) false) (b :: rest)
termination_by bs.length
decreasing_by
  rename_i h
  have := congrArg List.length h
  simp only [List.length_drop, List.length_cons] at this
  simp only [List.length_cons]
  omega

/-- The notes at the end; for a capture, the counts of packets and payloads are among them. -/
def notes (o : DecodeOptions) (d : Decoding) (capture : Option (Nat × Nat)) : String :=
  "protocol: " ++ d.engine.protocol.name ++ " (" ++ o.description ++ ")\n" ++
  "input:    " ++ o.input ++ "\n" ++
  (match capture with
    | some (packets, payloads) => s!"packets: {packets}\npayloads: {payloads}\n"
    | none => "") ++
  s!"messages: {d.regular}\n" ++
  s!"raw data (unknown id): {d.raw}\n" ++
  s!"invalid (garbage / checksum): {d.invalid}\n"

end Decoding

namespace DecodeOptions

/-- The decoding before any input. -/
def start (o : DecodeOptions) (description : FileRead) : Except CommandError Decoding := do
  let source ← description.text o.description
  let engine ← (Engine.ofSource source).mapError .ofDefinition
  match o.maxGarbage with
  | some maxGarbage => return { engine := engine.withConfig { maxGarbage } }
  | none => return { engine }

/-- Decodes the payloads of a capture. -/
def runCapture (o : DecodeOptions) (d : Decoding) (bs : Bytes) : Report :=
  if (bs.take 4).length < 4 then .failed "" .shortCapture
  else
    let capture := Capture.read (Capture.formatOf (bs.take 4)) bs
    let payloads := capture.payloads
    let d := payloads.foldl (Decoding.feed o false) d
    match capture.fault with
    | some fault => .failed d.output (.capture fault)
    | none =>
      let d := d.feed o true []
      ⟨d.output, d.notes o (some (capture.packets.length, payloads.length)), 0⟩

/-- Decodes what is at the two paths. -/
def run (o : DecodeOptions) (description input : FileRead) : Report :=
  match o.start description with
  | .error e => .failed "" e
  | .ok d =>
    match input, o.isCapture with
    | .error fault, true => .failed "" (.unreadableCapture fault)
    | .error fault, false => .failed "" (.unreadable o.input fault)
    | .ok bs, true => o.runCapture d bs
    | .ok bs, false =>
      let d := d.feed o true bs
      ⟨d.output, d.notes o none, 0⟩

end DecodeOptions

end WireProtocol
