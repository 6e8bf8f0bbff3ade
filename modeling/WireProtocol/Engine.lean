import WireProtocol.Frame.Write
import WireProtocol.Stream

/-!
# Protocol engines

An engine is a protocol together with a reader of its stream.
-/

set_option autoImplicit false

namespace WireProtocol

/-- A named protocol, which is given by its frame. -/
structure Protocol where
  name : String
  frame : Frame

/-- A protocol and the reader of its stream. -/
structure Engine where
  protocol : Protocol
  config : ReaderConfig := {}
  reader : Reader := {}

namespace Engine

def ofProtocol (protocol : Protocol) : Engine := { protocol }

/-- An engine set up in another way; what its reader held is dropped. -/
def withConfig (e : Engine) (config : ReaderConfig) : Engine :=
  { e with config, reader := {} }

def frame (e : Engine) : Frame := e.protocol.frame

def registry (e : Engine) : Registry := e.frame.registry

/-- Takes a chunk of the stream and gives out the messages that it completes. -/
def feed (e : Engine) (chunk : Bytes) (isFinal : Bool) : Engine × List Message :=
  let (reader, messages) := e.reader.feed e.frame e.config chunk isFinal
  ({ e with reader }, messages)

def pending (e : Engine) : Nat := e.reader.pending

/-- Drops what the reader holds. -/
def reset (e : Engine) : Engine := { e with reader := {} }

end Engine

end WireProtocol
