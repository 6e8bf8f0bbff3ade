import WireProtocol.Frame.Read

/-!
# Reading a stream

A reader turns input that comes in chunks into messages. Bytes that start no frame are collected as
garbage, which becomes a message of its own before the next frame, at a limit, and at the end of the
input. Every byte ends up in one message.
-/

set_option autoImplicit false

namespace WireProtocol

/-- How a reader is set up. -/
structure ReaderConfig where
  /-- The greatest count of garbage bytes in one message; zero stands for one. -/
  maxGarbage : Nat := 1024

/-- What a reader has received and not given out. -/
structure Reader where
  /-- Bytes that may start a frame. -/
  backlog : Bytes := []
  /-- Bytes that were skipped, the last one first. -/
  garbage : Bytes := []

namespace Reader

/-- The count of bytes that are not given out. -/
def pending (r : Reader) : Nat := r.backlog.length + r.garbage.length

/-- Gives out the collected garbage before the messages in `out`, which are in reverse. -/
def flush (garbage : Bytes) (out : List Message) : List Message :=
  if garbage.isEmpty then out else .invalid .garbage garbage.reverse :: out

/-- How the front of the backlog is taken. -/
inductive Taken where
  /-- A message of that many bytes. -/
  | message (m : Message) (consumed : Nat)
  /-- More input is needed. -/
  | wait
  /-- The first byte is garbage. -/
  | skip

/-- Decides about the front of the backlog. At the end of the input the start of a frame is
garbage. -/
def take (isFinal : Bool) : FrameRead → Taken
  | .message m n => if 0 < n then .message m n else .skip
  | .checksumFailure m n => if 0 < n then .message m n else .skip
  | .notEnoughData _ => if isFinal then .skip else .wait
  | .garbage _ => .skip

/-- Gives out messages from a backlog as long as it can, after those in `out`, which are in
reverse. -/
def drain (frame : Frame) (config : ReaderConfig) (isFinal : Bool) (backlog garbage : Bytes)
    (out : List Message) : Reader × List Message :=
  match backlog with
  | [] => (⟨[], garbage⟩, out)
  | b :: bs =>
    match take isFinal (frame.readOne (b :: bs)) with
    | .message m n =>
      -- at least one byte is consumed
      drain frame config isFinal (bs.drop (n - 1)) [] (m :: flush garbage out)
    | .wait => (⟨b :: bs, garbage⟩, out)
    | .skip =>
      if max config.maxGarbage 1 ≤ garbage.length + 1 then
        drain frame config isFinal bs [] (flush (b :: garbage) out)
      else drain frame config isFinal bs (b :: garbage) out
termination_by backlog.length
decreasing_by
  all_goals simp only [List.length_cons, List.length_drop]; omega

/-- Takes a chunk of input and gives out the messages that it completes. With the last chunk
everything is given out. -/
def feed (frame : Frame) (config : ReaderConfig) (r : Reader) (chunk : Bytes) (isFinal : Bool) :
    Reader × List Message :=
  let (r, out) := drain frame config isFinal (r.backlog ++ chunk) r.garbage []
  if isFinal then (⟨r.backlog, []⟩, (flush r.garbage out).reverse) else (r, out.reverse)

end Reader

end WireProtocol
