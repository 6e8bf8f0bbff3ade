import WireProtocol.Capture.Basic

/-!
# The window on a capture

A file is read through a window of fixed size. A record or block is taken when all of it is in the
window. If it is not, the window moves on once, so that it starts there; what would fill the window
or go beyond it is refused.
-/

set_option autoImplicit false

namespace WireProtocol.Capture

/-- The size of the window. -/
def windowSize : Nat := Nat.pow 2 20

/-- The count of bytes in a window at the start of `bs`. -/
def windowOn (bs : Bytes) : Nat := min windowSize bs.length

/-- Why the item at the front of the window is not taken. -/
inductive ItemFault where
  /-- So many bytes more have to be in the window. -/
  | short (missing : Nat)
  /-- It contradicts itself; what follows the contradiction is kept. -/
  | malformed (rest : Bytes)
  /-- It should start a section and has no mark of its byte order. -/
  | badSection

/-- A record or block at the front of the window. -/
structure Item (σ : Type) where
  /-- The count of its bytes. -/
  size : Nat
  /-- What is known for the items after it. -/
  next : σ
  /-- The packet in it. -/
  packet : Option Packet := none

/-- Asks for the bytes up to `stop` to be in the window. -/
def ask (window stop : Nat) : Except ItemFault Unit :=
  if stop ≤ window then .ok () else .error (.short (stop - window))

/-- What a fault is for the file, if no more of it can come into the window. -/
def ItemFault.inFile (format : CaptureFormat) (window : Nat) : ItemFault → CaptureFault
  | .short missing => if windowSize ≤ window + missing then .oversized format else .truncated format
  | .malformed rest => .malformedBlock rest
  | .badSection => .badSection

/-- The result of `take` on the window, moved on if too little is in it, and that window. -/
def throughWindow {α : Type} (format : CaptureFormat) (take : Nat → Except ItemFault α)
    (window : Nat) (bs : Bytes) : Except CaptureFault (α × Nat) :=
  match take window with
  | .ok a => .ok (a, window)
  | .error (.short missing) =>
    if windowSize ≤ window + missing then .error (.oversized format)
    else
      let moved := windowOn bs
      match take moved with
      | .ok a => .ok (a, moved)
      | .error fault => .error (fault.inFile format moved)
  | .error fault => .error (fault.inFile format window)

/-- Reads items after the packets in `before`, which are in reverse. The item at the front of the
bytes in the window is taken by `take`. -/
def readItems {σ : Type} (format : CaptureFormat)
    (take : σ → Nat → Bytes → Except ItemFault (Item σ)) (s : σ) (before : List Packet)
    (window : Nat) : Bytes → Capture
  | [] => ⟨before.reverse, none⟩
  | b :: bs =>
    match throughWindow format (take s · (b :: bs)) window (b :: bs) with
    | .error fault => ⟨before.reverse, some fault⟩
    -- an item is never empty
    | .ok (item, window) =>
      readItems format take item.next (item.packet.toList ++ before) (window - item.size)
        (bs.drop (item.size - 1))
termination_by bs => bs.length
decreasing_by simp only [List.length_cons, List.length_drop]; omega

end WireProtocol.Capture
