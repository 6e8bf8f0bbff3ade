import WireProtocol.Bytes

/-!
# Why reading, writing or framing fails

Each failure is a constructor that carries its cause; the wording stands in one `text` function
per type. `CodecError.bounded` turns a shortage of input inside a region of declared length into an
overrun of that region, because no later input can mend it.
-/

set_option autoImplicit false

namespace WireProtocol

/-! ## Codec errors -/

/-- A region whose length the encoding declares. -/
inductive Region where
  | list
  | element
  | bundle
  deriving DecidableEq, Repr

/-- The region's name in an error text. -/
def Region.name : Region → String
  | .list => "list"
  | .element => "list element"
  | .bundle => "bundle"

/-- Why message content is malformed. -/
inductive DataFault where
  /-- A variable-length integer has no last byte within its maximum. -/
  | varintTooLong (max : Nat)
  /-- The bytes are not the encoding that writing the value gives. -/
  | varintNotCanonical (bytes : Bytes)
  | outsideRanges (value : Int64)
  | unknownEnumValue (value : Int64)
  | reservedBits (value : UInt64)
  | negativeSize (value : Int64)
  | negativeElementLength (value : Int64)
  | negativeRemainingLength (value : Int64)
  /-- The content of a region needs more bytes than the region has. -/
  | overrun (region : Region) (missing : Nat)
  /-- A list element without bytes would repeat for ever. -/
  | emptyElement
  | unknownTag
  /-- The content of a size layer has another length than its size field says. -/
  | sizeMispredicted (predicted written : Nat)
  deriving DecidableEq, Repr

/-- Why a byte string is no frame. -/
inductive FrameFault where
  | syncMismatch (found : Int64)
  | negativeSize (value : Int64)
  | sizeAboveMaximum (size max : Nat)
  /-- The layers inside a size layer need more bytes than the size says. -/
  | contentOverrun (missing : Nat)
  | noMessageType
  deriving DecidableEq, Repr

/-- What did not fit on writing. -/
inductive Overflow where
  | fixedWidth (wire : Int64) (bytes : Nat)
  | varWidth (wire : Int64) (needed max : Nat)
  | frameSize (size max : Nat)
  deriving DecidableEq, Repr

/-- Failure to read or write a field, message or frame. -/
inductive CodecError where
  /-- Input ended early; more bytes may complete the read. -/
  | notEnoughData (missing : Nat)
  | invalidData (fault : DataFault)
  | notAFrame (fault : FrameFault)
  | checksumFailure (computed received : UInt64)
  | overflow (cause : Overflow)
  | unknownId (id : UInt64)
  deriving DecidableEq, Repr

/-- A 64-bit pattern in hexadecimal with its mark. -/
def hexWord (v : UInt64) : String := "0x" ++ hexNat v.toNat

/-- Bytes as a bracketed list of hexadecimal pairs. -/
def hexList (bs : Bytes) : String :=
  "[" ++ String.intercalate ", " (bs.map hexByte) ++ "]"

def DataFault.text : DataFault → String
  | .varintTooLong max => s!"var-length integer longer than {max} bytes"
  | .varintNotCanonical bytes => "non-canonical var-length integer encoding " ++ hexList bytes
  | .outsideRanges v => s!"integer value {v} outside valid ranges"
  | .unknownEnumValue v => s!"unknown enum value {v}"
  | .reservedBits v => "reserved bits violated in bitmask " ++ hexWord v
  | .negativeSize v => s!"negative sequence size {v}"
  | .negativeElementLength v => s!"negative element length {v}"
  | .negativeRemainingLength v => s!"negative remaining length {v}"
  | .overrun region missing =>
    region.name ++ s!": content overruns declared length by {missing} byte(s)"
  | .emptyElement => "list element consumed no bytes"
  | .unknownTag => "unrecognized variant tag"
  | .sizeMispredicted predicted written =>
    s!"size layer predicted {predicted} byte(s), {written} written"

def FrameFault.text : FrameFault → String
  | .syncMismatch found => "sync mismatch: " ++ hexWord found.toUInt64
  | .negativeSize v => s!"negative frame size {v}"
  | .sizeAboveMaximum size max => s!"frame size {size} exceeds maximum {max}"
  | .contentOverrun missing => s!"frame content overruns its size by {missing} byte(s)"
  | .noMessageType => "no message type for payload"

def Overflow.text : Overflow → String
  | .fixedWidth wire bytes => s!"value {wire} does not fit in {bytes} byte(s)"
  | .varWidth wire needed max =>
    s!"value {wire} needs {needed} var-length byte(s), at most {max} allowed"
  | .frameSize size max => s!"frame size {size} exceeds maximum {max}"

namespace CodecError

/-- The text of an error. -/
def text : CodecError → String
  | .notEnoughData missing => s!"not enough data: {missing} more byte(s) required"
  | .invalidData fault => "invalid message data: " ++ fault.text
  | .notAFrame fault => "protocol error: " ++ fault.text
  | .checksumFailure computed received =>
    "checksum mismatch: computed " ++ hexWord computed ++ ", received " ++ hexWord received
  | .overflow cause => "buffer overflow: " ++ cause.text
  | .unknownId id => s!"invalid message id {id}"

/-- The error as seen from outside a region of declared length. -/
def bounded (region : Region) : CodecError → CodecError
  | .notEnoughData missing => .invalidData (.overrun region missing)
  | e => e

theorem bounded_ne_notEnoughData (region : Region) (e : CodecError) (n : Nat) :
    e.bounded region ≠ .notEnoughData n := by
  cases e <;> simp [bounded]

end CodecError

end WireProtocol
