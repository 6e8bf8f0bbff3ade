import WireProtocol.Field.Int
import WireProtocol.Text.Utf8

/-!
# Byte strings and texts

How many bytes or elements a sequence has is fixed, or sent in front of it as a count or as a
length in bytes, or given by the end of the input. A text keeps its bytes as they are; its shown
form ends at the first zero byte.
-/

set_option autoImplicit false

namespace WireProtocol

/-- How the size of a sequence is known. -/
inductive SizePolicy where
  /-- The sequence takes the whole input. -/
  | remainder
  | fixed (n : Nat)
  /-- The count of elements is sent first. -/
  | count (field : IntField)
  /-- The length in bytes is sent first. -/
  | length (field : IntField)

namespace SizePolicy

/-- The integer that is sent in front. -/
def sizeField? : SizePolicy → Option IntField
  | .count f => some f
  | .length f => some f
  | _ => none

/-- Reads the size that is sent in front, and gives the input after it. -/
def readSize (f : IntField) (src : Bytes) : Except CodecError Nat × Bytes :=
  let o := f.read src
  match o.error with
  | some e => (.error e, o.rest)
  | none =>
    if o.value.value < 0 then (.error (.invalidData (.negativeSize o.value.value)), o.rest)
    else (.ok o.value.value.toInt.toNat, o.rest)

/-- The bytes of a size that is sent in front. -/
def writeSize (p : SizePolicy) (n : Nat) : Except CodecError Bytes :=
  match p.sizeField? with
  | some f => (f.withCount n).write
  | none => .ok []

/-- The count of bytes of a size that is sent in front. -/
def sizeLength (p : SizePolicy) (n : Nat) : Nat :=
  match p.sizeField? with
  | some f => (f.withCount n).length
  | none => 0

def minSizeLength (p : SizePolicy) : Nat :=
  match p.sizeField? with
  | some f => f.minLength
  | none => 0

end SizePolicy

/-! ## Lengths without a bound -/

/-- A longest length in bytes; `none` if there is none. -/
abbrev Bound := Option Nat

namespace Bound

def add (a b : Bound) : Bound := do return (← a) + (← b)

/-- The bound of `n` things; nothing has length zero even if the things have no bound. -/
def times (n : Nat) (a : Bound) : Bound :=
  match n, a with
  | 0, _ => some 0
  | n, some k => some (n * k)
  | _, none => none

def max (a b : Bound) : Bound := do return Nat.max (← a) (← b)

end Bound

/-! ## Fields -/

/-- Bytes under a size policy. -/
structure ByteField where
  size : SizePolicy
  data : Bytes

namespace ByteField

/-- Zero bytes for a fixed size, otherwise none. -/
def ofSize (size : SizePolicy) : ByteField :=
  match size with
  | .fixed n => ⟨size, List.replicate n 0⟩
  | _ => ⟨size, []⟩

/-- Takes other bytes, cut or filled with zeros to a fixed size. -/
def withData (f : ByteField) (data : Bytes) : ByteField :=
  match f.size with
  | .fixed n => { f with data := data.resize n }
  | _ => { f with data := data }

def isValid (f : ByteField) : Bool :=
  match f.size with
  | .fixed n => f.data.length == n
  | _ => true

/-- Takes `n` bytes as the new content; if some are missing the old content stays. -/
def readData (f : ByteField) (n : Nat) (src : Bytes) : Outcome ByteField :=
  withBytes n src f fun taken rest => .done { f with data := taken } rest

def read (f : ByteField) (src : Bytes) : Outcome ByteField :=
  match f.size with
  | .fixed n => f.readData n src
  | .remainder => .done { f with data := src } []
  | .count p | .length p =>
    match SizePolicy.readSize p src with
    | (.ok n, rest) => f.readData n rest
    | (.error e, rest) => .fail f rest e

def write (f : ByteField) : Except CodecError Bytes :=
  match f.size with
  | .fixed n => .ok (f.data.resize n)
  | size => return (← size.writeSize f.data.length) ++ f.data

def length (f : ByteField) : Nat :=
  match f.size with
  | .fixed n => n
  | size => size.sizeLength f.data.length + f.data.length

def minLength (f : ByteField) : Nat :=
  match f.size with
  | .fixed n => n
  | size => size.minSizeLength

def maxLength (f : ByteField) : Bound :=
  match f.size with
  | .fixed n => some n
  | _ => none

/-- The bytes as a text, up to the first zero byte. -/
def text (f : ByteField) : String := Utf8.decodeLossy (f.data.takeWhile (· != 0))

/-- Takes the bytes of a text. -/
def withText (f : ByteField) (s : String) : ByteField := f.withData (Utf8.encode s)

/-- Whether the bytes have the right size and are those of a text. -/
def isValidText (f : ByteField) : Bool := f.isValid && Utf8.isValid f.data

end ByteField

end WireProtocol
