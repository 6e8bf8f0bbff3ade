import WireProtocol.Bytes

/-!
# UTF-8

A byte string is cut into characters and broken pieces. A broken piece is as long as the bytes
could have gone on to be a character, so a truncated character is one piece and a stray byte
another. `decodeLossy` shows each broken piece as U+FFFD, and `isValid` says that there is none.
-/

set_option autoImplicit false

namespace WireProtocol.Utf8

/-- The bytes of a text. -/
def encode (s : String) : Bytes := s.toList.flatMap String.utf8EncodeChar

/-- The values that the byte after a lead byte may have, lowest and highest, and how many bytes
follow the lead; `none` for a byte that starts no character of several bytes. -/
def following (lead : UInt8) : Option (Nat × Nat × Nat) :=
  let b := lead.toNat
  if 0xC2 ≤ b ∧ b ≤ 0xDF then some (1, 0x80, 0xBF)
  else if b = 0xE0 then some (2, 0xA0, 0xBF)
  else if b = 0xED then some (2, 0x80, 0x9F)
  else if 0xE1 ≤ b ∧ b ≤ 0xEF then some (2, 0x80, 0xBF)
  else if b = 0xF0 then some (3, 0x90, 0xBF)
  else if 0xF1 ≤ b ∧ b ≤ 0xF3 then some (3, 0x80, 0xBF)
  else if b = 0xF4 then some (3, 0x80, 0x8F)
  else none

/-- Takes up to `n` continuation bytes onto a code point, and says how many were there. -/
def continued : Nat → Nat → Bytes → Nat × Nat
  | n + 1, code, b :: bs =>
    if b.toNat / 64 = 2 then
      let (code, taken) := continued n (code * 64 + b.toNat % 64) bs
      (code, taken + 1)
    else (code, 0)
  | _, code, _ => (code, 0)

/-- The character that a lead byte starts, or `none` if it is broken, and how many of the bytes
after the lead belong to it. -/
def piece (lead : UInt8) (rest : Bytes) : Option Char × Nat :=
  if lead.toNat < 0x80 then (some (Char.ofNat lead.toNat), 0)
  else
    match following lead, rest with
    | some (n, low, high), b :: bs =>
      if low ≤ b.toNat ∧ b.toNat ≤ high then
        let start := lead.toNat % Nat.pow 2 (6 - n) * 64 + b.toNat % 64
        let (code, taken) := continued (n - 1) start bs
        (if taken = n - 1 then some (Char.ofNat code) else none, taken + 1)
      else (none, 0)
    | _, _ => (none, 0)

/-- Adds the pieces of a byte string in front of those before it, after skipping the bytes that
belong to the last of them. -/
def piecesOnto (before : List (Option Char)) : Nat → Bytes → List (Option Char)
  | _, [] => before
  | skip + 1, _ :: bs => piecesOnto before skip bs
  | 0, b :: bs =>
    let (c, taken) := piece b bs
    piecesOnto (c :: before) taken bs

/-- The characters and broken pieces of a byte string, in order. -/
def pieces (bs : Bytes) : List (Option Char) := (piecesOnto [] 0 bs).reverse

/-- Whether the bytes are those of a text. -/
def isValid (bs : Bytes) : Bool := (pieces bs).all Option.isSome

/-- The text of a byte string, a broken piece shown as the replacement character. -/
def decodeLossy (bs : Bytes) : String :=
  String.ofList ((pieces bs).map (·.getD '\uFFFD'))

/-- The text of a byte string, if it is one. -/
def decode? (bs : Bytes) : Option String :=
  (pieces bs).mapM id |>.map String.ofList

end WireProtocol.Utf8
