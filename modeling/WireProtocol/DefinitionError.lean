import WireProtocol.Description.Literal

/-!
# What can be wrong with a protocol's definition

Each mistake is a constructor with the names that it is about; the wording stands in one `text`
function per type.
-/

set_option autoImplicit false

namespace WireProtocol

/-- Why a description cannot be read. -/
inductive ParseFault where
  | grammar
  | badInteger (text : String)
  | badBitIndex (bit : String)
  | badMaximum (layer : String)
  | unknownOption (layer option : String)
  | negativeId (message : String)
  | badBitCount (field : String)
  | badDecimals (field : String)
  | negativeVersion
  | badWidth (bytes : Int64)
  | badVarBounds (min max : Int64)
  | negativeSize
  deriving DecidableEq

/-- What is declared twice. -/
inductive Duplicated where
  | type (name : String)
  | message (name : String)
  | field (path : String)
  | tag (tag : Int64) (alternative : String)
  deriving DecidableEq

/-- What a name should refer to. -/
inductive Referent where
  | type
  | struct
  | enumeration
  | layer
  | special
  | valueOf (enumeration : String)
  | bitOf (mask : String)
  deriving DecidableEq

/-- Why a message's presence rule is refused. -/
inductive PresenceFault where
  | noMember (name : String)
  | notOptional (target : String)
  | maskNotBefore (mask : String)
  | bitOutOfRange (bit : Nat) (mask : String)
  | notBitmask (mask : String)
  | notVersioned (version : UInt64) (target : String)
  deriving DecidableEq

/-- Why a frame's layers are refused. -/
inductive LayerFault where
  | payloadNotInnermost
  | payloadCount
  | idCount
  | syncNotFixed
  | idKind
  | prefixUnbounded
  | messageUnbounded (message : String)
  | payloadMissing
  | unknownChecksum (name : String)
  | overBeforePayload (layer : String)
  | afterPayload (layer : String)
  deriving DecidableEq

/-- A rule that a declaration breaks; `path` names the declaration. -/
inductive RuleFault where
  | noFrame
  | severalFrames
  | storageNotFixed (path : String)
  | fixedTooLarge (path : String) (n limit : Nat)
  | notAnInteger (path : String) (literal : Literal)
  | notANumber (path : String) (literal : Literal)
  | notAText (path : String) (literal : Literal)
  | zeroScale (path : String)
  | bitIndex (path bit : String) (index : Nat)
  | conditionInStruct (path : String)
  | severalLengths (path : String)
  | noBits (path : String)
  | notAStruct (path alternative : String)
  | recursive (path : String)
  | negativeId (path : String)
  | bitfieldStorage (name : String) (bytes : Nat)
  | bitfieldKind (name member : String)
  | bitfieldZeroWidth (name member : String)
  | noAlternative
  | noTag (alternative : String)
  | lengthKind (member : String)
  | lengthIndex (index : Nat)
  deriving DecidableEq

/-- A mistake in the definition of a protocol. -/
inductive DefinitionError where
  | parse (fault : ParseFault)
  | duplicate (what : Duplicated)
  | unknownRef (what : Referent) (name : String)
  | bitWidthMismatch (name : String) (used declared : UInt32)
  | message (name : String) (fault : PresenceFault)
  | frame (name : String) (fault : LayerFault)
  | invalid (fault : RuleFault)
  deriving DecidableEq

/-- Why a definition gives nothing. -/
inductive DefinitionFailure where
  /-- A mistake is reported. -/
  | reported (error : DefinitionError)
  /-- A sum of bit widths exceeds 32 bits. That is no error of the definition but stops the
  program. -/
  | overflow
  deriving DecidableEq

/-- A name between backquotes. -/
def marked (s : String) : String := "\x60" ++ s ++ "\x60"

def ParseFault.text : ParseFault → String
  | .grammar => "syntax error"
  | .badInteger s => "bad integer " ++ s
  | .badBitIndex bit => "bit " ++ marked bit ++ ": bad index"
  | .badMaximum layer => "layer " ++ marked layer ++ ": bad max"
  | .unknownOption layer option =>
    "layer " ++ marked layer ++ ": unknown option " ++ marked option
  | .negativeId message => "message " ++ marked message ++ ": negative id"
  | .badBitCount field => "field " ++ marked field ++ ": bad bit count"
  | .badDecimals field => "field " ++ marked field ++ ": bad decimals"
  | .negativeVersion => "version condition: negative"
  | .badWidth n => s!"integer width {n} not in 1..=8"
  | .badVarBounds min max => s!"var-length bounds {min}..{max} invalid"
  | .negativeSize => "fixed size: negative"

def Duplicated.text : Duplicated → String
  | .type name => "type " ++ name
  | .message name => "message " ++ name
  | .field path => path
  | .tag value alternative => s!"variant tag {value} (alternative " ++ marked alternative ++ ")"

def Referent.text : Referent → String
  | .type => "type"
  | .struct => "struct"
  | .enumeration => "enum"
  | .layer => "layer"
  | .special => "special value"
  | .valueOf name => name ++ " value"
  | .bitOf mask => "bit of " ++ marked mask

def PresenceFault.text : PresenceFault → String
  | .noMember name => "no member " ++ marked name
  | .notOptional target => "presence target " ++ marked target ++ " is not optional"
  | .maskNotBefore mask =>
    "mask " ++ marked mask ++ " must be a member declared before its target"
  | .bitOutOfRange bit mask => s!"bit {bit} out of range for " ++ marked mask
  | .notBitmask mask => marked mask ++ " is not a bitmask"
  | .notVersioned version target =>
    s!"version condition ({version}) on " ++ marked target ++
      " requires a version-dependent message"

def LayerFault.text : LayerFault → String
  | .payloadNotInnermost => "the payload must be the innermost layer"
  | .payloadCount => "exactly one payload layer required"
  | .idCount => "exactly one id layer required"
  | .syncNotFixed => "sync marker must be a fixed-width integer"
  | .idKind => "id must be an integer or enum"
  | .prefixUnbounded => "a prefix checksum must be enclosed by a size layer"
  | .messageUnbounded name =>
    "message " ++ marked name ++ " reads to the end of its input and needs a size layer"
  | .payloadMissing => "missing payload"
  | .unknownChecksum name => "unknown checksum algorithm " ++ marked name
  | .overBeforePayload layer =>
    marked layer ++ ": " ++ marked "over" ++ " only applies to a checksum after the payload"
  | .afterPayload layer => "only checksums may follow the payload, found " ++ marked layer

def RuleFault.text : RuleFault → String
  | .noFrame => "no frame declared"
  | .severalFrames => "only one frame may be declared"
  | .storageNotFixed path => marked path ++ ": storage must be fixed width"
  | .fixedTooLarge path n limit =>
    marked path ++ s!": fixed size {n} exceeds the limit of {limit}"
  | .notAnInteger path l => marked path ++ ": expected an integer, got " ++ l.label
  | .notANumber path l => marked path ++ ": expected a number, got " ++ l.label
  | .notAText path l => marked path ++ ": bad string default " ++ l.label
  | .zeroScale path => marked path ++ ": scale terms must be non-zero"
  | .bitIndex path bit index =>
    marked path ++ ": bit " ++ marked bit ++ s!" index {index} out of range"
  | .conditionInStruct path =>
    marked path ++ ": presence conditions are only allowed on message fields"
  | .severalLengths path => marked path ++ ": more than one remaining_length member"
  | .noBits path => marked path ++ ": bitfield members need bits(n)"
  | .notAStruct path alternative =>
    marked path ++ ": alternative " ++ marked alternative ++ " is not a struct"
  | .recursive path => marked path ++ ": type refers to itself"
  | .negativeId path => marked path ++ ": negative message id"
  | .bitfieldStorage name bytes =>
    "bitfield " ++ marked name ++ s!": storage must be 1..=8 bytes, got {bytes}"
  | .bitfieldKind name member =>
    "bitfield " ++ marked name ++ ": member " ++ marked member ++
      " must be an integer, enum or bitmask"
  | .bitfieldZeroWidth name member =>
    "bitfield " ++ marked name ++ ": member " ++ marked member ++ " has zero width"
  | .noAlternative => "variant needs at least one alternative"
  | .noTag alternative =>
    "variant alternative " ++ marked alternative ++ " must start with an integer or enum tag"
  | .lengthKind member => "remaining length member " ++ marked member ++ " must be an integer"
  | .lengthIndex index => s!"remaining length member index {index} out of range"

/-- The text of an error. -/
def DefinitionError.text : DefinitionError → String
  | .parse fault => "parse error: " ++ fault.text
  | .duplicate what => "duplicate name: " ++ what.text
  | .unknownRef what name => "unknown reference: " ++ what.text ++ " " ++ marked name
  | .bitWidthMismatch name used declared =>
    "bitfield " ++ marked name ++ s!": members use {used} bit(s), storage holds {declared}"
  | .message name fault => "message " ++ marked name ++ ": " ++ fault.text
  | .frame name fault => "frame " ++ marked name ++ ": " ++ fault.text
  | .invalid fault => "invalid definition: " ++ fault.text

end WireProtocol
