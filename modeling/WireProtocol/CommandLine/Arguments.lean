import WireProtocol.CommandLine.Basic
import WireProtocol.Text.Number

/-!
# Arguments of commands

Flags and options may stand anywhere among the arguments. Each is taken once; what is left is read by
its place.
-/

set_option autoImplicit false

namespace WireProtocol.Arguments

/-- Goes on with a count by digits. The first fault from the left is the one reported. -/
def countOnto : Nat → List Char → Except CountFault Nat
  | n, [] => .ok n
  | n, c :: cs =>
    match Text.digit? 10 c with
    | none => .error .badDigit
    | some d => if UInt64.size ≤ 10 * n + d then .error .tooLarge else countOnto (10 * n + d) cs

/-- The count that a text stands for. It is below 2^64 and may have a plus sign. -/
def count (s : String) : Except CountFault Nat :=
  match s.toList with
  | [] => .error .empty
  | ['+'] => .error .badDigit
  | '+' :: cs => countOnto 0 cs
  | cs => countOnto 0 cs

/-- Whether one of the names is among the arguments, and the arguments without the first such. -/
def takeFlag (names args : List String) : Bool × List String :=
  (args.any names.contains, args.eraseP names.contains)

/-- What follows a text's start, if the text starts so. -/
def after? (start s : List Char) : Option (List Char) :=
  if start.isPrefixOf s then some (s.drop start.length) else none

/-- The value of an option and the arguments without it. A value after an equals sign comes before
one in an argument of its own. -/
def takeValue (option : String) (args : List String) :
    Except CommandError (Option String × List String) :=
  let joined (arg : String) : Option (List Char) := after? (option ++ "=").toList arg.toList
  match args.findSome? joined with
  | some value => .ok (some (String.ofList value), args.eraseP fun arg => (joined arg).isSome)
  | none =>
    match args.span (· != option) with
    | (_, []) => .ok (none, args)
    | (_, [_]) => .error (.missingValue option)
    | (before, _ :: value :: rest) => .ok (some value, before ++ rest)

/-- The value of an option that is a count of bytes, and the arguments without it. -/
def takeByteCount (option : String) (args : List String) :
    Except CommandError (Option Nat × List String) := do
  match ← takeValue option args with
  | (none, args) => return (none, args)
  | (some value, args) => return (some (← (count value).mapError (.badByteCount option)), args)

/-- The flag that asks for more notes, which are about the reading and not about the outcome. -/
def verboseNames : List String := ["--verbose", "-v"]

end WireProtocol.Arguments
