/-!
# Recognizing text

A recognizer takes a thing from the front of a text. Of two alternatives the first that succeeds is
taken, and a repetition goes on as long as it can. Blanks and comments are skipped in front of every
token.
-/

set_option autoImplicit false

namespace WireProtocol

/-- Takes a thing from the front of a text, or fails. -/
abbrev Recognizer (α : Type) := StateT (List Char) Option α

namespace Recognizer

variable {α β : Type}

/-! ## Blanks and comments -/

/-- Where a skip is. -/
inductive SkipState where
  | between
  /-- In a comment that ends with the line. -/
  | line
  /-- In a comment that has to be closed, which began at `start`. -/
  | block (start : List Char)

def isSpace (c : Char) : Bool := c == ' ' || c == '\t' || c == '\r' || c == '\n'

/-- Skips from inside a state. A comment that is not closed is none. -/
def skipFrom : SkipState → List Char → List Char
  | .between, '/' :: '/' :: cs => skipFrom .line cs
  | .between, '/' :: '*' :: cs => skipFrom (.block ('/' :: '*' :: cs)) cs
  | .between, c :: cs => if isSpace c then skipFrom .between cs else c :: cs
  | .between, [] => []
  | .line, c :: cs => skipFrom (if c == '\n' then .between else .line) cs
  | .line, [] => []
  | .block _, '*' :: '/' :: cs => skipFrom .between cs
  | .block start, _ :: cs => skipFrom (.block start) cs
  | .block start, [] => start

/-- Skips blanks and comments. -/
def skip (s : List Char) : List Char := skipFrom .between s

/-! ## Tokens -/

/-- The rest of a text after a word at its front. -/
def afterWord : (word : List Char) → List Char → Option (List Char)
  | [], s => some s
  | _ :: _, [] => none
  | w :: ws, c :: cs => if w = c then afterWord ws cs else none

/-- The characters of an identifier after its first. -/
def isNameChar (c : Char) : Bool := c.isAlphanum || c == '_'

/-- A word that may go on as another one. -/
def word (w : String) : Recognizer Unit := fun s => (afterWord w.toList (skip s)).map ((), ·)

/-- The rest of a text after a word that no name character follows. -/
def afterWholeWord (w : String) (s : List Char) : Option (List Char) :=
  (afterWord w.toList s).filter fun rest => !(rest.head?.any isNameChar)

/-- A word that does not go on as another one. -/
def keyword (w : String) : Recognizer Unit := fun s => (afterWholeWord w (skip s)).map ((), ·)

/-- A word that does not go on, and whether a minus sign stands directly before it. -/
def signedKeyword (w : String) : Recognizer Bool := fun s =>
  match skip s with
  | '-' :: cs => (afterWholeWord w cs).map (true, ·)
  | cs => (afterWholeWord w cs).map (false, ·)

/-- A letter or underscore and the name characters after it. -/
def identifier : Recognizer String := fun s =>
  match skip s with
  | c :: cs =>
    if c.isAlpha || c == '_' then
      some (String.ofList (c :: cs.takeWhile isNameChar), cs.dropWhile isNameChar)
    else none
  | [] => none

def isHexDigit (c : Char) : Bool :=
  c.isDigit || 'a' ≤ c && c ≤ 'f' || 'A' ≤ c && c ≤ 'F'

/-- One or more characters of a class, and the rest. -/
def run (p : Char → Bool) (s : List Char) : Option (List Char × List Char) :=
  match s.takeWhile p with
  | [] => none
  | cs => some (cs, s.dropWhile p)

/-- A number without its sign: hexadecimal after its mark, or decimal with or without places. -/
def unsigned (s : List Char) : Option (List Char × List Char) :=
  match (afterWord ['0', 'x'] s).bind (run isHexDigit) with
  | some (digits, rest) => some ('0' :: 'x' :: digits, rest)
  | none =>
    match run Char.isDigit s with
    | none => none
    | some (digits, '.' :: rest) =>
      match run Char.isDigit rest with
      | some (places, rest') => some (digits ++ '.' :: places, rest')
      | none => some (digits, '.' :: rest)
    | some (digits, rest) => some (digits, rest)

/-- A number, as it is written. -/
def number : Recognizer String := fun s =>
  match skip s with
  | '-' :: cs => (unsigned cs).map fun r => (String.ofList ('-' :: r.1), r.2)
  | cs => (unsigned cs).map fun r => (String.ofList r.1, r.2)

/-- A text between double quotes; it holds no double quote. -/
def quotedText : Recognizer String := fun s =>
  match skip s with
  | '"' :: cs =>
    match cs.dropWhile (· != '"') with
    | _ :: rest => some (String.ofList (cs.takeWhile (· != '"')), rest)
    | [] => none
  | _ => none

/-- The end of the text. -/
def endOfText : Recognizer Unit := fun s => if (skip s).isEmpty then some ((), []) else none

/-! ## Repetition -/

/-- Whether a thing is there; it is taken if it is. -/
def optionally (p : Recognizer α) : Recognizer (Option α) := fun s =>
  match p s with
  | some (a, rest) => some (some a, rest)
  | none => some (none, s)

/-- At most `n` things. -/
def upTo (p : Recognizer α) : Nat → Recognizer (List α)
  | 0 => pure []
  | n + 1 => fun s =>
    match p s with
    | some (a, rest) => (upTo p n rest).map fun r => (a :: r.1, r.2)
    | none => some ([], s)

/-- As many things as there are. Each takes a character or more, so their count is at most that of
the characters. -/
def many (p : Recognizer α) : Recognizer (List α) := fun s => upTo p s.length s

/-- The first of the alternatives that succeeds. -/
def first : List (Recognizer α) → Recognizer α
  | [] => failure
  | p :: ps => p <|> first ps

end Recognizer

end WireProtocol
