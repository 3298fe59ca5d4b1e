import ClosureConversion.Json.Reader

/-!
# The text level of TOML

Blanks, comments, line ends and strings. Every reader takes the characters from its place on and
returns those behind what it has read. Strings come in four forms: in double quotes with escapes or
in single quotes without, each on one line or, between triple quotes, over several. Only one-line
strings can be keys, so only those are read for their text.
-/

namespace ClosureConversion.Toml

/-! ## Blanks, comments and line ends -/

/-- The blanks inside a line. -/
def isBlank (c : Char) : Bool := c == ' ' || c == '\t'

/-- Skip the blanks of a line. -/
def skipBlanks (cs : List Char) : List Char := cs.dropWhile isBlank

/-- Whether a character may stand in a comment or a string: all but the control characters, the tab
excepted. -/
def isTextChar (c : Char) : Bool := c == '\t' || (' ' ≤ c && c ≠ '\x7f')

/-- Skip blanks and a comment. -/
def skipComment (cs : List Char) : List Char :=
  match skipBlanks cs with
  | '#' :: rest => rest.dropWhile isTextChar
  | rest => rest

/-- Skip the break between two lines. -/
def skipBreak? : List Char → Option (List Char)
  | '\n' :: rest => some rest
  | '\r' :: '\n' :: rest => some rest
  | _ => none

/-- Skip the end of a line, which may be the end of the document. -/
def endLine? (cs : List Char) : Option (List Char) := if cs = [] then some [] else skipBreak? cs

/-- Skip what may follow a statement on its line, and the end of the line. -/
def finishLine? (cs : List Char) : Option (List Char) := endLine? (skipComment cs)

/-- Skip blanks, comments and line ends, at most `fuel` lines. -/
def skipLines : Nat → List Char → List Char
  | 0, cs => cs
  | fuel + 1, cs =>
    match skipBreak? (skipComment cs) with
    | some rest => skipLines fuel rest
    | none => skipComment cs

/-! ## Strings on one line -/

/-- The number that hexadecimal digits stand for. -/
def hexNumber? (cs : List Char) : Option Nat :=
  cs.foldlM (fun n c => return n * 16 + (← Json.hexValue? c)) 0

/-- The character with a given code, if there is one. -/
def scalar? (n : Nat) : Option Char := if n.isValidChar then some (Char.ofNat n) else none

/-- The character that an escape with the given number of hexadecimal digits stands for. -/
def hexEscape? (digits : Nat) (cs : List Char) : Option Char :=
  let code := cs.take digits
  if code.length = digits then (hexNumber? code).bind scalar? else none

/-- Read what follows the backslash of an escape: the character, and how many characters it takes to
write it. -/
def readEscape : List Char → Option (Char × Nat)
  | 'u' :: rest => return (← hexEscape? 4 rest, 5)
  | 'U' :: rest => return (← hexEscape? 8 rest, 9)
  | '/' :: _ => none
  | c :: _ => return (← Json.shortEscape? c, 1)
  | [] => none

/-- Read a string in double quotes up to and including the closing quote. The first `skipped`
characters belong to an escape that has been read already. -/
def readBasic (skipped : Nat) : List Char → Option (List Char × List Char)
  | [] => none
  | c :: rest =>
    if skipped ≠ 0 then readBasic (skipped - 1) rest
    else if c = '"' then some ([], rest)
    else if c = '\\' then do
      let (ch, length) ← readEscape rest
      let (s, rest) ← readBasic length rest
      return (ch :: s, rest)
    else if isTextChar c then do
      let (s, rest) ← readBasic 0 rest
      return (c :: s, rest)
    else none

/-- Read a string in single quotes up to and including the closing quote. -/
def readLiteral (cs : List Char) : Option (List Char × List Char) :=
  match cs.dropWhile (fun c => isTextChar c && c ≠ '\'') with
  | '\'' :: rest => some (cs.takeWhile (fun c => isTextChar c && c ≠ '\''), rest)
  | _ => none

/-! ## Strings over several lines -/

/-- How many characters an escape in a string over several lines takes behind its backslash. A
backslash at the end of a line, blanks aside, takes none: what follows is text of the string. -/
def escapeLength? (cs : List Char) : Option Nat :=
  if (skipBreak? (skipBlanks cs)).isSome then some 0 else (readEscape cs).map (·.2)

/-- Skip a string over several lines and its closing quotes; `quotes` of them stand just before the
place, and the first `skipped` characters belong to an escape. Three quotes close the string, and up
to two more right behind them belong to it. -/
def skipLong (quote : Char) (quotes skipped : Nat) : List Char → Option (List Char)
  | [] => if 3 ≤ quotes then some [] else none
  | c :: rest =>
    if skipped ≠ 0 then skipLong quote 0 (skipped - 1) rest
    else if c = quote then
      if quotes = 4 then some rest else skipLong quote (quotes + 1) 0 rest
    else if 3 ≤ quotes then some (c :: rest)
    else if c = '\\' ∧ quote = '"' then do skipLong quote 0 (← escapeLength? rest) rest
    else if isTextChar c ∨ (skipBreak? (c :: rest)).isSome then skipLong quote 0 0 rest
    else none

/-- Skip a string in any of its forms. -/
def skipString? : List Char → Option (List Char)
  | '"' :: '"' :: '"' :: rest => skipLong '"' 0 0 rest
  | '\'' :: '\'' :: '\'' :: rest => skipLong '\'' 0 0 rest
  | '"' :: rest => (readBasic 0 rest).map (·.2)
  | '\'' :: rest => (readLiteral rest).map (·.2)
  | _ => none

end ClosureConversion.Toml
