/-
# `Choices.RowsText.Token` — the tokens of a text of rows

Rows are typed as a JSON array of arrays of strings.  Four kinds of token
can occur in one: the two brackets, the comma, and strings.  Blanks between
tokens — space, tab, line feed, carriage return — say nothing.  Any other
character outside a string makes the text none.

Inside a string a character stands for itself unless it is a quote, a
backslash or a control character below U+0020.  A backslash starts an
escape: one of eight letters, or `u` and four hexadecimal digits.  A code
in the surrogate range stands for nothing by itself: a leading surrogate
has to be followed, at once and as an escape too, by a trailing one, and the
two make one character.

The scanner reads one character at a time and never goes back, so scanning
a text is a fold, and scanning two texts in a row is scanning the second
from where the first ends.
-/

namespace Choices.RowsText

inductive Token where
  | openBracket
  | closeBracket
  | comma
  /-- A string, with the characters it denotes. -/
  | text (chars : List Char)
deriving DecidableEq

/-! ## Characters -/

/-- The characters that may stand between tokens. -/
def isBlank (c : Char) : Bool :=
  c = ' ' || c = '\t' || c = '\n' || c = '\r'

/-- The character that a letter behind a backslash denotes. -/
def shortEscape? : Char → Option Char
  | '"' => some '"'
  | '\\' => some '\\'
  | '/' => some '/'
  | 'b' => some '\x08'
  | 'f' => some '\x0c'
  | 'n' => some '\n'
  | 'r' => some '\r'
  | 't' => some '\t'
  | _ => none

/-- The value of a hexadecimal digit of either case. -/
def hexDigit? (c : Char) : Option Nat :=
  if '0' ≤ c ∧ c ≤ '9' then some (c.toNat - '0'.toNat)
  else if 'a' ≤ c ∧ c ≤ 'f' then some (c.toNat - 'a'.toNat + 10)
  else if 'A' ≤ c ∧ c ≤ 'F' then some (c.toNat - 'A'.toNat + 10)
  else none

/-- The codes that lead a pair of surrogates. -/
def isLeading (code : Nat) : Bool := 0xD800 ≤ code && code < 0xDC00

/-- The codes that end a pair of surrogates. -/
def isTrailing (code : Nat) : Bool := 0xDC00 ≤ code && code < 0xE000

def pairChar (leading trailing : Nat) : Char :=
  Char.ofNat (0x10000 + (leading - 0xD800) * 0x400 + (trailing - 0xDC00))

/-! ## The scanner -/

/-- Where the scanner stands.  Inside a string it keeps the characters of
the string so far, last one first. -/
inductive Mode where
  | between
  | text (done : List Char)
  /-- Behind a backslash. -/
  | escape (done : List Char)
  /-- Inside the digits of an escape, with `missing + 1` still to come.  The
  code has to end a pair if there is a leading surrogate before it. -/
  | digits (done : List Char) (leading : Option Nat) (missing code : Nat)
  /-- Behind a leading surrogate. -/
  | led (done : List Char) (leading : Nat)
  /-- Behind a leading surrogate and a backslash. -/
  | ledEscape (done : List Char) (leading : Nat)
deriving DecidableEq

/-- The tokens so far, last one first, and where the scanner stands. -/
structure Scanner where
  tokens : List Token
  mode : Mode
deriving DecidableEq

/-- Where the scanner stands after the last digit of an escape. -/
def afterCode? (done : List Char) : (leading : Option Nat) → (code : Nat) → Option Mode
  | some leading, code =>
    if isTrailing code then some (.text (pairChar leading code :: done)) else none
  | none, code =>
    if isLeading code then some (.led done code)
    else if isTrailing code then none
    else some (.text (Char.ofNat code :: done))

/-- Where the scanner stands after a character inside a string, other than
the closing quote. -/
def Mode.step? : Mode → Char → Option Mode
  | .between, _ => none
  | .text done, c =>
    if c = '\\' then some (.escape done)
    else if c.toNat < 0x20 then none
    else some (.text (c :: done))
  | .escape done, c =>
    if c = 'u' then some (.digits done none 3 0)
    else (shortEscape? c).map fun c => .text (c :: done)
  | .digits done leading missing code, c => do
    let d ← hexDigit? c
    match missing with
    | 0 => afterCode? done leading (16 * code + d)
    | missing + 1 => some (.digits done leading missing (16 * code + d))
  | .led done leading, c => if c = '\\' then some (.ledEscape done leading) else none
  | .ledEscape done leading, c => if c = 'u' then some (.digits done (some leading) 3 0) else none

/-- The scanner after one more character. -/
def Scanner.step? : Scanner → Char → Option Scanner
  | ⟨tokens, .between⟩, c =>
    if isBlank c then some ⟨tokens, .between⟩
    else match c with
      | '[' => some ⟨.openBracket :: tokens, .between⟩
      | ']' => some ⟨.closeBracket :: tokens, .between⟩
      | ',' => some ⟨.comma :: tokens, .between⟩
      | '"' => some ⟨tokens, .text []⟩
      | _ => none
  | ⟨tokens, .text done⟩, '"' => some ⟨.text done.reverse :: tokens, .between⟩
  | ⟨tokens, mode⟩, c => (mode.step? c).map (Scanner.mk tokens)

/-- The scanner after a text. -/
def Scanner.run? (scanner : Scanner) (text : List Char) : Option Scanner :=
  text.foldlM Scanner.step? scanner

/-- The tokens of a text, or `none` when it has a character out of place or
ends inside a string. -/
def scan? (text : List Char) : Option (List Token) :=
  match Scanner.run? ⟨[], .between⟩ text with
  | some ⟨tokens, .between⟩ => some tokens.reverse
  | _ => none

theorem Scanner.run?_append (scanner : Scanner) (text text' : List Char) :
    scanner.run? (text ++ text') = (scanner.run? text).bind (·.run? text') := by
  simp only [run?, List.foldlM_append]
  rfl

end Choices.RowsText
