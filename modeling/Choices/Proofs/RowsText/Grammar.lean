/-
# `Choices.Proofs.RowsText.Grammar` — which texts are rows

The grammar of JSON, as far as arrays of arrays of strings need it, production
by production and without a reader.  A text is derived from what it denotes, so
every relation here has what is denoted first and the characters last:

    text    = ws array ws
    array   = begin-array [ value *( value-separator value ) ] end-array
    string  = quotation-mark *char quotation-mark
    char    = unescaped / escape letter / escape u 4HEXDIG

Blanks may stand on both sides of the brackets and of the comma, and nowhere
else outside strings.  `ArrayOf` leaves open what the values are, so that rows
are arrays of strings and a text is an array of rows.

A character is denoted by itself or by an escape.  The code of an escape is that
of the character in hexadecimal, and a character past U+FFFF takes two escapes,
one for each half of its surrogate pair.  No character has the code of a
surrogate, so a surrogate by itself denotes nothing.
-/

namespace Choices.RowsText

/-! ## Arrays -/

/-- Any number of the four characters that may stand between tokens. -/
def Blanks (text : List Char) : Prop :=
  ∀ c ∈ text, c = ' ' ∨ c = '\t' ∨ c = '\n' ∨ c = '\r'

/-- A bracket or a comma, with blanks on both sides. -/
def Structural (mark : Char) (text : List Char) : Prop :=
  ∃ before after, Blanks before ∧ Blanks after ∧ text = before ++ mark :: after

section

variable {α : Type} (value : α → List Char → Prop)

/-- Values with a separator in front of each. -/
inductive Further : List α → List Char → Prop
  | nil : Further [] []
  | cons {a : α} {as : List α} {separator text rest : List Char} :
      Structural ',' separator → value a text → Further as rest →
      Further (a :: as) (separator ++ text ++ rest)

/-- An array of values. -/
inductive ArrayOf : List α → List Char → Prop
  | empty {left right : List Char} :
      Structural '[' left → Structural ']' right → ArrayOf [] (left ++ right)
  | values {a : α} {as : List α} {left text rest right : List Char} :
      Structural '[' left → value a text → Further value as rest → Structural ']' right →
      ArrayOf (a :: as) (left ++ text ++ rest ++ right)

end

/-! ## Strings -/

/-- A hexadecimal digit of either case. -/
def HexDigit (digit : Nat) (c : Char) : Prop :=
  "0123456789abcdef".toList[digit]? = some c ∨ "0123456789ABCDEF".toList[digit]? = some c

/-- Hexadecimal digits with a value. -/
inductive Hexadecimal : (code : Nat) → List Char → Prop
  | nil : Hexadecimal 0 []
  | concat {code digit : Nat} {digits : List Char} {c : Char} :
      Hexadecimal code digits → HexDigit digit c → Hexadecimal (16 * code + digit) (digits ++ [c])

/-- An escape with the four digits of a code. -/
def CodeEscape (code : Nat) (text : List Char) : Prop :=
  ∃ digits, Hexadecimal code digits ∧ digits.length = 4 ∧ text = '\\' :: 'u' :: digits

/-- The letters that may stand behind a backslash, and what they denote. -/
def shortEscapes : List (Char × Char) :=
  [('"', '"'), ('\\', '\\'), ('/', '/'), ('b', '\x08'), ('f', '\x0c'), ('n', '\n'), ('r', '\r'),
    ('t', '\t')]

/-- A character as it may stand in a string. -/
inductive CharSpelled : Char → List Char → Prop
  | unescaped {c : Char} :
      0x20 ≤ c.toNat ∧ c.toNat ≤ 0x21 ∨ 0x23 ≤ c.toNat ∧ c.toNat ≤ 0x5B ∨ 0x5D ≤ c.toNat →
      CharSpelled c [c]
  | letter {letter c : Char} : (letter, c) ∈ shortEscapes → CharSpelled c ['\\', letter]
  | code {c : Char} {text : List Char} : CodeEscape c.toNat text → CharSpelled c text
  | pair {c : Char} {leading trailing : List Char} :
      0x10000 ≤ c.toNat →
      CodeEscape (0xD800 + (c.toNat - 0x10000) / 0x400) leading →
      CodeEscape (0xDC00 + (c.toNat - 0x10000) % 0x400) trailing →
      CharSpelled c (leading ++ trailing)

/-- Characters one after the other. -/
inductive CharsSpelled : List Char → List Char → Prop
  | nil : CharsSpelled [] []
  | cons {c : Char} {chars text rest : List Char} :
      CharSpelled c text → CharsSpelled chars rest → CharsSpelled (c :: chars) (text ++ rest)

/-- A string with its quotes. -/
def StringSpelled (string : String) (text : List Char) : Prop :=
  ∃ body, CharsSpelled string.toList body ∧ text = '"' :: body ++ ['"']

/-! ## Rows -/

/-- The text denotes the rows. -/
def Spelled (text : String) (rows : List (List String)) : Prop :=
  ∃ before array after, Blanks before ∧ ArrayOf (ArrayOf StringSpelled) rows array ∧
    Blanks after ∧ text.toList = before ++ array ++ after

end Choices.RowsText
