/-
# `Choices.RowsText.Rows` — rows from their tokens

The rows stand in one pair of brackets, separated by commas, and each row
is a pair of brackets with its strings in it, separated by commas as well.
Both lists may be empty; no comma stands before the first element or behind
the last; nothing comes after the closing bracket.
-/
import Choices.RowsText.Token

namespace Choices.RowsText

/-- What the reader of rows stands behind: nothing yet, a bracket, a comma
between rows or between strings, a row, a string, or everything.  Inside a
row it keeps the strings of the row so far, last one first. -/
inductive Place where
  | start
  | opened
  | betweenRows
  | behindRow
  | rowOpened
  | betweenTexts (row : List String)
  | behindText (row : List String)
  | closed
deriving DecidableEq

/-- The rows so far, last one first, and where the reader stands. -/
structure Reader where
  rows : List (List String)
  place : Place
deriving DecidableEq

/-- The reader after one more token. -/
def Reader.step? : Reader → Token → Option Reader
  | ⟨rows, .start⟩, .openBracket => some ⟨rows, .opened⟩
  | ⟨rows, .opened⟩, .openBracket => some ⟨rows, .rowOpened⟩
  | ⟨rows, .opened⟩, .closeBracket => some ⟨rows, .closed⟩
  | ⟨rows, .betweenRows⟩, .openBracket => some ⟨rows, .rowOpened⟩
  | ⟨rows, .behindRow⟩, .comma => some ⟨rows, .betweenRows⟩
  | ⟨rows, .behindRow⟩, .closeBracket => some ⟨rows, .closed⟩
  | ⟨rows, .rowOpened⟩, .text chars => some ⟨rows, .behindText [String.ofList chars]⟩
  | ⟨rows, .rowOpened⟩, .closeBracket => some ⟨[] :: rows, .behindRow⟩
  | ⟨rows, .betweenTexts row⟩, .text chars =>
    some ⟨rows, .behindText (String.ofList chars :: row)⟩
  | ⟨rows, .behindText row⟩, .comma => some ⟨rows, .betweenTexts row⟩
  | ⟨rows, .behindText row⟩, .closeBracket => some ⟨row.reverse :: rows, .behindRow⟩
  | _, _ => none

/-- The rows that a list of tokens stands for. -/
def ofTokens? (tokens : List Token) : Option (List (List String)) :=
  match tokens.foldlM Reader.step? ⟨[], .start⟩ with
  | some ⟨rows, .closed⟩ => some rows.reverse
  | _ => none

/-- The rows that a text stands for. -/
def read? (text : String) : Option (List (List String)) :=
  (scan? text.toList).bind ofTokens?

end Choices.RowsText
