/-
# `Choices.Proofs.RowsText.Reading` — a text is read just when it denotes rows

Reading has two halves, and each is tied to the grammar by itself.

  - Rows have one list of tokens, `rowsTokens`, and the reader takes it to the
    rows and takes nothing else (`ofTokens?_eq_some_iff`).  What the reader has
    read is told by its place and by what it keeps (`Reader.Behind`).
  - The texts of that list of tokens are the texts that the grammar derives from
    the rows (`padded_arrayOf_iff`).  The grammar has blanks around brackets and
    commas where the tokens have them around every token, so the statement is
    about texts with blanks on both sides, and one induction does for the rows
    of a text and for the strings of a row.

Together with the scanner (`scan?_eq_some_iff`) this makes `read?_eq_some_iff`:
the reader accepts the texts that denote rows, with these rows, and refuses all
others.
-/
import Choices.Proofs.RowsText.Scanning
import Choices.RowsText.Rows

namespace Choices.RowsText

/-! ## The tokens of rows -/

section

variable {α : Type} (tokensOf : α → List Token)

/-- Values with a comma in front of each. -/
def furtherTokens (as : List α) : List Token :=
  as.flatMap fun a => .comma :: tokensOf a

/-- Values with a comma behind each. -/
def leadingTokens (as : List α) : List Token :=
  as.flatMap fun a => tokensOf a ++ [.comma]

/-- Values with commas between them. -/
def valuesTokens : List α → List Token
  | [] => []
  | a :: as => tokensOf a ++ furtherTokens tokensOf as

def arrayTokens (as : List α) : List Token :=
  .openBracket :: (valuesTokens tokensOf as ++ [.closeBracket])

theorem comma_leadingTokens (as : List α) :
    .comma :: leadingTokens tokensOf as = furtherTokens tokensOf as ++ [.comma] := by
  induction as with
  | nil => rfl
  | cons a as ih =>
      calc Token.comma :: leadingTokens tokensOf (a :: as)
          = .comma :: tokensOf a ++ (.comma :: leadingTokens tokensOf as) := by
            simp [leadingTokens]
        _ = furtherTokens tokensOf (a :: as) ++ [.comma] := by
            rw [ih]
            simp [furtherTokens]

/-- A comma stands behind each value but the last. -/
theorem valuesTokens_concat (as : List α) (a : α) :
    valuesTokens tokensOf (as ++ [a]) = leadingTokens tokensOf as ++ tokensOf a := by
  cases as with
  | nil => simp [valuesTokens, leadingTokens, furtherTokens]
  | cons first as =>
      calc valuesTokens tokensOf (first :: as ++ [a])
          = tokensOf first ++ (furtherTokens tokensOf as ++ [.comma]) ++ tokensOf a := by
            simp [valuesTokens, furtherTokens]
        _ = leadingTokens tokensOf (first :: as) ++ tokensOf a := by
            rw [← comma_leadingTokens]
            simp [leadingTokens]

theorem leadingTokens_concat (as : List α) (a : α) :
    leadingTokens tokensOf (as ++ [a]) = leadingTokens tokensOf as ++ (tokensOf a ++ [.comma]) := by
  simp [leadingTokens]

theorem arrayTokens_concat (as : List α) (a : α) :
    arrayTokens tokensOf (as ++ [a])
      = .openBracket :: leadingTokens tokensOf as ++ (tokensOf a ++ [.closeBracket]) := by
  rw [arrayTokens, valuesTokens_concat, List.append_assoc]
  rfl

end

def textTokens (string : String) : List Token := [.text string.toList]

def rowTokens (row : List String) : List Token := arrayTokens textTokens row

def rowsTokens (rows : List (List String)) : List Token := arrayTokens rowTokens rows

/-! ## The reader of tokens -/

/-- What the reader has read when it stands where it does. -/
inductive Reader.Behind : Reader → List Token → Prop
  | start : Behind ⟨[], .start⟩ []
  | opened : Behind ⟨[], .opened⟩ [.openBracket]
  | betweenRows {rows : List (List String)} :
      Behind ⟨rows, .betweenRows⟩ (.openBracket :: leadingTokens rowTokens rows.reverse)
  | behindRow {rows : List (List String)} {row : List String} :
      Behind ⟨row :: rows, .behindRow⟩
        (.openBracket :: leadingTokens rowTokens rows.reverse ++ rowTokens row)
  | rowOpened {rows : List (List String)} :
      Behind ⟨rows, .rowOpened⟩
        (.openBracket :: leadingTokens rowTokens rows.reverse ++ [.openBracket])
  | betweenTexts {rows : List (List String)} {row : List String} :
      Behind ⟨rows, .betweenTexts row⟩
        (.openBracket :: leadingTokens rowTokens rows.reverse
          ++ .openBracket :: leadingTokens textTokens row.reverse)
  | behindText {rows : List (List String)} {row : List String} {string : String} :
      Behind ⟨rows, .behindText (string :: row)⟩
        (.openBracket :: leadingTokens rowTokens rows.reverse
          ++ .openBracket :: (leadingTokens textTokens row.reverse ++ textTokens string))
  | closed {rows : List (List String)} :
      Behind ⟨rows, .closed⟩ (rowsTokens rows.reverse)

/-- One more token makes what the reader has read longer by that token. -/
theorem Reader.Behind.step {reader reader' : Reader} {tokens : List Token} {token : Token}
    (h : reader.Behind tokens) (hstep : reader.step? token = some reader') :
    reader'.Behind (tokens ++ [token]) := by
  -- the cases are the tokens that the reader takes, place by place
  rw [Reader.step?.eq_def] at hstep
  split at hstep
  all_goals cases hstep
  all_goals cases h
  · exact .opened
  · exact .rowOpened
  · exact .closed
  · exact .rowOpened
  · next rows row =>
      have hnext : Reader.Behind ⟨row :: rows, .betweenRows⟩ _ := .betweenRows
      rwa [List.reverse_cons, leadingTokens_concat, ← List.cons_append, ← List.append_assoc] at hnext
  · next rows row =>
      have hnext : Reader.Behind ⟨row :: rows, .closed⟩ _ := .closed
      rwa [List.reverse_cons, rowsTokens, arrayTokens_concat, ← List.append_assoc] at hnext
  · next rows chars =>
      have hnext : Reader.Behind ⟨rows, .behindText [String.ofList chars]⟩ _ := .behindText
      rw [textTokens, String.toList_ofList] at hnext
      rwa [List.append_assoc]
  · next rows =>
      rw [List.append_assoc]
      exact .behindRow
  · next rows row chars =>
      have hnext : Reader.Behind ⟨rows, .behindText (String.ofList chars :: row)⟩ _ := .behindText
      rw [textTokens, String.toList_ofList] at hnext
      rwa [List.append_assoc]
  · next rows row string =>
      have hnext : Reader.Behind ⟨rows, .betweenTexts (string :: row)⟩ _ := .betweenTexts
      rw [List.reverse_cons, leadingTokens_concat] at hnext
      simpa using hnext
  · next rows row string =>
      have hnext : Reader.Behind ⟨(string :: row).reverse :: rows, .behindRow⟩ _ := .behindRow
      rw [List.reverse_cons, rowTokens, arrayTokens_concat] at hnext
      simpa using hnext

/-- The reader after some more tokens. -/
def Reader.run? (reader : Reader) (tokens : List Token) : Option Reader :=
  tokens.foldlM Reader.step? reader

theorem Reader.run?_append (reader : Reader) (tokens tokens' : List Token) :
    reader.run? (tokens ++ tokens') = (reader.run? tokens).bind (·.run? tokens') :=
  List.foldlM_append

theorem Reader.Behind.run {tokens front : List Token} {reader reader' : Reader}
    (h : reader.Behind front) (hrun : reader.run? tokens = some reader') :
    reader'.Behind (front ++ tokens) :=
  behind_of_foldlM Reader.Behind.step h hrun

theorem Reader.run?_furtherTexts {rows : List (List String)} : ∀ {strings row : List String},
    Reader.run? ⟨rows, .behindText row⟩ (furtherTokens textTokens strings)
      = some ⟨rows, .behindText (strings.reverse ++ row)⟩ := by
  intro strings
  induction strings with
  | nil =>
      intro row
      rfl
  | cons string strings ih =>
      intro row
      show Reader.run? ⟨rows, .behindText (String.ofList string.toList :: row)⟩
        (furtherTokens textTokens strings) = _
      rw [String.ofList_toList, ih, List.reverse_cons, List.append_assoc]
      rfl

/-- Behind the bracket that opens a row comes the row. -/
theorem Reader.run?_row {rows : List (List String)} (row : List String) :
    Reader.run? ⟨rows, .rowOpened⟩ (valuesTokens textTokens row ++ [.closeBracket])
      = some ⟨row :: rows, .behindRow⟩ := by
  cases row with
  | nil => rfl
  | cons string strings =>
      show (Reader.run? ⟨rows, .behindText [String.ofList string.toList]⟩
        (furtherTokens textTokens strings ++ [.closeBracket])) = _
      rw [Reader.run?_append, Reader.run?_furtherTexts, Option.bind_some, String.ofList_toList]
      show some (Reader.mk ((strings.reverse ++ [string]).reverse :: rows) .behindRow) = _
      rw [List.reverse_append, List.reverse_reverse]
      rfl

theorem Reader.run?_furtherRows : ∀ {more rows : List (List String)},
    Reader.run? ⟨rows, .behindRow⟩ (furtherTokens rowTokens more)
      = some ⟨more.reverse ++ rows, .behindRow⟩ := by
  intro more
  induction more with
  | nil =>
      intro rows
      rfl
  | cons row more ih =>
      intro rows
      show Reader.run? ⟨rows, .rowOpened⟩
        ((valuesTokens textTokens row ++ [.closeBracket]) ++ furtherTokens rowTokens more) = _
      rw [Reader.run?_append, Reader.run?_row, Option.bind_some, ih, List.reverse_cons,
        List.append_assoc]
      rfl

theorem Reader.run?_rowsTokens (rows : List (List String)) :
    Reader.run? ⟨[], .start⟩ (rowsTokens rows) = some ⟨rows.reverse, .closed⟩ := by
  cases rows with
  | nil => rfl
  | cons row rows =>
      show Reader.run? ⟨[], .rowOpened⟩
        ((valuesTokens textTokens row ++ [.closeBracket]) ++ furtherTokens rowTokens rows
          ++ [.closeBracket]) = _
      rw [Reader.run?_append, Reader.run?_append, Reader.run?_row, Option.bind_some,
        Reader.run?_furtherRows, Option.bind_some, List.reverse_cons]
      rfl

/-- The tokens of rows are read as these rows, and nothing else is. -/
theorem ofTokens?_eq_some_iff {tokens : List Token} {rows : List (List String)} :
    ofTokens? tokens = some rows ↔ tokens = rowsTokens rows := by
  constructor
  · intro h
    simp only [ofTokens?] at h
    split at h
    · next read hrun =>
        cases h
        cases Reader.Behind.start.run hrun
        rfl
    · cases h
  · rintro rfl
    rw [ofTokens?, show List.foldlM Reader.step? ⟨[], .start⟩ (rowsTokens rows)
      = some ⟨rows.reverse, .closed⟩ from Reader.run?_rowsTokens rows]
    show some rows.reverse.reverse = _
    rw [List.reverse_reverse]

/-! ## Texts with blanks on both sides -/

/-- A value that may have blanks on both sides. -/
def Padded {α : Type} (value : α → List Char → Prop) (a : α) (text : List Char) : Prop :=
  ∃ before spelling after, Blanks before ∧ value a spelling ∧ Blanks after ∧
    text = before ++ spelling ++ after

theorem Padded.of_spelled {α : Type} {value : α → List Char → Prop} {a : α} {text : List Char}
    (h : value a text) : Padded value a text :=
  ⟨[], text, [], blanks_nil, h, blanks_nil, by simp⟩

/-- Blanks around a text change nothing about its tokens. -/
theorem Lexes.padded {tokens : List Token} {before text after : List Char}
    (hbefore : Blanks before) (h : Lexes tokens text) (hafter : Blanks after) :
    Lexes tokens (before ++ text ++ after) := by
  have hend : Lexes (tokens ++ []) (before ++ text ++ after) :=
    (h.blanks_append hbefore).append hafter
  rwa [List.append_nil] at hend

theorem Structural.lexes {mark : Char} {token : Token} {text : List Char}
    (h : Structural mark text) (htoken : TokenSpelled token [mark]) : Lexes [token] text := by
  obtain ⟨before, after, hbefore, hafter, rfl⟩ := h
  rw [List.append_cons]
  exact htoken.lexes.padded hbefore hafter

theorem padded_stringSpelled_iff {string : String} {text : List Char} :
    Padded StringSpelled string text ↔ Lexes (textTokens string) text := by
  constructor
  · rintro ⟨before, _, after, hbefore, ⟨body, hbody, rfl⟩, hafter, rfl⟩
    exact ⟨before, _, after, hbefore, .text hbody, hafter, rfl⟩
  · rintro ⟨before, _, after, hbefore, hspelling, hafter, rfl⟩
    cases hspelling with
    | @text chars body hbody => exact ⟨before, _, after, hbefore, ⟨body, hbody, rfl⟩, hafter, rfl⟩

section

variable {α : Type} {value : α → List Char → Prop} {tokensOf : α → List Token}
  (hvalue : ∀ {a : α} {text : List Char}, Padded value a text ↔ Lexes (tokensOf a) text)

include hvalue

theorem lexes_of_further {as : List α} {text : List Char} (h : Further value as text) :
    Lexes (furtherTokens tokensOf as) text := by
  induction h with
  | nil => exact blanks_nil
  | cons hseparator htext _ ih =>
      exact ((hseparator.lexes .comma).append (hvalue.mp (.of_spelled htext))).append ih

theorem lexes_of_arrayOf {as : List α} {text : List Char} (h : ArrayOf value as text) :
    Lexes (arrayTokens tokensOf as) text := by
  cases h with
  | empty hleft hright => exact (hleft.lexes .openBracket).append (hright.lexes .closeBracket)
  | @values a as left text rest right hleft htext hrest hright =>
      have hinner : Lexes (valuesTokens tokensOf (a :: as)) (text ++ rest) :=
        (hvalue.mp (.of_spelled htext)).append (lexes_of_further hvalue hrest)
      rw [List.append_assoc left]
      exact ((hleft.lexes .openBracket).append hinner).append (hright.lexes .closeBracket)

/-- The blanks behind a value go to the comma or the bracket that follows. -/
theorem exists_further_of_lexes : ∀ {as : List α} {text : List Char},
    Lexes (furtherTokens tokensOf as ++ [.closeBracket]) text →
    ∃ rest right, Further value as rest ∧ Structural ']' right ∧ text = rest ++ right := by
  intro as
  induction as with
  | nil =>
      rintro text ⟨before, _, after, hbefore, ⟨⟩, hafter, rfl⟩
      exact ⟨[], _, .nil, ⟨before, after, hbefore, hafter, rfl⟩, by simp⟩
  | cons a as ih =>
      rintro text h
      rw [furtherTokens, List.flatMap_cons, List.append_assoc] at h
      obtain ⟨before, _, rest, hbefore, ⟨⟩, hrest, rfl⟩ := h
      obtain ⟨front, back, hfront, hback, rfl⟩ := lexes_append_iff.mp hrest
      obtain ⟨left, spelling, right, hleft, hspelling, hright, rfl⟩ := hvalue.mpr hfront
      obtain ⟨further, close, hfurther, hclose, hends⟩ := ih (hback.blanks_append hright)
      have hseparator : Structural ',' (before ++ ',' :: left) :=
        ⟨before, left, hbefore, hleft, rfl⟩
      refine ⟨_, close, .cons hseparator hspelling hfurther, hclose, ?_⟩
      simp [← hends]

theorem arrayOf_of_lexes {as : List α} {text : List Char}
    (h : Lexes (arrayTokens tokensOf as) text) : ArrayOf value as text := by
  obtain ⟨before, _, rest, hbefore, ⟨⟩, hrest, rfl⟩ := h
  cases as with
  | nil =>
      obtain ⟨between, _, after, hbetween, ⟨⟩, hafter, rfl⟩ := hrest
      have hleft : Structural '[' (before ++ ['[']) := ⟨before, [], hbefore, blanks_nil, rfl⟩
      have hright : Structural ']' (between ++ [']'] ++ after) :=
        ⟨between, after, hbetween, hafter, by simp⟩
      exact .empty hleft hright
  | cons a as =>
      rw [valuesTokens, List.append_assoc] at hrest
      obtain ⟨front, back, hfront, hback, rfl⟩ := lexes_append_iff.mp hrest
      obtain ⟨left, spelling, right, hleft, hspelling, hright, rfl⟩ := hvalue.mpr hfront
      obtain ⟨further, close, hfurther, hclose, hends⟩ :=
        exists_further_of_lexes hvalue (hback.blanks_append hright)
      have hopen : Structural '[' (before ++ '[' :: left) := ⟨before, left, hbefore, hleft, rfl⟩
      have harray := ArrayOf.values hopen hspelling hfurther hclose
      rw [List.append_assoc _ further, ← hends] at harray
      simpa using harray

theorem padded_arrayOf_iff {as : List α} {text : List Char} :
    Padded (ArrayOf value) as text ↔ Lexes (arrayTokens tokensOf as) text := by
  constructor
  · rintro ⟨before, array, after, hbefore, harray, hafter, rfl⟩
    exact (lexes_of_arrayOf hvalue harray).padded hbefore hafter
  · intro h
    exact .of_spelled (arrayOf_of_lexes hvalue h)

end

/-- A text is read as the rows that it denotes. -/
theorem read?_eq_some_iff {text : String} {rows : List (List String)} :
    read? text = some rows ↔ Spelled text rows := by
  calc read? text = some rows
      ↔ ∃ tokens, scan? text.toList = some tokens ∧ ofTokens? tokens = some rows :=
        Option.bind_eq_some_iff
    _ ↔ scan? text.toList = some (rowsTokens rows) := by simp [ofTokens?_eq_some_iff]
    _ ↔ Lexes (rowsTokens rows) text.toList := scan?_eq_some_iff
    _ ↔ Spelled text rows := (padded_arrayOf_iff (padded_arrayOf_iff padded_stringSpelled_iff)).symm

theorem read?_eq_none_iff {text : String} : read? text = none ↔ ∀ rows, ¬Spelled text rows := by
  constructor
  · intro h rows hrows
    rw [read?_eq_some_iff.mpr hrows] at h
    cases h
  · intro h
    cases hread : read? text with
    | none => rfl
    | some rows => exact absurd (read?_eq_some_iff.mp hread) (h rows)

end Choices.RowsText
