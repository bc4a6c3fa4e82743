/-
# `Choices.Proofs.RowsText.Scanning` — the scanner finds the tokens

`Lexes tokens text` says of a text that it is the tokens, each spelled as the
grammar has it, with any blanks around them.  The scanner accepts a text with
these tokens and no other: `scan?_eq_some_iff`.

Inside a string the scanner is always somewhere in a character, and the mode
says where.  `Mode.Inside mode done part` is what a mode stands for: the
characters `done` are complete, and `part` is what has been read of the next
one.  One step either reads on in that character or completes it
(`Mode.Inside.step`), and completing means that the characters read spell it.
From this a run that ends between tokens has read the spellings of its tokens.
In the other direction each production of the grammar is run as it stands, from
the digits of an escape up to a list of tokens (`Scanner.run?_of_lexes`).
-/
import Mathlib.Tactic.IntervalCases
import Choices.Proofs.RowsText.Grammar
import Choices.RowsText.Token

namespace Choices.RowsText

/-! ## Characters -/

theorem eq_ofNat_of_toNat {c : Char} {n : Nat} (h : c.toNat = n) : c = Char.ofNat n := by
  rw [← h, Char.ofNat_toNat]

theorem isBlank_iff {c : Char} : isBlank c = true ↔ c = ' ' ∨ c = '\t' ∨ c = '\n' ∨ c = '\r' := by
  simp [isBlank, or_assoc]

theorem shortEscape?_eq_some_iff {letter c : Char} :
    shortEscape? letter = some c ↔ (letter, c) ∈ shortEscapes := by
  unfold shortEscape?
  split <;> simp_all [shortEscapes, eq_comm]

/-- The digits stand in three runs of consecutive characters. -/
theorem hexDigit_iff {c : Char} {digit : Nat} :
    HexDigit digit c ↔ digit < 10 ∧ c = Char.ofNat (48 + digit) ∨
      (10 ≤ digit ∧ digit < 16) ∧ (c = Char.ofNat (87 + digit) ∨ c = Char.ofNat (55 + digit)) := by
  by_cases h : digit < 16
  · interval_cases digit <;> simp [HexDigit, eq_comm]
  · have h₁ : "0123456789abcdef".toList.length ≤ digit := by simpa using h
    have h₂ : "0123456789ABCDEF".toList.length ≤ digit := by simpa using h
    rw [HexDigit, List.getElem?_eq_none h₁, List.getElem?_eq_none h₂]
    simp
    omega

theorem le_iff_toNat {c d : Char} : c ≤ d ↔ c.toNat ≤ d.toNat := by
  rw [Char.le_def, UInt32.le_iff_toNat_le]
  rfl

theorem hexDigit?_eq_some_iff {c : Char} {digit : Nat} :
    hexDigit? c = some digit ↔ HexDigit digit c := by
  rw [hexDigit_iff]
  constructor
  · intro h
    simp only [hexDigit?, le_iff_toNat, show '0'.toNat = 48 from rfl, show '9'.toNat = 57 from rfl,
      show 'a'.toNat = 97 from rfl, show 'f'.toNat = 102 from rfl, show 'A'.toNat = 65 from rfl,
      show 'F'.toNat = 70 from rfl] at h
    split at h
    · next hc =>
        cases h
        exact Or.inl ⟨by omega, eq_ofNat_of_toNat (by omega)⟩
    · split at h
      · next hc =>
          cases h
          exact Or.inr ⟨by omega, Or.inl (eq_ofNat_of_toNat (by omega))⟩
      · split at h
        · next hc =>
            cases h
            exact Or.inr ⟨by omega, Or.inr (eq_ofNat_of_toNat (by omega))⟩
        · cases h
  · rintro (⟨hdigit, rfl⟩ | ⟨⟨hlow, hhigh⟩, rfl | rfl⟩)
    · interval_cases digit <;> rfl
    · interval_cases digit <;> rfl
    · interval_cases digit <;> rfl

/-- The code of a character is no surrogate, and has at most 21 bits. -/
theorem toNat_valid (c : Char) :
    c.toNat < 0xD800 ∨ 0xDFFF < c.toNat ∧ c.toNat < 0x110000 := c.valid

theorem toNat_ofNat {n : Nat} (h : n < 0xD800 ∨ 0xDFFF < n ∧ n < 0x110000) :
    (Char.ofNat n).toNat = n := by
  rw [Char.ofNat, dif_pos h]
  rfl

theorem isLeading_iff {code : Nat} : isLeading code = true ↔ 0xD800 ≤ code ∧ code < 0xDC00 := by
  simp [isLeading]

theorem isTrailing_iff {code : Nat} : isTrailing code = true ↔ 0xDC00 ≤ code ∧ code < 0xE000 := by
  simp [isTrailing]

theorem Hexadecimal.code_lt {code : Nat} {digits : List Char} (h : Hexadecimal code digits) :
    code < Nat.pow 16 digits.length := by
  induction h with
  | nil => exact Nat.one_pos
  | @concat code digit digits c _ hdigit ih =>
      have hlt : digit < 16 := by
        rcases hexDigit_iff.mp hdigit with h | h
        · omega
        · omega
      rw [List.length_append, List.length_singleton]
      show 16 * code + digit < Nat.pow 16 digits.length * 16
      omega

/-- Four digits make a code of 16 bits. -/
theorem CodeEscape.code_lt {code : Nat} {text : List Char} (h : CodeEscape code text) :
    code < 0x10000 := by
  obtain ⟨digits, hdigits, hlength, -⟩ := h
  have hlt := hdigits.code_lt
  rw [hlength] at hlt
  exact hlt

theorem CodeEscape.ne_nil {code : Nat} {text : List Char} (h : CodeEscape code text) :
    text ≠ [] := by
  obtain ⟨digits, -, -, rfl⟩ := h
  exact List.cons_ne_nil _ _

/-- A fourth digit completes an escape. -/
theorem Hexadecimal.codeEscape {code : Nat} {digits : List Char} {c : Char}
    (h : Hexadecimal code (digits ++ [c])) (hlength : digits.length = 3) :
    CodeEscape code ('\\' :: 'u' :: digits ++ [c]) :=
  ⟨digits ++ [c], h, by rw [List.length_append, hlength, List.length_singleton], rfl⟩

theorem CharsSpelled.concat {chars body text : List Char} {c : Char} (h : CharsSpelled chars body)
    (hc : CharSpelled c text) : CharsSpelled (chars ++ [c]) (body ++ text) := by
  induction h with
  | nil => simpa using CharsSpelled.cons hc .nil
  | cons hfirst _ ih =>
      rw [List.cons_append, List.append_assoc]
      exact .cons hfirst ih

/-! ## Tokens -/

/-- A token as it stands in a text. -/
inductive TokenSpelled : Token → List Char → Prop
  | openBracket : TokenSpelled .openBracket ['[']
  | closeBracket : TokenSpelled .closeBracket [']']
  | comma : TokenSpelled .comma [',']
  | text {chars body : List Char} :
      CharsSpelled chars body → TokenSpelled (.text chars) ('"' :: body ++ ['"'])

/-- The text is the tokens, with blanks before, between and behind them. -/
def Lexes : List Token → List Char → Prop
  | [], text => Blanks text
  | token :: tokens, text =>
    ∃ before spelling rest, Blanks before ∧ TokenSpelled token spelling ∧ Lexes tokens rest ∧
      text = before ++ spelling ++ rest

theorem blanks_append {text text' : List Char} :
    Blanks (text ++ text') ↔ Blanks text ∧ Blanks text' :=
  List.forall_mem_append

theorem blanks_nil : Blanks [] := by
  intro c hc
  cases hc

theorem Lexes.blanks_append {before text : List Char} {tokens : List Token}
    (hbefore : Blanks before) (h : Lexes tokens text) : Lexes tokens (before ++ text) := by
  cases tokens with
  | nil => exact RowsText.blanks_append.mpr ⟨hbefore, h⟩
  | cons token tokens =>
      obtain ⟨blanks, spelling, rest, hblanks, hspelling, hrest, rfl⟩ := h
      exact ⟨before ++ blanks, spelling, rest, RowsText.blanks_append.mpr ⟨hbefore, hblanks⟩,
        hspelling, hrest, by simp⟩

/-- Texts in a row have the tokens in a row, and tokens in a row come from texts
in a row. -/
theorem lexes_append_iff {tokens' : List Token} : ∀ {tokens : List Token} {text : List Char},
    Lexes (tokens ++ tokens') text ↔
      ∃ front back, Lexes tokens front ∧ Lexes tokens' back ∧ text = front ++ back := by
  intro tokens
  induction tokens with
  | nil =>
      intro text
      constructor
      · intro h
        exact ⟨[], text, blanks_nil, h, rfl⟩
      · rintro ⟨front, back, hfront, hback, rfl⟩
        exact hback.blanks_append hfront
  | cons token tokens ih =>
      intro text
      constructor
      · rintro ⟨before, spelling, rest, hbefore, hspelling, hrest, rfl⟩
        obtain ⟨front, back, hfront, hback, rfl⟩ := ih.mp hrest
        exact ⟨before ++ spelling ++ front, back,
          ⟨before, spelling, front, hbefore, hspelling, hfront, rfl⟩, hback, by simp⟩
      · rintro ⟨front, back, ⟨before, spelling, rest, hbefore, hspelling, hrest, rfl⟩, hback, rfl⟩
        exact ⟨before, spelling, rest ++ back, hbefore, hspelling,
          ih.mpr ⟨rest, back, hrest, hback, rfl⟩, by simp⟩

theorem Lexes.append {tokens tokens' : List Token} {text text' : List Char}
    (h : Lexes tokens text) (h' : Lexes tokens' text') :
    Lexes (tokens ++ tokens') (text ++ text') :=
  lexes_append_iff.mpr ⟨text, text', h, h', rfl⟩

theorem TokenSpelled.lexes {token : Token} {spelling : List Char}
    (h : TokenSpelled token spelling) : Lexes [token] spelling :=
  ⟨[], spelling, [], blanks_nil, h, blanks_nil, by simp⟩

/-! ## Inside a character -/

/-- In this mode the characters `done` of a string are complete, and `part` is
what has been read of the next one. -/
inductive Mode.Inside : Mode → (done part : List Char) → Prop
  | text {done : List Char} : Inside (.text done) done []
  | escape {done : List Char} : Inside (.escape done) done ['\\']
  | digits {done digits : List Char} {missing code : Nat} :
      Hexadecimal code digits → digits.length + missing = 3 →
      Inside (.digits done none missing code) done ('\\' :: 'u' :: digits)
  | led {done lead : List Char} {leading : Nat} :
      CodeEscape leading lead → isLeading leading = true → Inside (.led done leading) done lead
  | ledEscape {done lead : List Char} {leading : Nat} :
      CodeEscape leading lead → isLeading leading = true →
      Inside (.ledEscape done leading) done (lead ++ ['\\'])
  | ledDigits {done lead digits : List Char} {leading missing code : Nat} :
      CodeEscape leading lead → isLeading leading = true →
      Hexadecimal code digits → digits.length + missing = 3 →
      Inside (.digits done (some leading) missing code) done (lead ++ '\\' :: 'u' :: digits)

/-- Only between characters nothing has been read of one. -/
theorem Mode.Inside.eq_text {mode : Mode} {done part : List Char} (h : mode.Inside done part)
    (hpart : part = []) : mode = .text done := by
  cases h with
  | text => rfl
  | escape => cases hpart
  | digits => cases hpart
  | led hlead => exact absurd hpart hlead.ne_nil
  | ledEscape => simp at hpart
  | ledDigits => simp at hpart

/-- A code by itself is that of a character or of a leading surrogate. -/
theorem afterCode?_none_cases {done : List Char} {code : Nat} {mode : Mode}
    (hcode : code < 0x10000) (h : afterCode? done none code = some mode) :
    isLeading code = true ∧ mode = .led done code ∨
      ∃ c : Char, c.toNat = code ∧ mode = .text (c :: done) := by
  simp only [afterCode?] at h
  split at h
  · next hleading =>
      cases h
      exact Or.inl ⟨hleading, rfl⟩
  · next hleading =>
      split at h
      · cases h
      · next htrailing =>
          cases h
          rw [isLeading_iff] at hleading
          rw [isTrailing_iff] at htrailing
          exact Or.inr ⟨Char.ofNat code, toNat_ofNat (by omega), rfl⟩

/-- A code behind a leading surrogate is a trailing one, and the two are the
halves of a character. -/
theorem afterCode?_some_cases {done : List Char} {leading code : Nat} {mode : Mode}
    (hleading : isLeading leading = true) (h : afterCode? done (some leading) code = some mode) :
    ∃ c : Char, 0x10000 ≤ c.toNat ∧ leading = 0xD800 + (c.toNat - 0x10000) / 0x400 ∧
      code = 0xDC00 + (c.toNat - 0x10000) % 0x400 ∧ mode = .text (c :: done) := by
  simp only [afterCode?] at h
  split at h
  · next htrailing =>
      cases h
      rw [isLeading_iff] at hleading
      rw [isTrailing_iff] at htrailing
      have hchar : (pairChar leading code).toNat
          = 0x10000 + (leading - 0xD800) * 0x400 + (code - 0xDC00) := toNat_ofNat (by omega)
      exact ⟨pairChar leading code, by omega, by omega, by omega, rfl⟩
  · cases h

/-- One more character of a string is one more of the character that is being
read, or the last one of it. -/
theorem Mode.Inside.step {mode mode' : Mode} {done part : List Char} {c : Char}
    (h : mode.Inside done part) (hquote : part = [] → c ≠ '"')
    (hstep : mode.step? c = some mode') :
    mode'.Inside done (part ++ [c]) ∨
      ∃ char, CharSpelled char (part ++ [c]) ∧ mode' = .text (char :: done) := by
  cases h with
  | text =>
      simp only [Mode.step?] at hstep
      split at hstep
      · next hc =>
          cases hstep
          exact Or.inl (hc ▸ .escape)
      · next hc =>
          split at hstep
          · cases hstep
          · next hlow =>
              cases hstep
              have hquote' : c.toNat ≠ 0x22 := fun h => hquote rfl (eq_ofNat_of_toNat h)
              have hc' : c.toNat ≠ 0x5C := fun h => hc (eq_ofNat_of_toNat h)
              exact Or.inr ⟨c, .unescaped (by omega), rfl⟩
  | escape =>
      simp only [Mode.step?] at hstep
      split at hstep
      · next hc =>
          cases hstep
          exact Or.inl (hc ▸ .digits .nil rfl)
      · obtain ⟨char, hchar, rfl⟩ := Option.map_eq_some_iff.mp hstep
        exact Or.inr ⟨char, .letter (shortEscape?_eq_some_iff.mp hchar), rfl⟩
  | @digits _ digits missing code hcode hlength =>
      simp only [Mode.step?] at hstep
      obtain ⟨digit, hdigit, hstep⟩ := Option.bind_eq_some_iff.mp hstep
      have hcode' := hcode.concat (hexDigit?_eq_some_iff.mp hdigit)
      cases missing with
      | zero =>
          have hescape := hcode'.codeEscape hlength
          rcases afterCode?_none_cases hescape.code_lt hstep with
            ⟨hleading, rfl⟩ | ⟨char, hchar, rfl⟩
          · exact Or.inl (.led hescape hleading)
          · exact Or.inr ⟨char, .code (hchar ▸ hescape), rfl⟩
      | succ missing =>
          cases hstep
          have hlonger : (digits ++ [c]).length + missing = 3 := by
            rw [List.length_append, List.length_singleton]
            omega
          exact Or.inl (.digits hcode' hlonger)
  | led hlead hleading =>
      simp only [Mode.step?] at hstep
      split at hstep
      · next hc =>
          cases hstep
          exact Or.inl (hc ▸ .ledEscape hlead hleading)
      · cases hstep
  | @ledEscape _ lead _ hlead hleading =>
      simp only [Mode.step?] at hstep
      split at hstep
      · next hc =>
          cases hstep
          rw [hc, List.append_assoc]
          exact Or.inl (.ledDigits hlead hleading .nil rfl)
      · cases hstep
  | @ledDigits _ lead digits leading missing code hlead hleading hcode hlength =>
      simp only [Mode.step?] at hstep
      obtain ⟨digit, hdigit, hstep⟩ := Option.bind_eq_some_iff.mp hstep
      have hcode' := hcode.concat (hexDigit?_eq_some_iff.mp hdigit)
      rw [List.append_assoc]
      cases missing with
      | zero =>
          have hescape := hcode'.codeEscape hlength
          obtain ⟨char, hpast, rfl, htrailing, rfl⟩ := afterCode?_some_cases hleading hstep
          exact Or.inr ⟨char, .pair hpast hlead (htrailing ▸ hescape), rfl⟩
      | succ missing =>
          cases hstep
          have hlonger : (digits ++ [c]).length + missing = 3 := by
            rw [List.length_append, List.length_singleton]
            omega
          exact Or.inl (.ledDigits hlead hleading hcode' hlonger)

/-! ## What the scanner has read -/

/-- What has been read when the scanner stands where it does. -/
inductive Scanner.Behind : Scanner → List Char → Prop
  | between {tokens : List Token} {text : List Char} :
      Lexes tokens.reverse text → Behind ⟨tokens, .between⟩ text
  | inside {tokens : List Token} {mode : Mode} {text done body part : List Char} :
      Lexes tokens.reverse text → CharsSpelled done.reverse body → mode.Inside done part →
      Behind ⟨tokens, mode⟩ (text ++ ('"' :: body ++ part))

/-- Inside a string only a quote between characters is not left to the mode. -/
theorem Scanner.step?_inside {tokens : List Token} {mode : Mode} {done part : List Char} {c : Char}
    (h : mode.Inside done part) (hquote : part = [] → c ≠ '"') :
    Scanner.step? ⟨tokens, mode⟩ c = (mode.step? c).map (Scanner.mk tokens) := by
  cases h with
  | text =>
      rw [Scanner.step?.eq_def]
      split
      · next heq => cases heq
      · next heq =>
          exact absurd rfl (hquote rfl)
      · next heq _ =>
          cases heq
          rfl
  | escape => rfl
  | digits => rfl
  | led => rfl
  | ledEscape => rfl
  | ledDigits => rfl

/-- Between tokens a character is a blank, a token, or the start of a string. -/
theorem Scanner.step?_between_cases {tokens : List Token} {c : Char} {scanner : Scanner}
    (h : Scanner.step? ⟨tokens, .between⟩ c = some scanner) :
    Blanks [c] ∧ scanner = ⟨tokens, .between⟩ ∨
      (∃ token, TokenSpelled token [c] ∧ scanner = ⟨token :: tokens, .between⟩) ∨
      c = '"' ∧ scanner = ⟨tokens, .text []⟩ := by
  simp only [Scanner.step?] at h
  split at h
  · next hblank =>
      cases h
      refine Or.inl ⟨fun d hd => ?_, rfl⟩
      rw [List.mem_singleton.mp hd]
      exact isBlank_iff.mp hblank
  · split at h
    · cases h
      exact Or.inr (Or.inl ⟨_, .openBracket, rfl⟩)
    · cases h
      exact Or.inr (Or.inl ⟨_, .closeBracket, rfl⟩)
    · cases h
      exact Or.inr (Or.inl ⟨_, .comma, rfl⟩)
    · cases h
      exact Or.inr (Or.inr ⟨rfl, rfl⟩)
    · cases h

theorem Scanner.Behind.step {scanner scanner' : Scanner} {text : List Char} {c : Char}
    (h : scanner.Behind text) (hstep : scanner.step? c = some scanner') :
    scanner'.Behind (text ++ [c]) := by
  cases h with
  | between htokens =>
      rcases Scanner.step?_between_cases hstep with
        ⟨hblank, rfl⟩ | ⟨token, htoken, rfl⟩ | ⟨rfl, rfl⟩
      · have hblanks : Lexes [] [c] := hblank
        exact .between (by simpa using htokens.append hblanks)
      · refine .between ?_
        rw [List.reverse_cons]
        exact htokens.append htoken.lexes
      · have hempty : CharsSpelled ([] : List Char).reverse [] := .nil
        exact .inside htokens hempty .text
  | @inside tokens mode text done body part htokens hbody hinside =>
      by_cases hquote : part = [] → c ≠ '"'
      · rw [Scanner.step?_inside hinside hquote] at hstep
        obtain ⟨mode', hmode, rfl⟩ := Option.map_eq_some_iff.mp hstep
        rw [List.append_assoc, List.append_assoc]
        rcases hinside.step hquote hmode with hinside' | ⟨char, hchar, rfl⟩
        · exact .inside htokens hbody hinside'
        · have hbody' : CharsSpelled (char :: done).reverse (body ++ (part ++ [c])) := by
            rw [List.reverse_cons]
            exact hbody.concat hchar
          have hnext := Scanner.Behind.inside htokens hbody' .text
          rwa [List.append_nil] at hnext
      · -- the string ends here
        obtain ⟨rfl, hc⟩ := Classical.not_imp.mp hquote
        obtain rfl := not_not.mp hc
        obtain rfl := hinside.eq_text rfl
        cases hstep
        refine .between ?_
        rw [List.reverse_cons, List.append_nil, List.append_assoc]
        exact htokens.append (TokenSpelled.text hbody).lexes

/-- What every step keeps of what has been read, a run keeps. -/
theorem behind_of_foldlM {σ β : Type} {step? : σ → β → Option σ} {Behind : σ → List β → Prop}
    (hstep : ∀ {s s' : σ} {front : List β} {b : β},
      Behind s front → step? s b = some s' → Behind s' (front ++ [b])) :
    ∀ {rest : List β} {s s' : σ} {front : List β},
      Behind s front → rest.foldlM step? s = some s' → Behind s' (front ++ rest) := by
  intro rest
  induction rest with
  | nil =>
      intro s s' front h hrun
      cases hrun
      rwa [List.append_nil]
  | cons b rest ih =>
      intro s s' front h hrun
      obtain ⟨next, hfirst, hrest⟩ := Option.bind_eq_some_iff.mp hrun
      have hnext := ih (hstep h hfirst) hrest
      rwa [List.append_assoc] at hnext

theorem Scanner.Behind.run {text front : List Char} {scanner scanner' : Scanner}
    (h : scanner.Behind front) (hrun : scanner.run? text = some scanner') :
    scanner'.Behind (front ++ text) :=
  behind_of_foldlM Scanner.Behind.step h hrun

theorem lexes_of_scan? {text : List Char} {tokens : List Token} (h : scan? text = some tokens) :
    Lexes tokens text := by
  simp only [scan?] at h
  split at h
  · next hrun =>
      cases h
      have hstart : Scanner.Behind ⟨[], .between⟩ [] := .between blanks_nil
      cases hstart.run hrun with
      | between htokens => exact htokens
      | inside _ _ hinside => cases hinside
  · cases h

/-! ## Running the productions -/

theorem Scanner.run?_cons (scanner : Scanner) (c : Char) (text : List Char) :
    scanner.run? (c :: text) = (scanner.step? c).bind (·.run? text) := rfl

theorem Scanner.run?_of_blanks {tokens : List Token} : ∀ {text : List Char}, Blanks text →
    Scanner.run? ⟨tokens, .between⟩ text = some ⟨tokens, .between⟩ := by
  intro text
  induction text with
  | nil =>
      intro _
      rfl
  | cons c text ih =>
      intro h
      have hstep : Scanner.step? ⟨tokens, .between⟩ c = some ⟨tokens, .between⟩ :=
        if_pos (isBlank_iff.mpr (h c List.mem_cons_self))
      rw [Scanner.run?_cons, hstep]
      exact ih fun d hd => h d (List.mem_cons_of_mem c hd)

section

variable {tokens : List Token} {done : List Char}

/-- Digits before the last one are kept as the code so far. -/
theorem Scanner.run?_of_hexadecimal {leading : Option Nat} {code : Nat} {digits : List Char}
    (h : Hexadecimal code digits) : ∀ {missing : Nat}, digits.length + missing = 3 →
    Scanner.run? ⟨tokens, .digits done leading 3 0⟩ digits
      = some ⟨tokens, .digits done leading missing code⟩ := by
  induction h with
  | nil =>
      intro missing hmissing
      obtain rfl : missing = 3 := by simpa using hmissing
      rfl
  | @concat code digit digits c _ hdigit ih =>
      intro missing hmissing
      rw [List.length_append, List.length_singleton] at hmissing
      have hrun : Scanner.run? ⟨tokens, .digits done leading 3 0⟩ digits
          = some ⟨tokens, .digits done leading (missing + 1) code⟩ := ih (by omega)
      rw [Scanner.run?_append, hrun, Option.bind_some, Scanner.run?_cons,
        show Scanner.step? ⟨tokens, .digits done leading (missing + 1) code⟩ c
          = (Mode.step? (.digits done leading (missing + 1) code) c).map (Scanner.mk tokens) from rfl,
        Mode.step?, hexDigit?_eq_some_iff.mpr hdigit]
      rfl

/-- The fourth digit completes the code. -/
theorem Scanner.run?_of_hexadecimal_four {leading : Option Nat} {code : Nat} {digits : List Char}
    (h : Hexadecimal code digits) (hlength : digits.length = 4) :
    Scanner.run? ⟨tokens, .digits done leading 3 0⟩ digits
      = (afterCode? done leading code).map (Scanner.mk tokens) := by
  cases h with
  | nil => cases hlength
  | @concat code digit digits c hdigits hdigit =>
      rw [List.length_append, List.length_singleton] at hlength
      have hrun : Scanner.run? ⟨tokens, .digits done leading 3 0⟩ digits
          = some ⟨tokens, .digits done leading 0 code⟩ := run?_of_hexadecimal hdigits (by omega)
      rw [Scanner.run?_append, hrun, Option.bind_some, Scanner.run?_cons,
        show Scanner.step? ⟨tokens, .digits done leading 0 code⟩ c
          = (Mode.step? (.digits done leading 0 code) c).map (Scanner.mk tokens) from rfl,
        Mode.step?, hexDigit?_eq_some_iff.mpr hdigit, Option.bind_eq_bind, Option.bind_some]
      cases (afterCode? done leading (16 * code + digit)).map (Scanner.mk tokens) with
      | none => rfl
      | some scanner => rfl

theorem Scanner.run?_of_codeEscape {code : Nat} {text : List Char} (h : CodeEscape code text) :
    Scanner.run? ⟨tokens, .text done⟩ text
      = (afterCode? done none code).map (Scanner.mk tokens) := by
  obtain ⟨digits, hdigits, hlength, rfl⟩ := h
  exact run?_of_hexadecimal_four hdigits hlength

theorem Scanner.run?_of_codeEscape_led {leading code : Nat} {text : List Char}
    (h : CodeEscape code text) :
    Scanner.run? ⟨tokens, .led done leading⟩ text
      = (afterCode? done (some leading) code).map (Scanner.mk tokens) := by
  obtain ⟨digits, hdigits, hlength, rfl⟩ := h
  exact run?_of_hexadecimal_four hdigits hlength

/-- The halves of a surrogate pair make up the code again. -/
theorem pairChar_halves {c : Char} (h : 0x10000 ≤ c.toNat) :
    pairChar (0xD800 + (c.toNat - 0x10000) / 0x400) (0xDC00 + (c.toNat - 0x10000) % 0x400) = c := by
  rw [pairChar, Nat.add_sub_cancel_left, Nat.add_sub_cancel_left, Nat.add_assoc, Nat.mul_comm,
    Nat.div_add_mod, Nat.add_sub_cancel' h, Char.ofNat_toNat]

theorem Scanner.run?_of_charSpelled {c : Char} {text : List Char} (h : CharSpelled c text) :
    Scanner.run? ⟨tokens, .text done⟩ text = some ⟨tokens, .text (c :: done)⟩ := by
  have hvalid := toNat_valid c
  cases h with
  | unescaped hrange =>
      have hquote : c ≠ '"' := by
        rintro rfl
        simp at hrange
      have hescape : c ≠ '\\' := by
        rintro rfl
        simp at hrange
      rw [Scanner.run?_cons, Scanner.step?_inside Mode.Inside.text fun _ => hquote, Mode.step?,
        if_neg hescape, if_neg (by omega)]
      rfl
  | @letter letter _ hletter =>
      have hu : letter ≠ 'u' := by
        rintro rfl
        simp [shortEscapes] at hletter
      rw [Scanner.run?_cons, Scanner.step?_inside Mode.Inside.text fun _ => by decide]
      show (Scanner.run? ⟨tokens, .escape done⟩ [letter]) = _
      rw [Scanner.run?_cons, Scanner.step?_inside Mode.Inside.escape (nomatch ·), Mode.step?,
        if_neg hu, shortEscape?_eq_some_iff.mpr hletter]
      rfl
  | code hcode =>
      have hleading : ¬isLeading c.toNat = true := by
        rw [isLeading_iff]
        omega
      have htrailing : ¬isTrailing c.toNat = true := by
        rw [isTrailing_iff]
        omega
      rw [Scanner.run?_of_codeEscape hcode, afterCode?, if_neg hleading, if_neg htrailing,
        Char.ofNat_toNat]
      rfl
  | @pair _ leading trailing hpast hlead htrail =>
      have hleading : isLeading (0xD800 + (c.toNat - 0x10000) / 0x400) = true :=
        isLeading_iff.mpr (by omega)
      have htrailing : isTrailing (0xDC00 + (c.toNat - 0x10000) % 0x400) = true :=
        isTrailing_iff.mpr (by omega)
      rw [Scanner.run?_append, Scanner.run?_of_codeEscape hlead, afterCode?, if_pos hleading,
        Option.map_some, Option.bind_some, Scanner.run?_of_codeEscape_led htrail, afterCode?,
        if_pos htrailing, pairChar_halves hpast]
      rfl

end

theorem Scanner.run?_of_charsSpelled {tokens : List Token} {chars text : List Char}
    (h : CharsSpelled chars text) : ∀ {done : List Char},
    Scanner.run? ⟨tokens, .text done⟩ text = some ⟨tokens, .text (chars.reverse ++ done)⟩ := by
  induction h with
  | nil =>
      intro done
      rfl
  | @cons c chars text rest hc _ ih =>
      intro done
      rw [Scanner.run?_append, Scanner.run?_of_charSpelled hc, Option.bind_some, ih,
        List.reverse_cons, List.append_assoc]
      rfl

theorem Scanner.run?_of_tokenSpelled {tokens : List Token} {token : Token} {text : List Char}
    (h : TokenSpelled token text) :
    Scanner.run? ⟨tokens, .between⟩ text = some ⟨token :: tokens, .between⟩ := by
  cases h with
  | openBracket => rfl
  | closeBracket => rfl
  | comma => rfl
  | @text chars body hbody =>
      show Scanner.run? ⟨tokens, .text []⟩ (body ++ ['"']) = _
      rw [Scanner.run?_append, Scanner.run?_of_charsSpelled hbody, Option.bind_some,
        List.append_nil]
      show some (Scanner.mk (.text chars.reverse.reverse :: tokens) .between) = _
      rw [List.reverse_reverse]

theorem Scanner.run?_of_lexes : ∀ {tokens : List Token} {done : List Token} {text : List Char},
    Lexes tokens text →
    Scanner.run? ⟨done, .between⟩ text = some ⟨tokens.reverse ++ done, .between⟩ := by
  intro tokens
  induction tokens with
  | nil =>
      intro done text h
      exact Scanner.run?_of_blanks h
  | cons token tokens ih =>
      rintro done text ⟨before, spelling, rest, hbefore, hspelling, hrest, rfl⟩
      rw [Scanner.run?_append, Scanner.run?_append, Scanner.run?_of_blanks hbefore,
        Option.bind_some, Scanner.run?_of_tokenSpelled hspelling, Option.bind_some, ih hrest,
        List.reverse_cons, List.append_assoc]
      rfl

/-- The scanner accepts a text with its tokens and with no others. -/
theorem scan?_eq_some_iff {text : List Char} {tokens : List Token} :
    scan? text = some tokens ↔ Lexes tokens text := by
  constructor
  · exact lexes_of_scan?
  · intro h
    rw [scan?, Scanner.run?_of_lexes h]
    show some ((tokens.reverse ++ []).reverse) = _
    rw [List.append_nil, List.reverse_reverse]

end Choices.RowsText
