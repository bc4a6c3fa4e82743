/-
# `Choices.Proofs.Numeral` — what is a numeral

`Spelled text number` says what a numeral is without reading it.  There may be a
plus sign, there are digits from `0` to `9` and at least one of them, nothing
else is there, and the digits have the value `number`.  Leading zeros are digits
like any other.

A text is read as a number when it spells it and the number is within the
capacity (`read?_eq_some_iff`).  So a text that spells a number too large and a
text that spells none are refused alike, and two spellings of one number are
read alike.
-/
import Choices.Numeral

namespace Choices.Numeral

/-- The text is the number as it may be typed. -/
def Spelled (text : String) (number : Nat) : Prop :=
  ∃ sign digits : List Char, text.toList = sign ++ digits ∧ (sign = [] ∨ sign = ['+']) ∧
    digits ≠ [] ∧ (∀ c ∈ digits, '0' ≤ c ∧ c ≤ '9') ∧ number = Nat.ofDigitChars 10 digits 0

theorem value_cons (acc : Nat) (c : Char) (digits : List Char) :
    value acc (c :: digits) = value (10 * acc + (c.toNat - '0'.toNat)) digits := by
  -- by `rfl` alone the two sides are compared by evaluating the product
  delta value
  rfl

theorem value_eq_ofDigitChars : ∀ (digits : List Char) (acc : Nat),
    value acc digits = Nat.ofDigitChars 10 digits acc := by
  intro digits
  induction digits with
  | nil => intro acc; exact Nat.ofDigitChars_nil.symm
  | cons c digits ih =>
      intro acc
      rw [value_cons, ih, Nat.ofDigitChars_cons]

theorem isDigit_iff {c : Char} : c.isDigit ↔ '0' ≤ c ∧ c ≤ '9' := by
  simp [Char.isDigit, Char.le_def]

theorem unsigned?_eq_some_iff_digits {digits : List Char} {n : Nat} :
    unsigned? digits = some n ↔
      digits ≠ [] ∧ (∀ c ∈ digits, '0' ≤ c ∧ c ≤ '9') ∧ n = Nat.ofDigitChars 10 digits 0 ∧
        n ≤ capacity := by
  rw [unsigned?_eq_some_iff, value_eq_ofDigitChars, List.all_eq_true]
  simp only [isDigit_iff]

/-- The sign is no digit, so it is clear which characters are the digits. -/
theorem read?_eq_unsigned? {text : String} {sign digits : List Char}
    (htext : text.toList = sign ++ digits) (hsign : sign = [] ∨ sign = ['+'])
    (hdigits : ∀ c ∈ digits, '0' ≤ c ∧ c ≤ '9') : read? text = unsigned? digits := by
  rw [read?, htext]
  rcases hsign with rfl | rfl
  · rw [List.nil_append]
    split
    · next digits' =>
        exact absurd (hdigits '+' List.mem_cons_self).1 (by decide)
    · rfl
  · rfl

/-- Reading takes the numerals within the capacity, and nothing else. -/
theorem read?_eq_some_iff {text : String} {n : Nat} :
    read? text = some n ↔ Spelled text n ∧ n ≤ capacity := by
  constructor
  · intro h
    rw [read?] at h
    split at h
    · next digits htext =>
        obtain ⟨hsome, hdigits, hvalue, hn⟩ := unsigned?_eq_some_iff_digits.mp h
        exact ⟨⟨['+'], digits, htext, Or.inr rfl, hsome, hdigits, hvalue⟩, hn⟩
    · obtain ⟨hsome, hdigits, hvalue, hn⟩ := unsigned?_eq_some_iff_digits.mp h
      exact ⟨⟨[], text.toList, rfl, Or.inl rfl, hsome, hdigits, hvalue⟩, hn⟩
  · rintro ⟨⟨sign, digits, htext, hsign, hsome, hdigits, hvalue⟩, hn⟩
    rw [read?_eq_unsigned? htext hsign hdigits]
    exact unsigned?_eq_some_iff_digits.mpr ⟨hsome, hdigits, hvalue, hn⟩

theorem read?_eq_none_iff {text : String} :
    read? text = none ↔ ¬∃ n, Spelled text n ∧ n ≤ capacity := by
  rw [Option.eq_none_iff_forall_ne_some, not_exists]
  exact forall_congr' fun n => not_congr read?_eq_some_iff

/-- A numeral does not start with a minus. -/
theorem Spelled.head_ne {text : String} {n : Nat} (h : Spelled text n) :
    text.toList.head? ≠ some '-' := by
  obtain ⟨sign, digits, htext, hsign, hsome, hdigits, -⟩ := h
  rw [htext]
  rcases hsign with rfl | rfl
  · obtain ⟨c, digits, rfl⟩ := List.exists_cons_of_ne_nil hsome
    intro hhead
    obtain rfl := Option.some.inj hhead
    exact absurd (hdigits '-' List.mem_cons_self).1 (by decide)
  · intro hhead
    cases hhead

/-- The plain decimal form of a number spells it. -/
theorem spelled_repr (n : Nat) : Spelled n.repr n := by
  refine ⟨[], Nat.toDigits 10 n, by rw [Nat.toList_repr, List.nil_append], Or.inl rfl,
    Nat.toDigits_ne_nil, fun c hc => ?_, Nat.ofDigitChars_ten_toDigits.symm⟩
  exact isDigit_iff.mp (Nat.isDigit_of_mem_toDigits (by decide) (by decide) hc)

end Choices.Numeral
