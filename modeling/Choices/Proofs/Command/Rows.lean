/-
# `Choices.Proofs.Command.Rows` — the command on a text of rows

`cartesian` takes one value, and the value is a text of rows.  A text that
denotes rows, in whatever spelling, comes to the run for these rows.  A text
that denotes none is refused as a whole: there is no run, so nothing of it is
used.

Behind a separator the word after the name is the value whatever it is.  Without
one, a word that starts with a minus is a word of flags and not a value.  No
text of rows starts with a minus, so this takes no rows away.  Such a word is
refused as well, as a flag that is none or because the value is missing, unless
it asks for a description.
-/
import Choices.Proofs.Command.Flags
import Choices.Proofs.Command.Sizing
import Choices.Proofs.RowsText.Reading

namespace Choices

/-- Only a blank or a bracket can start a text of rows. -/
theorem RowsText.Spelled.head_ne {text : String} {rows : List (List String)}
    (h : RowsText.Spelled text rows) : text.toList.head? ≠ some '-' := by
  intro hhead
  obtain ⟨rest, hrest⟩ : ∃ rest, text.toList = '-' :: rest :=
    ⟨_, List.eq_cons_of_mem_head? hhead⟩
  have hread := RowsText.read?_eq_some_iff.mpr h
  rw [RowsText.read?, hrest] at hread
  cases hread

namespace Command

theorem read_cartesian (words : List String) :
    read ("cartesian" :: words)
      = readInner .rows {} words >>= fun (draft, inner) => finish {} inner draft := rfl

theorem read_cartesian_plain {text : String} (h : Word.ofString text = .plain text) :
    read ["cartesian", text]
      = orRefused (RowsText.read? text) >>= fun rows => .ok ⟨.cartesian rows, false, false⟩ := by
  rw [read_cartesian, readInner_plain h, Draft.take?]
  cases RowsText.read? text with
  | none => rfl
  | some rows => rfl

/-- Behind a separator any word is the value. -/
theorem read_cartesian_separator (text : String) :
    read ["cartesian", "--", text]
      = orRefused (RowsText.read? text) >>= fun rows => .ok ⟨.cartesian rows, false, false⟩ := by
  rw [read_cartesian, readInner_separator, Draft.takeAll?, List.foldlM_cons, Draft.take?]
  cases RowsText.read? text with
  | none => rfl
  | some rows => rfl

/-- A word that denotes no rows leaves the value missing, or is a value that
cannot be read. -/
theorem run_cartesian_of_none {text : String} (h : RowsText.read? text = none) :
    run ["cartesian", text] = .refused ∨
      run ["cartesian", text] = .described ∧
        ∃ marks, Word.ofString text = .flags marks ∧ some .help ∈ marks := by
  cases hword : Word.ofString text with
  | separator =>
      have hread : read ["cartesian", text] = .error .refused := by
        rw [read_cartesian, readInner, hword]
        rfl
      exact Or.inl (run_of_read_error hread)
  | plain value =>
      obtain rfl := Word.eq_of_ofString_eq_plain hword
      have hread : read ["cartesian", value] = .error .refused := by
        rw [read_cartesian_plain hword, h]
        rfl
      exact Or.inl (run_of_read_error hread)
  | flags marks =>
      cases hmarks : Flags.addMarks .inner {} marks with
      | ok flags =>
          have hread : read ["cartesian", text] = .error .refused := by
            rw [read_cartesian, readInner_flags hword, hmarks]
            rfl
          exact Or.inl (run_of_read_error hread)
      | error stop =>
          have hread : read ["cartesian", text] = .error stop := by
            rw [read_cartesian, readInner_flags hword, hmarks]
            rfl
          cases stop with
          | refused => exact Or.inl (run_of_read_error hread)
          | described =>
              exact Or.inr ⟨run_of_read_error hread, marks, rfl, Flags.help_mem_of_addMarks hmarks⟩

/-- What the command on a text of rows comes to, for any text.  A text that
denotes rows, in any spelling, is read as these rows, and the line comes to the
run for them.  A text that denotes none is refused, whatever comes before the
place where it stops being one.  Only a word that asks for a description is
something else than a text that cannot be read. -/
theorem run_cartesian_decided (text : String) :
    (∀ rows, RowsText.Spelled text rows →
      RowsText.read? text = some rows ∧
      run ["cartesian", text] = .ofOutput ((product (toRows rows)).map Listing.lines) ∧
      run ["cartesian", "--", text] = .ofOutput ((product (toRows rows)).map Listing.lines)) ∧
    ((∀ rows, ¬RowsText.Spelled text rows) →
      RowsText.read? text = none ∧
      (run ["cartesian", "--", text]).exitCode = 2 ∧
      (text.toList.head? ≠ some '-' → (run ["cartesian", text]).exitCode = 2) ∧
      ((run ["cartesian", text]).exitCode ≠ 2 → run ["cartesian", text] = .described ∧
        ∃ marks, Word.ofString text = .flags marks ∧ some .help ∈ marks)) := by
  constructor
  · intro rows hrows
    have hread := RowsText.read?_eq_some_iff.mpr hrows
    refine ⟨hread, ?_, ?_⟩
    · have hline : read ["cartesian", text] = .ok ⟨.cartesian rows, false, false⟩ := by
        rw [read_cartesian_plain (Word.ofString_eq_plain hrows.head_ne), hread]
        rfl
      exact run_of_read hline
    · have hline : read ["cartesian", "--", text] = .ok ⟨.cartesian rows, false, false⟩ := by
        rw [read_cartesian_separator, hread]
        rfl
      exact run_of_read hline
  · intro hnone
    have hread := RowsText.read?_eq_none_iff.mpr hnone
    have hseparator : read ["cartesian", "--", text] = .error .refused := by
      rw [read_cartesian_separator, hread]
      rfl
    refine ⟨hread, ?_, fun hhead => ?_, fun hcode => ?_⟩
    · rw [run_of_read_error hseparator]
      rfl
    · have hline : read ["cartesian", text] = .error .refused := by
        rw [read_cartesian_plain (Word.ofString_eq_plain hhead), hread]
        rfl
      rw [run_of_read_error hline]
      rfl
    · rcases run_cartesian_of_none hread with hrefused | hdescribed
      · rw [hrefused] at hcode
        exact absurd rfl hcode
      · exact hdescribed

/-- Two spellings of the same rows, one with blanks, escapes and a pair of
surrogates, and texts that miss being rows by a character or two.  `-h` asks for
a description, and is a text that denotes no rows where only a value can stand. -/
theorem run_cartesian_decided_spellings :
    (∀ text ∈ ["[[\"a//\",\"😀\"],[\"\\\"\"]]",
        " [[\"\\u0061/\\/\" ,\"\\uD83d\\uDE00\"],\r\n[\"\\\"\" ] ]\t"],
      RowsText.Spelled text [["a//", "😀"], ["\""]] ∧
        run ["cartesian", text] = .printed "[😀, \"]\n[a//, \"]\n") ∧
    (∀ text ∈ ["[[\"a\"],]", "[[\"\\ud83d\"]]", "[[\"a\"]]]", "[[\"a\n\"]]", "[[\"a\", 1]]",
        "[[\"a]]"],
      (∀ rows, ¬RowsText.Spelled text rows) ∧ (run ["cartesian", text]).exitCode = 2) ∧
    (∀ rows, ¬RowsText.Spelled "-h" rows) ∧ (run ["cartesian", "--", "-h"]).exitCode = 2 := by
  have hreads : ∀ text ∈ ["[[\"a//\",\"😀\"],[\"\\\"\"]]",
      " [[\"\\u0061/\\/\" ,\"\\uD83d\\uDE00\"],\r\n[\"\\\"\" ] ]\t"],
      RowsText.read? text = some [["a//", "😀"], ["\""]] := by decide +kernel
  have hproduct : product (toRows [["a//", "😀"], ["\""]])
      = .ok [["😀", "\""], ["a//", "\""]] := by decide +kernel
  have hnone : ∀ text ∈ ["[[\"a\"],]", "[[\"\\ud83d\"]]", "[[\"a\"]]]", "[[\"a\n\"]]", "[[\"a\", 1]]",
      "[[\"a]]"], RowsText.read? text = none ∧ text.toList.head? ≠ some '-' := by decide +kernel
  have hhelp : ∀ rows, ¬RowsText.Spelled "-h" rows :=
    RowsText.read?_eq_none_iff.mp (by decide +kernel)
  refine ⟨fun text htext => ?_, fun text htext => ?_, hhelp,
    ((run_cartesian_decided "-h").2 hhelp).2.1⟩
  · have hrows := RowsText.read?_eq_some_iff.mp (hreads text htext)
    refine ⟨hrows, ?_⟩
    rw [((run_cartesian_decided text).1 _ hrows).2.1, hproduct]
    decide +kernel
  · obtain ⟨hread, hhead⟩ := hnone text htext
    have hrows := RowsText.read?_eq_none_iff.mp hread
    exact ⟨hrows, ((run_cartesian_decided text).2 hrows).2.2.1 hhead⟩

end Command
end Choices
