/-
# `Choices.Proofs.Command.Reading` — what an accepted line is made of

A line is accepted word by word.  Behind words of flags comes the name of a
command, behind the name the inner level, and at the end the two levels are
put together.  `readOuter_cons_eq_ok_iff` says this of one word of the outer
level, in both directions: from an accepted line to what its words are, and
from there to other lines that are accepted as well.

The flag for the size is the first use of it.  It may stand once on a level
and is asked for again only at the end, so a line without it is accepted with
it in front, and the command it stands for is the same
(`read_count_cons`).  The proof follows the reading.  The flags met so far go
through every step, with the one flag raised and with it not.
-/
import Choices.Command.Line

namespace Choices.Command

theorem bind_eq_ok_iff {ε β γ : Type} {first : Except ε β} {next : β → Except ε γ} {c : γ} :
    (first >>= next) = .ok c ↔ ∃ b, first = .ok b ∧ next b = .ok c := by
  cases first with
  | error stop => simp [bind, Except.bind]
  | ok b => simp [bind, Except.bind]

/-! ## One word -/

theorem Word.ofString_eq_plain {text : String} (h : text.toList.head? ≠ some '-') :
    Word.ofString text = .plain text := by
  rw [ofString]
  split
  · next htext => exact absurd (by rw [htext]; rfl) h
  · next htext => exact absurd (by rw [htext]; rfl) h
  · next htext => exact absurd (by rw [htext]; rfl) h
  · rfl

theorem Word.eq_of_ofString_eq_plain {word text : String} (h : Word.ofString word = .plain text) :
    text = word := by
  rw [ofString] at h
  split at h
  · cases h
  · cases h
  · cases h
  · cases h
    rfl

theorem readInner_separator {draft : Draft} {flags : Flags} {words : List String} :
    readInner draft flags ("--" :: words)
      = orRefused (draft.takeAll? words) >>= fun draft => .ok (draft, flags) := rfl

theorem readInner_plain {draft : Draft} {flags : Flags} {word text : String} {words : List String}
    (h : Word.ofString word = .plain text) :
    readInner draft flags (word :: words)
      = orRefused (draft.take? text) >>= fun draft => readInner draft flags words := by
  rw [readInner, h]

theorem readInner_flags {draft : Draft} {flags : Flags} {word : String} {words : List String}
    {marks : List (Option Flag)} (h : Word.ofString word = .flags marks) :
    readInner draft flags (word :: words)
      = flags.addMarks .inner marks >>= fun flags => readInner draft flags words := by
  rw [readInner, h]

theorem readOuter_flags {flags : Flags} {word : String} {words : List String}
    {marks : List (Option Flag)} (h : Word.ofString word = .flags marks) :
    readOuter flags (word :: words)
      = flags.addMarks .outer marks >>= fun flags => readOuter flags words := by
  rw [readOuter, h]

theorem readOuter_name {flags : Flags} {word name : String} {words : List String}
    (h : Word.ofString word = .plain name) (hhelp : name ≠ "help") :
    readOuter flags (word :: words)
      = orRefused (Draft.ofName? name) >>= fun draft =>
          readInner draft {} words >>= fun (draft, inner) => finish flags inner draft := by
  rw [readOuter]
  split
  · next hword => cases h.symm.trans hword
  · next hword => cases h.symm.trans hword
  · next hword =>
      cases h.symm.trans hword
      exact absurd rfl hhelp
  · next hword =>
      cases h.symm.trans hword
      rfl

theorem Flags.addMarks_append_bind {β : Type} (level : Level) (flags : Flags)
    (marks marks' : List (Option Flag)) (next : Flags → Except Stop β) :
    flags.addMarks level (marks ++ marks') >>= next
      = flags.addMarks level marks >>= fun flags => flags.addMarks level marks' >>= next := by
  rw [addMarks_append]
  cases flags.addMarks level marks with
  | error stop => rfl
  | ok flags' => rfl

/-! ## Accepted lines -/

theorem readOuter_nil (flags : Flags) : readOuter flags [] = .error .refused := by
  simp only [readOuter]

/-- An accepted line starts with a word of flags or with the name of a
command. -/
theorem readOuter_cons_eq_ok_iff {flags : Flags} {word : String} {words : List String}
    {invocation : Invocation} :
    readOuter flags (word :: words) = .ok invocation ↔
      (∃ marks flags', Word.ofString word = .flags marks ∧
        flags.addMarks .outer marks = .ok flags' ∧ readOuter flags' words = .ok invocation) ∨
      (∃ name draft draft' inner, Word.ofString word = .plain name ∧ name ≠ "help" ∧
        orRefused (Draft.ofName? name) = .ok draft ∧
        readInner draft {} words = .ok (draft', inner) ∧
        finish flags inner draft' = .ok invocation) := by
  rw [readOuter]
  split
  · next hword =>
      simp [hword]
  · next marks hword =>
      simp [hword, bind_eq_ok_iff]
  · next hword =>
      simp [hword]
  · next name hname hword =>
      have hne : name ≠ "help" := hname
      simp [hword, hne, bind_eq_ok_iff]

/-- At the end of an accepted line the command is complete, and the flags of
each level go together. -/
theorem finish_eq_ok_iff {outer inner : Flags} {draft : Draft} {invocation : Invocation} :
    finish outer inner draft = .ok invocation ↔
      ∃ command, draft = .complete command ∧ outer.Consistent ∧ inner.Consistent ∧
        invocation = ⟨command, outer.count || inner.count, outer.parallel || inner.parallel⟩ := by
  cases draft with
  | numbers pick => simp [finish]
  | second pick n => simp [finish]
  | rows => simp [finish]
  | complete command =>
      by_cases h : outer.Consistent ∧ inner.Consistent
      · simp [finish, h, eq_comm]
      · have hnot : ∀ c : Prop, ¬(outer.Consistent ∧ inner.Consistent ∧ c) :=
          fun c hc => h ⟨hc.1, hc.2.1⟩
        simp [finish, h, hnot]

/-! ## The flag for the size -/

/-- The same flags with the one for the size raised. -/
def Flags.counting (flags : Flags) : Flags := { flags with count := true }

theorem Flags.add_counting {level : Level} {flags flags' : Flags} {flag : Flag}
    (h : flags.add level flag = .ok flags') (hcount : flags'.count = false) :
    flags.count = false ∧ flags.counting.add level flag = .ok flags'.counting := by
  cases flag with
  | count =>
      -- whoever adds this flag ends with it raised
      simp only [add] at h
      split at h
      · cases h
      · cases h
        cases hcount
  | parallel =>
      simp only [add] at h
      split at h
      · cases h
      · next hparallel =>
          cases h
          exact ⟨hcount, if_neg hparallel⟩
  | verbose =>
      cases h
      exact ⟨hcount, rfl⟩
  | quiet =>
      cases h
      exact ⟨hcount, rfl⟩
  | help => cases h
  | version =>
      simp only [add] at h
      split at h
      · cases h
      · cases h

theorem Flags.addMarks_counting {level : Level} : ∀ {marks : List (Option Flag)}
    {flags flags' : Flags}, flags.addMarks level marks = .ok flags' → flags'.count = false →
    flags.count = false ∧ flags.counting.addMarks level marks = .ok flags'.counting := by
  intro marks
  induction marks with
  | nil =>
      intro flags flags' h hcount
      cases h
      exact ⟨hcount, rfl⟩
  | cons mark marks ih =>
      intro flags flags' h hcount
      cases mark with
      | none => cases h
      | some flag =>
          obtain ⟨middle, hfirst, hrest⟩ := bind_eq_ok_iff.mp h
          obtain ⟨hmiddle, hrest'⟩ := ih hrest hcount
          obtain ⟨hflags, hfirst'⟩ := Flags.add_counting hfirst hmiddle
          exact ⟨hflags, bind_eq_ok_iff.mpr ⟨middle.counting, hfirst', hrest'⟩⟩

theorem finish_counting {outer inner : Flags} {draft : Draft} {invocation : Invocation}
    (h : finish outer inner draft = .ok invocation) (hcount : invocation.count = false) :
    outer.count = false ∧
      finish outer.counting inner draft = .ok { invocation with count := true } := by
  obtain ⟨command, rfl, houter, hinner, rfl⟩ := finish_eq_ok_iff.mp h
  have hneither : outer.count = false ∧ inner.count = false := Bool.or_eq_false_iff.mp hcount
  exact ⟨hneither.1, finish_eq_ok_iff.mpr ⟨command, rfl, houter, hinner, rfl⟩⟩

/-- Induction on the words.  The flags met so far are raised along with the
rest of the reading. -/
theorem readOuter_counting : ∀ {words : List String} {flags : Flags} {invocation : Invocation},
    readOuter flags words = .ok invocation → invocation.count = false →
    flags.count = false ∧
      readOuter flags.counting words = .ok { invocation with count := true } := by
  intro words
  induction words with
  | nil =>
      intro flags invocation h _
      rw [readOuter_nil] at h
      cases h
  | cons word words ih =>
      intro flags invocation h hcount
      rcases readOuter_cons_eq_ok_iff.mp h with
        ⟨marks, flags', hword, hmarks, hrest⟩ |
        ⟨name, draft, draft', inner, hword, hname, hdraft, hinner, hfinish⟩
      · obtain ⟨hflags', hrest'⟩ := ih hrest hcount
        obtain ⟨hflags, hmarks'⟩ := Flags.addMarks_counting hmarks hflags'
        exact ⟨hflags, readOuter_cons_eq_ok_iff.mpr
          (Or.inl ⟨marks, flags'.counting, hword, hmarks', hrest'⟩)⟩
      · obtain ⟨hflags, hfinish'⟩ := finish_counting hfinish hcount
        exact ⟨hflags, readOuter_cons_eq_ok_iff.mpr
          (Or.inr ⟨name, draft, draft', inner, hword, hname, hdraft, hinner, hfinish'⟩)⟩

/-- In front of a line that does not ask for the size, the flag for it changes
nothing else. -/
theorem read_count_cons {words : List String} {invocation : Invocation}
    (h : read words = .ok invocation) (hcount : invocation.count = false) :
    read ("-c" :: words) = .ok { invocation with count := true } :=
  readOuter_cons_eq_ok_iff.mpr
    (Or.inl ⟨[some .count], _, rfl, rfl, (readOuter_counting h hcount).2⟩)

end Choices.Command
