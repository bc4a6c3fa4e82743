/-
# `Choices.Proofs.Command.Placement` — where flags stand

A line is the name of a command and its values, and flags put in between.
`PutInLine line line' outer inner` says that `line'` is `line` with words of
flags put in: `outer` lists the flags in front of the name and `inner` those
behind it, up to a separator, each in order.  A word of flags is spelled with a
name or as a cluster of letters (`Word.Names`).

Reading takes words from left to right, but what flags do and what values do
are apart.  So a line with flags put in is read as the line itself is, then
with the flags of each level added to none, and at the end with the two levels
put together (`readOuter_putInLine`).  The flags of a level are added, or one
of them is refused because it may stand once and stands twice
(`Flags.addMarks_eq_ofList`).

What is left of them in the end is whether the size is asked for, and whether
the work is done in branches.  The second changes nothing, since branches list
what is listed without them.  That leaves the first (`run_of_putInLine`).
-/
import Choices.Proofs.Command.Flags
import Choices.Proofs.Command.Sizing

namespace Choices.Command

/-! ## Words of flags -/

/-- The letter of a flag. -/
def Flag.letter : Flag → Char
  | .count => 'c'
  | .parallel => 'p'
  | .verbose => 'v'
  | .quiet => 'q'
  | .help => 'h'
  | .version => 'V'

/-- The name of a flag. -/
def Flag.name : Flag → String
  | .count => "count"
  | .parallel => "parallel"
  | .verbose => "verbose"
  | .quiet => "quiet"
  | .help => "help"
  | .version => "version"

/-- A word names flags: one by its name, or any number of them by their
letters. -/
inductive Word.Names : (word : String) → (flags : List Flag) → Prop
  | name (flag : Flag) : Names ("--" ++ flag.name) [flag]
  | letters (flag : Flag) (flags : List Flag) :
      Names (String.ofList ('-' :: (flag :: flags).map Flag.letter)) (flag :: flags)

theorem Flag.ofLetter?_letter (flag : Flag) : ofLetter? flag.letter = some flag := by
  cases flag <;> rfl

theorem Word.Names.ofString_eq {word : String} {flags : List Flag} (h : Names word flags) :
    Word.ofString word = .flags (flags.map some) := by
  cases h with
  | name flag => cases flag <;> rfl
  | letters flag flags =>
      have hletters : (flag :: flags).map (Flag.ofLetter? ∘ Flag.letter)
          = (flag :: flags).map some :=
        List.map_congr_left fun flag _ => flag.ofLetter?_letter
      rw [← hletters, ← List.map_map, ofString, String.toList_ofList]
      cases flag <;> rfl

/-! ## Flags put into lines -/

/-- `words'` are `words` with words of flags put in before the separator, and
`put` are the flags put in. -/
inductive PutIn : (words words' : List String) → (put : List Flag) → Prop
  | nil : PutIn [] [] []
  | separator (words : List String) : PutIn ("--" :: words) ("--" :: words) []
  | plain {text : String} {words words' : List String} {put : List Flag} :
      Word.ofString text = .plain text → PutIn words words' put →
      PutIn (text :: words) (text :: words') put
  | flags {word : String} {words words' : List String} {named put : List Flag} :
      Word.Names word named → PutIn words words' put → PutIn words (word :: words') (named ++ put)

/-- `line'` is a line of the name of a command and its values, with the flags
`outer` put in front of the name and the flags `inner` behind it. -/
inductive PutInLine : (line line' : List String) → (outer inner : List Flag) → Prop
  | name {name : String} {values values' : List String} {inner : List Flag} :
      Word.ofString name = .plain name → PutIn values values' inner →
      PutInLine (name :: values) (name :: values') [] inner
  | flags {word : String} {line line' : List String} {named outer inner : List Flag} :
      Word.Names word named → PutInLine line line' outer inner →
      PutInLine line (word :: line') (named ++ outer) inner

/-! ## Reading with flags put in -/

/-- Behind the name, flags put in are added, and the values are read as they
are without them. -/
theorem readInner_putIn {words words' : List String} {put : List Flag}
    (h : PutIn words words' put) : ∀ {draft draft' : Draft} {inner inner' : Flags},
    readInner draft inner words = .ok (draft', inner') →
    inner' = inner ∧ ∀ flags : Flags, readInner draft flags words'
      = flags.addMarks .inner (put.map some) >>= fun flags => .ok (draft', flags) := by
  induction h with
  | nil =>
      intro draft draft' inner inner' hread
      cases hread
      exact ⟨rfl, fun _ => rfl⟩
  | separator words =>
      intro draft draft' inner inner' hread
      rw [readInner_separator] at hread
      obtain ⟨draft'', hvalues, hrest⟩ := bind_eq_ok_iff.mp hread
      cases hrest
      refine ⟨rfl, fun flags => ?_⟩
      rw [readInner_separator, hvalues]
      rfl
  | plain htext _ ih =>
      intro draft draft' inner inner' hread
      rw [readInner_plain htext] at hread
      obtain ⟨draft'', hvalue, hrest⟩ := bind_eq_ok_iff.mp hread
      obtain ⟨hinner, hput⟩ := ih hrest
      refine ⟨hinner, fun flags => ?_⟩
      rw [readInner_plain htext, hvalue]
      exact hput flags
  | flags hword _ ih =>
      intro draft draft' inner inner' hread
      obtain ⟨hinner, hput⟩ := ih hread
      refine ⟨hinner, fun flags => ?_⟩
      rw [readInner_flags hword.ofString_eq, List.map_append, Flags.addMarks_append_bind]
      exact congrArg _ (funext hput)

/-- An accepted line without flags, and the same line with flags put in. -/
theorem readOuter_putInLine {line line' : List String} {outer inner : List Flag}
    (h : PutInLine line line' outer inner) : ∀ {invocation : Invocation},
    readOuter {} line = .ok invocation →
    ∃ command, invocation = ⟨command, false, false⟩ ∧ ∀ flags : Flags, readOuter flags line'
      = flags.addMarks .outer (outer.map some) >>= fun outerFlags =>
          ({} : Flags).addMarks .inner (inner.map some) >>= fun innerFlags =>
            finish outerFlags innerFlags (.complete command) := by
  induction h with
  | @name _ values values' inner hname hvalues =>
      intro invocation hread
      rcases readOuter_cons_eq_ok_iff.mp hread with
        ⟨marks, flags', hword, -, -⟩ |
        ⟨name, draft, draft', inner', hword, hhelp, hdraft, hinner, hfinish⟩
      · cases hname.symm.trans hword
      · obtain ⟨rfl, hput⟩ := readInner_putIn hvalues hinner
        obtain ⟨command, rfl, -, -, rfl⟩ := finish_eq_ok_iff.mp hfinish
        refine ⟨command, rfl, fun flags => ?_⟩
        rw [readOuter_name hword hhelp, hdraft]
        show (readInner draft {} values' >>= _) = _
        rw [hput]
        cases Flags.addMarks .inner {} (inner.map some) with
        | error stop => rfl
        | ok flags' => rfl
  | flags hword _ ih =>
      intro invocation hread
      obtain ⟨command, hcommand, hput⟩ := ih hread
      refine ⟨command, hcommand, fun flags => ?_⟩
      rw [readOuter_flags hword.ofString_eq, List.map_append, Flags.addMarks_append_bind]
      exact congrArg _ (funext hput)

/-! ## Whole lines -/

section

variable {line line' : List String} {outer inner : List Flag} {invocation : Invocation}

/-- A line whose flags may stand where they are put is accepted. -/
theorem read_putInLine (h : PutInLine line line' outer inner) (hread : read line = .ok invocation)
    (houter : ∀ flag ∈ outer, flag ∈ Flag.settings) (hinner : ∀ flag ∈ inner, flag ∈ Flag.settings)
    (hkind : ¬(.verbose ∈ outer ++ inner ∧ .quiet ∈ outer ++ inner))
    (honce : ∀ flag ∈ Flag.single, outer.count flag ≤ 1 ∧ inner.count flag ≤ 1) :
    invocation.count = false ∧
      read line' = .ok { invocation with
        count := decide (.count ∈ outer ++ inner)
        parallel := decide (.parallel ∈ outer ++ inner) } := by
  obtain ⟨command, rfl, hput⟩ := readOuter_putInLine h hread
  have hkindOuter : ¬(.verbose ∈ outer ∧ .quiet ∈ outer) := fun hboth =>
    hkind ⟨List.mem_append_left _ hboth.1, List.mem_append_left _ hboth.2⟩
  have hkindInner : ¬(.verbose ∈ inner ∧ .quiet ∈ inner) := fun hboth =>
    hkind ⟨List.mem_append_right _ hboth.1, List.mem_append_right _ hboth.2⟩
  have hlevels : ∀ flag, decide (flag ∈ outer ++ inner)
      = ((Flags.ofList outer).raised flag || (Flags.ofList inner).raised flag) := by
    intro flag
    rw [Flags.raised_ofList houter, Flags.raised_ofList hinner]
    simp
  refine ⟨rfl, ?_⟩
  rw [read, hput, Flags.addMarks_eq_ofList .outer houter,
    if_pos fun flag hflag => (honce flag hflag).1, Flags.addMarks_eq_ofList .inner hinner,
    if_pos fun flag hflag => (honce flag hflag).2, hlevels, hlevels]
  exact finish_eq_ok_iff.mpr ⟨command, rfl, Flags.consistent_ofList houter hkindOuter,
    Flags.consistent_ofList hinner hkindInner, rfl⟩

/-- A flag that may stand once and stands twice on one side of the name. -/
theorem run_putInLine_refused (h : PutInLine line line' outer inner)
    (hread : read line = .ok invocation) (houter : ∀ flag ∈ outer, flag ∈ Flag.settings)
    (hinner : ∀ flag ∈ inner, flag ∈ Flag.settings)
    (htwice : ∃ flag ∈ Flag.single, 2 ≤ outer.count flag ∨ 2 ≤ inner.count flag) :
    run line' = .refused := by
  obtain ⟨command, -, hput⟩ := readOuter_putInLine h hread
  obtain ⟨flag, hsingle, htwice⟩ := htwice
  have htwice' : ∀ {put : List Flag}, 2 ≤ put.count flag →
      ¬∀ flag ∈ Flag.single, put.count flag ≤ 1 :=
    fun hcount honce => absurd (honce flag hsingle) (Nat.not_le.mpr hcount)
  have hrefused : read line' = .error .refused := by
    rw [read, hput, Flags.addMarks_eq_ofList .outer houter, Flags.addMarks_eq_ofList .inner hinner]
    rcases htwice with hcount | hcount
    · rw [if_neg (htwice' hcount)]
      rfl
    · -- the outer side may be refused for a reason of its own
      rw [if_neg (htwice' hcount)]
      split
      · rfl
      · rfl
  exact run_of_read_error hrefused

end

/-- A line of the name of a command and its values that is accepted, and the
same line with words of settings put in on both sides of the name.  With
messages of one kind, and no setting twice on a side that may stand once, the
line is accepted and comes to what it comes to without them, or, when one of
them asks for the size, with the flag for it in front.  With such a setting
twice on one side, the line is refused. -/
theorem run_of_putInLine {line line' : List String} {outer inner : List Flag}
    {invocation : Invocation} (h : PutInLine line line' outer inner)
    (hread : read line = .ok invocation)
    (hsettings : ∀ flag ∈ outer ++ inner, flag ∈ [.count, .parallel, .verbose, .quiet]) :
    (¬(.verbose ∈ outer ++ inner ∧ .quiet ∈ outer ++ inner) →
      (∀ flag ∈ [.count, .parallel], outer.count flag ≤ 1 ∧ inner.count flag ≤ 1) →
        (∃ invocation', read line' = .ok invocation') ∧
        run line' = if .count ∈ outer ++ inner then run ("-c" :: line) else run line) ∧
    ((∃ flag ∈ [.count, .parallel], 2 ≤ outer.count flag ∨ 2 ≤ inner.count flag) →
      run line' = .refused ∧ (run line').exitCode = 2) := by
  have houter : ∀ flag ∈ outer, flag ∈ Flag.settings := fun flag hflag =>
    hsettings flag (List.mem_append_left inner hflag)
  have hinner : ∀ flag ∈ inner, flag ∈ Flag.settings := fun flag hflag =>
    hsettings flag (List.mem_append_right outer hflag)
  constructor
  · intro hkind honce
    obtain ⟨hlisting, hread'⟩ := read_putInLine h hread houter hinner hkind honce
    obtain ⟨hlist, hsize⟩ := run_eq_ofOutput_items hread hlisting
    refine ⟨⟨_, hread'⟩, ?_⟩
    rw [hlist, hsize, run_of_read hread', Invocation.output_eq]
    by_cases hcount : Flag.count ∈ outer ++ inner
    · simp only [hcount, decide_true, if_true]
    · simp only [hcount, decide_false, if_false, Bool.false_eq_true]
  · intro htwice
    have hrefused := run_putInLine_refused h hread houter hinner htwice
    exact ⟨hrefused, by rw [hrefused]; rfl⟩

/-- Pairs out of five, with the second value behind a separator.  Nine flags in
six words ask for their number, on both sides of the name.  On one side they
may not ask twice. -/
theorem run_of_putInLine_pairs :
    PutInLine ["combine", "5", "--", "2"]
        ["-vv", "--parallel", "-cv", "combine", "-pcv", "5", "--verbose", "--", "2"]
        [.verbose, .verbose, .parallel, .count, .verbose] [.parallel, .count, .verbose, .verbose] ∧
      read ["combine", "5", "--", "2"] = .ok ⟨combine 5 2, false, false⟩ ∧
      run ["-vv", "--parallel", "-cv", "combine", "-pcv", "5", "--verbose", "--", "2"]
        = run ["-c", "combine", "5", "--", "2"] ∧
      PutInLine ["combine", "5", "--", "2"] ["-q", "combine", "--count", "5", "-qc", "--", "2"]
        [.quiet] [.count, .quiet, .count] ∧
      (run ["-q", "combine", "--count", "5", "-qc", "--", "2"]).exitCode = 2 := by
  have hread : read ["combine", "5", "--", "2"] = .ok ⟨combine 5 2, false, false⟩ := rfl
  have hput : PutInLine ["combine", "5", "--", "2"]
      ["-vv", "--parallel", "-cv", "combine", "-pcv", "5", "--verbose", "--", "2"]
      [.verbose, .verbose, .parallel, .count, .verbose] [.parallel, .count, .verbose, .verbose] :=
    .flags (.letters .verbose [.verbose]) <| .flags (.name .parallel) <|
      .flags (.letters .count [.verbose]) <| .name rfl <|
        .flags (.letters .parallel [.count, .verbose]) <| .plain rfl <|
          .flags (.name .verbose) <| .separator ["2"]
  have htwice : PutInLine ["combine", "5", "--", "2"]
      ["-q", "combine", "--count", "5", "-qc", "--", "2"] [.quiet] [.count, .quiet, .count] :=
    .flags (.letters .quiet []) <| .name rfl <| .flags (.name .count) <| .plain rfl <|
      .flags (.letters .quiet [.count]) <| .separator ["2"]
  have hpairs := (run_of_putInLine hput hread (by decide)).1 (by decide) (by decide)
  have hrefused := (run_of_putInLine htwice hread (by decide)).2 (by decide)
  exact ⟨hput, hread, hpairs.2, htwice, hrefused.2⟩

end Choices.Command
