/-
# `Choices.Proofs.Command.Flags` — the settings of a level

Of the flags, four are settings.  They say how a command is run and leave it to
be run, while the other two end the reading.  Two of the settings may stand once
on a level, those for the size and for branches.

Flags are added one after the other, and one that may stand once is refused
where it is raised already.  So only how often each of them stands counts, not
where or among which others.  `Flags.addMarks_eq_ofList` says this for the
settings of a whole level: they are added, and raise what is among them, or one
that may stand once stands twice and the level is refused.
-/
import Choices.Command.Flags

namespace Choices.Command

/-- The flags that may stand once on a level. -/
def Flag.single : List Flag := [.count, .parallel]

/-- The flags that a line with a run may hold. -/
def Flag.settings : List Flag := [.count, .parallel, .verbose, .quiet]

/-- Whether a setting is among the flags. -/
def Flags.raised (flags : Flags) : Flag → Bool
  | .count => flags.count
  | .parallel => flags.parallel
  | .verbose => flags.verbose
  | .quiet => flags.quiet
  | .help => false
  | .version => false

/-- The flags with one more setting. -/
def Flags.raise (flags : Flags) : Flag → Flags
  | .count => { flags with count := true }
  | .parallel => { flags with parallel := true }
  | .verbose => { flags with verbose := true }
  | .quiet => { flags with quiet := true }
  | .help => flags
  | .version => flags

namespace Flags

/-- One more setting is refused where it stands already and may stand once. -/
theorem add_setting (level : Level) (flags : Flags) {flag : Flag} (h : flag ∈ Flag.settings) :
    flags.add level flag
      = if flag ∈ Flag.single ∧ flags.raised flag then .error .refused
        else .ok (flags.raise flag) := by
  cases flag with
  | count => simp [add, raised, raise, Flag.single]
  | parallel => simp [add, raised, raise, Flag.single]
  | verbose => simp [add, raise, Flag.single]
  | quiet => simp [add, raise, Flag.single]
  | help => simp [Flag.settings] at h
  | version => simp [Flag.settings] at h

theorem add_inner_eq_described_iff {flags : Flags} {flag : Flag} :
    flags.add .inner flag = .error .described ↔ flag = .help := by
  cases flag with
  | count => by_cases h : flags.count = true <;> simp [add, h]
  | parallel => by_cases h : flags.parallel = true <;> simp [add, h]
  | verbose => simp [add]
  | quiet => simp [add]
  | help => simp [add]
  | version => simp [add]

/-- Behind the name of a command only one flag asks for a description. -/
theorem help_mem_of_addMarks : ∀ {marks : List (Option Flag)} {flags : Flags},
    flags.addMarks .inner marks = .error .described → some .help ∈ marks := by
  intro marks
  induction marks with
  | nil =>
      intro flags h
      cases h
  | cons mark marks ih =>
      intro flags h
      cases mark with
      | none => cases h
      | some flag =>
          rw [addMarks] at h
          cases hadd : flags.add .inner flag with
          | error stop =>
              rw [hadd] at h
              cases h
              rw [add_inner_eq_described_iff.mp hadd]
              exact List.mem_cons_self
          | ok flags' =>
              rw [hadd] at h
              exact List.mem_cons_of_mem _ (ih h)

theorem raised_raise (flags : Flags) {flag : Flag} (h : flag ∈ Flag.settings) (other : Flag) :
    (flags.raise flag).raised other = (flags.raised other || decide (flag = other)) := by
  cases flag with
  | count => cases other <;> simp [raised, raise]
  | parallel => cases other <;> simp [raised, raise]
  | verbose => cases other <;> simp [raised, raise]
  | quiet => cases other <;> simp [raised, raise]
  | help => simp [Flag.settings] at h
  | version => simp [Flag.settings] at h

theorem raised_foldl_raise : ∀ {put : List Flag} {flags : Flags},
    (∀ flag ∈ put, flag ∈ Flag.settings) → ∀ other,
    (put.foldl raise flags).raised other = (flags.raised other || decide (other ∈ put)) := by
  intro put
  induction put with
  | nil => intro flags _ other; simp
  | cons flag put ih =>
      intro flags hput other
      rw [List.foldl_cons, ih fun f hf => hput f (List.mem_cons_of_mem flag hf),
        raised_raise flags (hput flag List.mem_cons_self)]
      simp [Bool.or_assoc, eq_comm]

/-- How often a setting stands on a level, raised already or yet to be put. -/
def occurrences (flags : Flags) (put : List Flag) (flag : Flag) : Nat :=
  put.count flag + (flags.raised flag).toNat

theorem occurrences_raise (flags : Flags) (put : List Flag) {flag other : Flag}
    (hflag : flag ∈ Flag.settings) (hother : other ∈ Flag.single)
    (hfree : ¬(flag ∈ Flag.single ∧ flags.raised flag = true)) :
    (flags.raise flag).occurrences put other = flags.occurrences (flag :: put) other := by
  rw [occurrences, occurrences, raised_raise flags hflag]
  by_cases he : flag = other
  · subst he
    have hlow : flags.raised flag = false :=
      Bool.eq_false_iff.mpr fun hraised => hfree ⟨hother, hraised⟩
    simp [hlow]
  · simp [he]

/-- Settings are added one by one, unless one that may stand once stands
twice. -/
theorem addMarks_settings (level : Level) : ∀ {put : List Flag} {flags : Flags},
    (∀ flag ∈ put, flag ∈ Flag.settings) →
    flags.addMarks level (put.map some)
      = if ∀ flag ∈ Flag.single, flags.occurrences put flag ≤ 1 then .ok (put.foldl raise flags)
        else .error .refused := by
  intro put
  induction put with
  | nil =>
      intro flags _
      have honce : ∀ flag ∈ Flag.single, flags.occurrences [] flag ≤ 1 := by
        intro flag _
        simp [occurrences, Bool.toNat_le]
      rw [if_pos honce]
      rfl
  | cons flag put ih =>
      intro flags hput
      have hflag : flag ∈ Flag.settings := hput flag List.mem_cons_self
      rw [List.map_cons, addMarks, add_setting level flags hflag]
      by_cases hstands : flag ∈ Flag.single ∧ flags.raised flag = true
      · have htwice : ¬∀ other ∈ Flag.single, flags.occurrences (flag :: put) other ≤ 1 := by
          intro honce
          have hcount := honce flag hstands.1
          simp [occurrences, hstands.2] at hcount
        rw [if_pos hstands, if_neg htwice]
        rfl
      · have hnext : (∀ other ∈ Flag.single, (flags.raise flag).occurrences put other ≤ 1)
            ↔ ∀ other ∈ Flag.single, flags.occurrences (flag :: put) other ≤ 1 :=
          forall₂_congr fun other hother => by
            rw [occurrences_raise flags put hflag hother hstands]
        rw [if_neg hstands]
        show (flags.raise flag).addMarks level (put.map some) = _
        rw [ih fun f hf => hput f (List.mem_cons_of_mem flag hf)]
        simp only [hnext, List.foldl_cons]

/-- The flags of a level on which the given settings stand. -/
def ofList (put : List Flag) : Flags := put.foldl raise {}

theorem raised_ofList {put : List Flag} (hput : ∀ flag ∈ put, flag ∈ Flag.settings)
    (flag : Flag) : (ofList put).raised flag = decide (flag ∈ put) := by
  have hnone : ({} : Flags).raised flag = false := by cases flag <;> rfl
  rw [ofList, raised_foldl_raise hput, hnone, Bool.false_or]

/-- The settings of a level are those that stand there, unless one that may
stand once stands twice. -/
theorem addMarks_eq_ofList (level : Level) {put : List Flag}
    (hput : ∀ flag ∈ put, flag ∈ Flag.settings) :
    ({} : Flags).addMarks level (put.map some)
      = if ∀ flag ∈ Flag.single, put.count flag ≤ 1 then .ok (ofList put)
        else .error .refused := by
  have hcount : ∀ flag, ({} : Flags).occurrences put flag = put.count flag := by
    intro flag
    cases flag <;> rfl
  rw [addMarks_settings level hput]
  simp only [hcount, ofList]

theorem consistent_ofList {put : List Flag} (hput : ∀ flag ∈ put, flag ∈ Flag.settings)
    (hkind : ¬(.verbose ∈ put ∧ .quiet ∈ put)) : (ofList put).Consistent := by
  rintro ⟨hverbose, hquiet⟩
  have hverbose' : (ofList put).raised .verbose = true := hverbose
  have hquiet' : (ofList put).raised .quiet = true := hquiet
  rw [raised_ofList hput, decide_eq_true_iff] at hverbose' hquiet'
  exact hkind ⟨hverbose', hquiet'⟩

end Flags

end Choices.Command
