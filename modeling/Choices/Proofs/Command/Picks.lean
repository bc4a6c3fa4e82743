/-
# `Choices.Proofs.Command.Picks` — commands on two numbers

`permute` and `combine` take a number of things to pick from and a number of
picks.  What a line of one of them comes to is decided by three questions, in
this order.  Is each of the two words a numeral within the capacity?  If not the
line is refused.  Are there as many things as picks?  Does the number of items
fit?  If not the run fails, each time with a report of its own.  In all other
cases the items are printed, and there are as many as were counted.

The two commands differ in what they list and in how many that are, and in
nothing else.  So everything here is about a `Pick`, and what is known of the
two listings enters in `Pick.listing_eq_error_domain` and
`Pick.listing_eq_of_le`.
-/
import Choices.Proofs.Command.Sizing
import Choices.Proofs.Numeral

namespace Choices

namespace Command

/-- A listing with a count fails where the count does. -/
theorem eq_error_of_map_length {β : Type} {listing : Except Fault (List β)}
    {count : Except Fault Nat} (h : listing.map List.length = count) {fault : Fault}
    (hcount : count = .error fault) : listing = .error fault := by
  cases listing with
  | error fault' => exact congrArg Except.error (Except.error.inj (h.trans hcount))
  | ok items => cases h.trans hcount

namespace Pick

/-- The name of the command. -/
def name : Pick → String
  | .permute => "permute"
  | .combine => "combine"

/-- What the command counts. -/
def quantity : Pick → Quantity
  | .permute => .permutations
  | .combine => .combinations

/-- How many items there are, however many that is. -/
def number : Pick → (n k : Nat) → Nat
  | .permute, n, k => n.factorial / (n - k).factorial
  | .combine, n, k => n.choose k

/-- The items of the command. -/
def listing : Pick → (n k : Nat) → Except Fault (List (List Nat))
  | .permute => permutations
  | .combine => combinations

/-! ## Counts and items -/

theorem size_command_of_lt (pick : Pick) {n k : Nat} (h : n < k) :
    (pick.command n k).size = .error (.domain n k) := by
  cases pick with
  | permute => exact Count.permutations_domain h
  | combine => exact Count.combinations_domain h

theorem size_command_of_le (pick : Pick) {n k : Nat} (h : k ≤ n) :
    (pick.command n k).size = orOverflow pick.quantity (within? (pick.number n k)) := by
  cases pick with
  | permute =>
      rw [number, ← Nat.descFactorial_eq_div h]
      exact Count.permutations_eq h
  | combine => exact Count.combinations_eq h

theorem map_length_listing (pick : Pick) (n k : Nat) :
    (pick.listing n k).map List.length = (pick.command n k).size := by
  cases pick with
  | permute => exact map_length_permutations n k
  | combine => exact map_length_combinations n k

theorem items_command (pick : Pick) (n k : Nat) :
    (pick.command n k).items = (pick.listing n k).map fun items => items.map (·.map Nat.repr) := by
  cases pick with
  | permute => rfl
  | combine => rfl

/-- With fewer things than picks there is nothing to list. -/
theorem listing_of_lt (pick : Pick) {n k : Nat} (h : n < k) :
    pick.listing n k = .error (.domain n k) :=
  eq_error_of_map_length (pick.map_length_listing n k) (pick.size_command_of_lt h)

theorem listing_of_overflow (pick : Pick) {n k : Nat} (h : k ≤ n)
    (hlarge : capacity < pick.number n k) :
    pick.listing n k = .error (.overflow pick.quantity) := by
  refine eq_error_of_map_length (pick.map_length_listing n k) ?_
  rw [pick.size_command_of_le h]
  exact orOverflow_within?_eq_overflow_iff.mpr hlarge

theorem exists_listing (pick : Pick) {n k : Nat} (h : k ≤ n) (hfits : pick.number n k ≤ capacity) :
    ∃ items, pick.listing n k = .ok items ∧ items.length = pick.number n k := by
  have hsize := pick.map_length_listing n k
  rw [pick.size_command_of_le h, within?_of_le hfits] at hsize
  exact map_eq_ok_iff.mp hsize

end Pick

/-! ## Lines of two values -/

/-- The two words behind the name are read one after the other. -/
theorem Pick.read_eq (pick : Pick) {first second : String}
    (hfirst : first.toList.head? ≠ some '-') (hsecond : second.toList.head? ≠ some '-') :
    read [pick.name, first, second]
      = orRefused (Numeral.read? first) >>= fun n =>
          orRefused (Numeral.read? second) >>= fun k => .ok ⟨pick.command n k, false, false⟩ := by
  have hname : Word.ofString pick.name = .plain pick.name := by cases pick <;> rfl
  have hhelp : pick.name ≠ "help" := by cases pick <;> decide
  have hdraft : Draft.ofName? pick.name = some (.numbers pick) := by cases pick <;> rfl
  rw [read, readOuter_name hname hhelp, hdraft]
  show (readInner (.numbers pick) {} [first, second] >>= _) = _
  rw [readInner_plain (Word.ofString_eq_plain hfirst), Draft.take?]
  cases Numeral.read? first with
  | none => rfl
  | some n =>
      show (readInner (.second pick n) {} [second] >>= _) = _
      rw [readInner_plain (Word.ofString_eq_plain hsecond), Draft.take?]
      cases Numeral.read? second with
      | none => rfl
      | some k => rfl

/-- A word that is no numeral within the capacity is refused. -/
theorem Pick.run_eq_refused (pick : Pick) {first second : String}
    (hfirst : first.toList.head? ≠ some '-') (hsecond : second.toList.head? ≠ some '-')
    (h : ¬((∃ n, Numeral.Spelled first n ∧ n ≤ capacity) ∧
      ∃ k, Numeral.Spelled second k ∧ k ≤ capacity)) :
    run [pick.name, first, second] = .refused := by
  have hnone : Numeral.read? first = none ∨ Numeral.read? second = none := by
    rw [Numeral.read?_eq_none_iff, Numeral.read?_eq_none_iff]
    exact not_and_or.mp h
  have hread : read [pick.name, first, second] = .error .refused := by
    rw [pick.read_eq hfirst hsecond]
    cases hn : Numeral.read? first with
    | none => rfl
    | some n =>
        have hk : Numeral.read? second = none :=
          hnone.resolve_left fun h => by cases h.symm.trans hn
        rw [hk]
        rfl
  exact run_of_read_error hread

section

variable (pick : Pick) {first second : String} {n k : Nat}

/-- Behind two numerals what is left is the listing. -/
theorem Pick.run_eq_of_spelled (hfirst : Numeral.Spelled first n) (hn : n ≤ capacity)
    (hsecond : Numeral.Spelled second k) (hk : k ≤ capacity) :
    run [pick.name, first, second] = .ofOutput ((pick.listing n k).map Listing.numberLines) := by
  have hread : read [pick.name, first, second] = .ok ⟨pick.command n k, false, false⟩ := by
    rw [pick.read_eq hfirst.head_ne hsecond.head_ne, Numeral.read?_eq_some_iff.mpr ⟨hfirst, hn⟩,
      Numeral.read?_eq_some_iff.mpr ⟨hsecond, hk⟩]
    rfl
  rw [run_of_read hread, Invocation.output_eq, if_neg Bool.false_ne_true, pick.items_command,
    map_map_except]
  rfl

/-- What a line of a command on two numbers comes to, for any two words that do
not start with a minus.  It is refused just when one of them is no numeral
within the capacity.  Behind two numerals the run fails when there are fewer
things than picks, and says so with both numbers, or when the items are too
many, and says so.  Otherwise it prints them, as many as there have to be.  How
the numbers are spelled makes no difference. -/
theorem run_pick_decided (hfirst : first.toList.head? ≠ some '-')
    (hsecond : second.toList.head? ≠ some '-') :
    ((run [pick.name, first, second]).exitCode = 2 ↔
      ¬((∃ n, Numeral.Spelled first n ∧ n ≤ capacity) ∧
        ∃ k, Numeral.Spelled second k ∧ k ≤ capacity)) ∧
    ∀ n k, Numeral.Spelled first n → n ≤ capacity → Numeral.Spelled second k → k ≤ capacity →
      ((run [pick.name, first, second]).exitCode = 1 ↔
        n < k ∨ k ≤ n ∧ capacity < pick.number n k) ∧
      ((run [pick.name, first, second]).exitCode = 0 ↔ k ≤ n ∧ pick.number n k ≤ capacity) ∧
      (n < k → (run [pick.name, first, second]).report?
        = some ("Error: \"" ++ ("n (" ++ n.repr ++ ") is less than k (" ++ k.repr ++ ")")
            ++ "\"")) ∧
      (k ≤ n → capacity < pick.number n k → (run [pick.name, first, second]).report?
        = some ("Error: \"" ++ ("size of " ++ pick.quantity.name ++ " overflows usize")
            ++ "\"")) ∧
      (k ≤ n → pick.number n k ≤ capacity → ∃ items, pick.listing n k = .ok items ∧
        items.length = pick.number n k ∧
        (run [pick.name, first, second]).output = Listing.numberLines items ∧
        (run [pick.name, first, second]).report? = none) ∧
      ∀ first' second', Numeral.Spelled first' n → Numeral.Spelled second' k →
        run [pick.name, first', second'] = run [pick.name, first, second] := by
  constructor
  · constructor
    · rintro hcode ⟨⟨n, hn, hn'⟩, k, hk, hk'⟩
      rw [pick.run_eq_of_spelled hn hn' hk hk'] at hcode
      cases hlisting : pick.listing n k with
      | error fault =>
          rw [hlisting] at hcode
          cases hcode
      | ok items =>
          rw [hlisting] at hcode
          cases hcode
    · intro h
      rw [pick.run_eq_refused hfirst hsecond h]
      rfl
  · intro n k hn hn' hk hk'
    have hrun : ∀ first' second', Numeral.Spelled first' n → Numeral.Spelled second' k →
        run [pick.name, first', second'] = .ofOutput ((pick.listing n k).map Listing.numberLines) :=
      fun _ _ hfirst' hsecond' => pick.run_eq_of_spelled hfirst' hn' hsecond' hk'
    rw [hrun first second hn hk]
    rcases Nat.lt_or_ge n k with hlt | hle
    · have hnot : ¬k ≤ n := Nat.not_le.mpr hlt
      rw [pick.listing_of_lt hlt] at hrun ⊢
      exact ⟨iff_of_true rfl (Or.inl hlt), iff_of_false Nat.one_ne_zero fun h => hnot h.1,
        fun _ => rfl, fun h => absurd h hnot, fun h => absurd h hnot, hrun⟩
    · have hnot : ¬n < k := Nat.not_lt.mpr hle
      rcases Nat.lt_or_ge capacity (pick.number n k) with hlarge | hfits
      · have hnotFits : ¬pick.number n k ≤ capacity := Nat.not_le.mpr hlarge
        rw [pick.listing_of_overflow hle hlarge] at hrun ⊢
        exact ⟨iff_of_true rfl (Or.inr ⟨hle, hlarge⟩),
          iff_of_false Nat.one_ne_zero fun h => hnotFits h.2, fun h => absurd h hnot,
          fun _ _ => rfl, fun _ h => absurd h hnotFits, hrun⟩
      · have hnotLarge : ¬capacity < pick.number n k := Nat.not_lt.mpr hfits
        obtain ⟨items, hlisting, hlength⟩ := pick.exists_listing hle hfits
        rw [hlisting] at hrun ⊢
        exact ⟨iff_of_false Nat.zero_ne_one fun h => h.elim hnot fun h => hnotLarge h.2,
          iff_of_true rfl ⟨hle, hfits⟩, fun h => absurd h hnot, fun _ h => absurd h hnotLarge,
          fun _ _ => ⟨items, rfl, hlength, rfl, rfl⟩, hrun⟩

end

/-- One past the capacity is no numeral, behind zeros or not.  All of 21 are too
many to arrange, and all of 20 are not.  Four things have four triples, and three
things have no four. -/
theorem run_pick_decided_edges :
    Numeral.Spelled "+0021" 21 ∧ Numeral.Spelled "21" 21 ∧ 21 ≤ capacity ∧
      capacity < Pick.permute.number 21 21 ∧
      (run ["permute", "+0021", "21"]).exitCode = 1 ∧
      (run ["permute", "+0021", "21"]).report?
        = some "Error: \"size of permutations overflows usize\"" ∧
      (run ["permute", "0018446744073709551616", "21"]).exitCode = 2 ∧
      Numeral.Spelled "020" 20 ∧ Pick.permute.number 20 20 ≤ capacity ∧
      (run ["permute", "020", "020"]).exitCode = 0 ∧
      Numeral.Spelled "3" 3 ∧ Numeral.Spelled "+04" 4 ∧
      (run ["combine", "+04", "3"]).exitCode = 0 ∧
      (run ["combine", "+04", "3"]).output = "[0, 1, 2]\n[0, 1, 3]\n[0, 2, 3]\n[1, 2, 3]\n" ∧
      (run ["combine", "3", "+04"]).report? = some "Error: \"n (3) is less than k (4)\"" := by
  have hplus : Numeral.Spelled "+0021" 21 := (Numeral.read?_eq_some_iff.mp (by decide +kernel)).1
  have hplain : Numeral.Spelled "21" 21 := Numeral.spelled_repr 21
  have hzero : Numeral.Spelled "020" 20 := (Numeral.read?_eq_some_iff.mp (by decide +kernel)).1
  have hthree : Numeral.Spelled "3" 3 := Numeral.spelled_repr 3
  have hfour : Numeral.Spelled "+04" 4 := (Numeral.read?_eq_some_iff.mp (by decide +kernel)).1
  have hpast : ¬∃ n, Numeral.Spelled "0018446744073709551616" n ∧ n ≤ capacity :=
    Numeral.read?_eq_none_iff.mp (by decide +kernel)
  have hlarge : capacity < Pick.permute.number 21 21 := by decide
  have hfits : Pick.permute.number 20 20 ≤ capacity := by decide
  obtain ⟨hcode, -, -, hreport, -⟩ := (run_pick_decided .permute hplus.head_ne hplain.head_ne).2
    21 21 hplus (by decide) hplain (by decide)
  obtain ⟨-, hcode', -⟩ := (run_pick_decided .permute hzero.head_ne hzero.head_ne).2
    20 20 hzero (by decide) hzero (by decide)
  have htriples : Pick.combine.listing 4 3
      = .ok [[0, 1, 2], [0, 1, 3], [0, 2, 3], [1, 2, 3]] := by decide +kernel
  obtain ⟨-, hcode'', -, -, hprinted, -⟩ := (run_pick_decided .combine hfour.head_ne
    hthree.head_ne).2 4 3 hfour (by decide) hthree (by decide)
  obtain ⟨items, hitems, -, houtput, -⟩ := hprinted (by decide) (by decide)
  obtain rfl := Except.ok.inj (htriples.symm.trans hitems)
  obtain ⟨-, -, hreport', -⟩ := (run_pick_decided .combine hthree.head_ne hfour.head_ne).2
    3 4 hthree (by decide) hfour (by decide)
  have hpastPlain : "0018446744073709551616".toList.head? ≠ some '-' := by decide
  have hrefused := (run_pick_decided .permute hpastPlain hplain.head_ne).1
  exact ⟨hplus, hplain, by decide, hlarge, hcode.mpr (Or.inr ⟨Nat.le_refl 21, hlarge⟩),
    hreport (Nat.le_refl 21) hlarge, hrefused.mpr fun h => hpast h.1, hzero, hfits,
    hcode'.mpr ⟨Nat.le_refl 20, hfits⟩, hthree, hfour, hcode''.mpr (by decide), houtput,
    hreport' (by decide)⟩

end Command
end Choices
