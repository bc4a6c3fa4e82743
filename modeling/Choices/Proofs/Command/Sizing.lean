/-
# `Choices.Proofs.Command.Sizing` — a size is the number of lines

A command can be asked for its items or for their number.  The two come from
different code: an enumeration, by itself or in branches, on the one side, a
count that multiplies on the other.  `Command.items` is what they have in
common, the items in order of listing or the fault of the request:

    command.lines parallel = command.items.map Listing.lines
    command.size = command.items.map List.length

The first equation says that branches change nothing, the second that a count
is the length of its listing and that both are refused for the same reason.
For whole lines there is then one case where both runs fail and have printed
nothing, and one where both print (`run_sizing_agrees`).
-/
import Choices.Command.Run
import Choices.Proofs.Combination.Branches
import Choices.Proofs.Command.Reading
import Choices.Proofs.Permutation.Branches
import Choices.Proofs.Product.Readings

namespace Choices

/-! ## Counts are lengths -/

theorem map_map_except {ε β γ δ : Type} (f : β → γ) (g : γ → δ) (answer : Except ε β) :
    (answer.map f).map g = answer.map fun b => g (f b) :=
  Functor.map_map f g answer

theorem map_eq_ok_iff {ε β γ : Type} {f : β → γ} {answer : Except ε β} {c : γ} :
    answer.map f = .ok c ↔ ∃ b, answer = .ok b ∧ f b = c := by
  cases answer with
  | error fault => simp [Except.map]
  | ok b => simp [Except.map]

/-- A listing whose length is its count, whenever there is one. -/
theorem map_length_of_count {β : Type} {count : Except Fault Nat} {listing : List β}
    (h : ∀ size, count = .ok size → size = listing.length) :
    (count.map fun _ => listing).map List.length = count := by
  cases count with
  | error fault => rfl
  | ok size => exact congrArg Except.ok (h size rfl).symm

theorem map_length_permutations (n k : Nat) :
    (permutations n k).map List.length = Count.permutations n k := by
  rw [permutations_eq_map]
  refine map_length_of_count fun size hcount => ?_
  rw [length_arrangements_range]
  exact (Count.permutations_eq_ok_iff.mp hcount).2.2

theorem map_length_combinations (n k : Nat) :
    (combinations n k).map List.length = Count.combinations n k := by
  rw [combinations_eq_map]
  refine map_length_of_count fun size hcount => ?_
  rw [length_selections_range]
  exact (Count.combinations_eq_ok_iff.mp hcount).2.2

theorem map_length_product {α : Type} (rows : Rows α) :
    (product rows).map List.length = rows.size := by
  cases hsize : rows.size with
  | error fault =>
      rw [product_eq_error_iff.mpr hsize]
      rfl
  | ok size =>
      obtain ⟨P, rfl, rfl⟩ := Product.exists_of_size hsize
      rw [product_rows]
      exact congrArg Except.ok P.length_toList_start

namespace Command

/-! ## What a command lists -/

/-- The items of a command in order of listing, each element as it is
printed. -/
def items : Command → Except Fault (List (List String))
  | .permute n k => (permutations n k).map fun arranged => arranged.map (·.map Nat.repr)
  | .combine n k => (combinations n k).map fun selected => selected.map (·.map Nat.repr)
  | .cartesian rows => product (toRows rows)

theorem lines_eq_map_items (parallel : Bool) (command : Command) :
    command.lines parallel = command.items.map Listing.lines := by
  cases command with
  | permute n k =>
      rw [lines, items, branchedPermutations_eq, ite_self, map_map_except]
      rfl
  | combine n k =>
      rw [lines, items, branchedCombinations_eq, ite_self, map_map_except]
      rfl
  | cartesian rows =>
      rw [lines, items, branchedProduct_eq, ite_self]

theorem size_eq_map_items (command : Command) :
    command.size = command.items.map List.length := by
  cases command with
  | permute n k =>
      rw [size, items, map_map_except, ← map_length_permutations]
      exact congrArg (permutations n k).map (funext fun _ => (List.length_map _).symm)
  | combine n k =>
      rw [size, items, map_map_except, ← map_length_combinations]
      exact congrArg (combinations n k).map (funext fun _ => (List.length_map _).symm)
  | cartesian rows => exact (map_length_product (toRows rows)).symm

/-- With nothing to pick there is one item, the empty one. -/
theorem items_of_zero {n : Nat} {command : Command}
    (h : command = permute n 0 ∨ command = combine n 0) : command.items = .ok [[]] := by
  rcases h with rfl | rfl
  · rw [items, permutations_zero]
    rfl
  · rw [items, combinations_zero]
    rfl

/-- Branches list what is listed without them, so the output depends on the
command alone and on whether its size is asked for. -/
theorem Invocation.output_eq (invocation : Invocation) :
    invocation.output
      = if invocation.count then
          invocation.command.items.map fun items => Listing.countLine items.length
        else invocation.command.items.map Listing.lines := by
  rw [output, size_eq_map_items, lines_eq_map_items, map_map_except]

/-! ## What a line comes to -/

theorem run_of_read {words : List String} {invocation : Invocation}
    (h : read words = .ok invocation) : run words = .ofOutput invocation.output := by
  rw [run, h]

theorem run_of_read_error {words : List String} {stop : Stop} (h : read words = .error stop) :
    run words = .ofStop stop := by
  rw [run, h]

theorem ofOutput_eq_printed_iff {answer : Except Fault String} {text : String} :
    Outcome.ofOutput answer = .printed text ↔ answer = .ok text := by
  cases answer with
  | error fault => simp [Outcome.ofOutput]
  | ok output => simp [Outcome.ofOutput]

/-- Both runs of a line, the one for the items and the one for their number. -/
theorem run_eq_ofOutput_items {words : List String} {invocation : Invocation}
    (hread : read words = .ok invocation) (hlisting : invocation.count = false) :
    run words = .ofOutput (invocation.command.items.map Listing.lines) ∧
      run ("-c" :: words)
        = .ofOutput (invocation.command.items.map fun items => Listing.countLine items.length) := by
  constructor
  · rw [run_of_read hread, Invocation.output_eq, hlisting, if_neg Bool.false_ne_true]
  · rw [run_of_read (read_count_cons hread hlisting), Invocation.output_eq, if_pos rfl]

/-- An accepted line without the flag for the size, and the same line with it
in front.  Either the request has a fault, and both runs fail with its message
and have printed nothing, or it has items, and one run prints them, a line
each, and the other prints how many they are.  Nothing to pick is one item. -/
theorem run_sizing_agrees {words : List String} {invocation : Invocation}
    (hread : read words = .ok invocation) (hlisting : invocation.count = false) :
    (∃ fault, invocation.command.items = .error fault ∧
      ∀ outcome ∈ [run words, run ("-c" :: words)],
        outcome.exitCode = 1 ∧ outcome.output = "" ∧
          outcome.report? = some ("Error: \"" ++ fault.message ++ "\"")) ∨
    ∃ items, invocation.command.items = .ok items ∧
      (∀ outcome ∈ [run words, run ("-c" :: words)],
        outcome.exitCode = 0 ∧ outcome.report? = none) ∧
      (run words).output
        = String.join (items.map fun item => "[" ++ ", ".intercalate item ++ "]\n") ∧
      (run ("-c" :: words)).output = items.length.repr ++ "\n" ∧
      ∀ n, invocation.command = permute n 0 ∨ invocation.command = combine n 0 →
        items = [[]] := by
  obtain ⟨hlist, hsize⟩ := run_eq_ofOutput_items hread hlisting
  rw [hlist, hsize]
  cases hitems : invocation.command.items with
  | error fault =>
      refine Or.inl ⟨fault, rfl, fun outcome houtcome => ?_⟩
      obtain rfl : outcome = .failed fault := by
        rcases List.mem_pair.mp houtcome with rfl | rfl
        · rfl
        · rfl
      exact ⟨rfl, rfl, rfl⟩
  | ok items =>
      refine Or.inr ⟨items, rfl, fun outcome houtcome => ?_, rfl, rfl, fun n hcommand => ?_⟩
      · rcases List.mem_pair.mp houtcome with rfl | rfl
        · exact ⟨rfl, rfl⟩
        · exact ⟨rfl, rfl⟩
      · exact Except.ok.inj (hitems.symm.trans (items_of_zero hcommand))

/-- A request that fails, and one in branches that prints two items. -/
theorem run_sizing_agrees_lines :
    read ["permute", "2", "3"] = .ok ⟨permute 2 3, false, false⟩ ∧
    (run ["permute", "2", "3"]).exitCode = 1 ∧
    (run ["permute", "2", "3"]).report? = some "Error: \"n (2) is less than k (3)\"" ∧
    (run ["-c", "permute", "2", "3"]).report? = some "Error: \"n (2) is less than k (3)\"" ∧
    read ["-p", "cartesian", "[[\"a0\",\"a1\"],[\"b0\"]]"]
      = .ok ⟨cartesian [["a0", "a1"], ["b0"]], false, true⟩ ∧
    (run ["-p", "cartesian", "[[\"a0\",\"a1\"],[\"b0\"]]"]).output = "[a1, b0]\n[a0, b0]\n" ∧
    (run ["-c", "-p", "cartesian", "[[\"a0\",\"a1\"],[\"b0\"]]"]).output = "2\n" := by
  have hfew : read ["permute", "2", "3"] = .ok ⟨permute 2 3, false, false⟩ := rfl
  have hrows : read ["-p", "cartesian", "[[\"a0\",\"a1\"],[\"b0\"]]"]
      = .ok ⟨cartesian [["a0", "a1"], ["b0"]], false, true⟩ := rfl
  have hfault : (permute 2 3).items = .error (.domain 2 3) := rfl
  have hpairs : (cartesian [["a0", "a1"], ["b0"]]).items = .ok [["a1", "b0"], ["a0", "b0"]] := rfl
  rcases run_sizing_agrees hfew rfl with ⟨fault, hitems, hfails⟩ | ⟨items, hitems, -⟩
  · obtain rfl := Except.error.inj (hfault.symm.trans hitems)
    have hplain := hfails _ List.mem_cons_self
    have hcount := hfails _ (List.mem_cons_of_mem _ List.mem_cons_self)
    rcases run_sizing_agrees hrows rfl with
      ⟨fault, hitems, -⟩ | ⟨items, hitems, -, hlist, hsize, -⟩
    · cases hpairs.symm.trans hitems
    · obtain rfl := Except.ok.inj (hpairs.symm.trans hitems)
      exact ⟨hfew, hplain.1, hplain.2.2, hcount.2.2, hrows, hlist, hsize⟩
  · cases hfault.symm.trans hitems

end Command
end Choices
