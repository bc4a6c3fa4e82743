/-
# `Choices.Proofs.Listing` — a listing can be read in one way only

Elements are printed without quotes, so what is between two of them has to be
found in the text.  It can be found as long as no element holds a line feed or
the separator.

The separator is two characters, and they differ.  That is what keeps it from
forming across the end of an element: an element may end in a comma, but what
follows it is the comma of the separator and not its blank.  So the first
separator in an item is the one behind its first element, and the rest follows
by induction (`intercalate_inj`).  A line ends in two characters as well, a bracket
and a line feed, and the same argument finds its end (`toList_line_append_inj`).

What is left is an item with no elements, which prints as an item with one
empty element does.  Numbers are never printed as nothing, so for them the two
cannot be confused.
-/
import Mathlib.Data.List.Basic
import Choices.Proofs.Command.Picks

namespace Choices

/-! ## Two characters between -/

section

variable {α : Type} {s t : α}

/-- A front without the pair cannot go on where another one has ended. -/
theorem cons_append_pair_ne (hne : s ≠ t) {a : α} {front rest rest' : List α}
    (hfree : ¬[s, t] <:+: a :: front) : s :: t :: rest ≠ a :: front ++ s :: t :: rest' := by
  intro heq
  cases front with
  | nil =>
      obtain ⟨-, hsecond⟩ := List.cons.inj heq
      exact hne (List.cons.inj hsecond).1.symm
  | cons b front =>
      obtain ⟨rfl, hsecond⟩ := List.cons.inj heq
      obtain ⟨rfl, -⟩ := List.cons.inj hsecond
      exact hfree ⟨[], front, rfl⟩

/-- The first occurrence of two different characters ends what is before it. -/
theorem append_pair_inj (hne : s ≠ t) : ∀ {front front' rest rest' : List α},
    ¬[s, t] <:+: front → ¬[s, t] <:+: front' →
    front ++ s :: t :: rest = front' ++ s :: t :: rest' → front = front' ∧ rest = rest' := by
  intro front
  induction front with
  | nil =>
      intro front' rest rest' _ hfree' heq
      cases front' with
      | nil => exact ⟨rfl, (List.cons.inj (List.cons.inj heq).2).2⟩
      | cons a front' => exact absurd heq (cons_append_pair_ne hne hfree')
  | cons a front ih =>
      intro front' rest rest' hfree hfree' heq
      cases front' with
      | nil => exact absurd heq.symm (cons_append_pair_ne hne hfree)
      | cons a' front' =>
          obtain ⟨rfl, hrest⟩ := List.cons.inj heq
          have htail : ∀ {tail : List α}, ¬[s, t] <:+: a :: tail → ¬[s, t] <:+: tail :=
            fun hcons htail => hcons (htail.trans (List.suffix_cons a _).isInfix)
          obtain ⟨rfl, rfl⟩ := ih (htail hfree) (htail hfree') hrest
          exact ⟨rfl, rfl⟩

theorem infix_append_pair (front rest : List α) : [s, t] <:+: front ++ s :: t :: rest :=
  ⟨front, rest, by simp⟩

theorem mem_append_cons {a b c : α} {as bs : List α} (h : c ∈ as ++ bs) : c ∈ a :: as ++ b :: bs :=
  ((List.sublist_cons_self a as).append (List.sublist_cons_self b bs)).subset h

/-- Elements without the pair are told apart by it. -/
theorem intercalate_inj (hne : s ≠ t) : ∀ {elements elements' : List (List α)},
    elements ≠ [] → elements' ≠ [] →
    (∀ element ∈ elements ++ elements', ¬[s, t] <:+: element) →
    [s, t].intercalate elements = [s, t].intercalate elements' → elements = elements' := by
  intro elements
  induction elements with
  | nil => intro _ h; exact absurd rfl h
  | cons e elements ih =>
      intro elements' _ hsome' hfree heq
      obtain ⟨e', elements', rfl⟩ := List.exists_cons_of_ne_nil hsome'
      have he : ¬[s, t] <:+: e := hfree e (by simp)
      have he' : ¬[s, t] <:+: e' := hfree e' (by simp)
      cases elements with
      | nil =>
          cases elements' with
          | nil =>
              rw [List.intercalate_singleton, List.intercalate_singleton] at heq
              rw [heq]
          | cons f' elements' =>
              rw [List.intercalate_singleton, List.intercalate_cons_cons, List.append_assoc] at heq
              have hpair : [s, t] <:+: e := heq ▸ infix_append_pair e' _
              exact absurd hpair he
      | cons f elements =>
          cases elements' with
          | nil =>
              rw [List.intercalate_singleton, List.intercalate_cons_cons, List.append_assoc] at heq
              have hpair : [s, t] <:+: e' := heq ▸ infix_append_pair e _
              exact absurd hpair he'
          | cons f' elements' =>
              rw [List.intercalate_cons_cons, List.intercalate_cons_cons, List.append_assoc,
                List.append_assoc] at heq
              obtain ⟨rfl, hrest⟩ := append_pair_inj hne he he' heq
              have hfree' : ∀ element ∈ f :: elements ++ f' :: elements', ¬[s, t] <:+: element :=
                fun element helement => hfree element (mem_append_cons helement)
              rw [ih (List.cons_ne_nil _ _) (List.cons_ne_nil _ _) hfree' hrest]

theorem mem_intercalate {between : List α} {c : α} : ∀ {elements : List (List α)},
    c ∈ between.intercalate elements → c ∈ between ∨ ∃ element ∈ elements, c ∈ element := by
  intro elements
  induction elements with
  | nil => simp
  | cons e elements ih =>
      intro h
      cases elements with
      | nil => exact Or.inr ⟨e, List.mem_cons_self, by simpa using h⟩
      | cons f elements =>
          rw [List.intercalate_cons_cons, List.append_assoc, List.mem_append, List.mem_append] at h
          rcases h with h | h | h
          · exact Or.inr ⟨e, List.mem_cons_self, h⟩
          · exact Or.inl h
          · rcases ih h with h | ⟨element, helement, h⟩
            · exact Or.inl h
            · exact Or.inr ⟨element, List.mem_cons_of_mem e helement, h⟩

end

namespace Listing

/-! ## Lines -/

/-- An element in which neither the end of a line nor of an element can be
mistaken. -/
def Plain (element : String) : Prop :=
  '\n' ∉ element.toList ∧ ¬[',', ' '] <:+: element.toList

theorem toList_line (item : List String) :
    (line item).toList = '[' :: (separator.intercalate item).toList ++ [']', '\n'] := by
  simp [line]

theorem toList_lines_cons (item : List String) (items : List (List String)) :
    (lines (item :: items)).toList = (line item).toList ++ (lines items).toList := by
  simp [lines]

theorem lineFeed_notMem_intercalate {item : List String}
    (h : ∀ element ∈ item, '\n' ∉ element.toList) :
    '\n' ∉ (separator.intercalate item).toList := by
  rw [String.toList_intercalate]
  intro hmem
  rcases mem_intercalate hmem with hmem | ⟨chars, hchars, hmem⟩
  · exact absurd hmem (by decide)
  · obtain ⟨element, helement, rfl⟩ := List.mem_map.mp hchars
    exact h element helement hmem

/-- What is printed of an item ends where a bracket is the last of its line. -/
theorem toList_line_append_inj {item item' : List String} {rest rest' : List Char}
    (h : ∀ element ∈ item, '\n' ∉ element.toList) (h' : ∀ element ∈ item', '\n' ∉ element.toList)
    (heq : (line item).toList ++ rest = (line item').toList ++ rest') :
    separator.intercalate item = separator.intercalate item' ∧ rest = rest' := by
  have hfree : ∀ {item : List String}, (∀ element ∈ item, '\n' ∉ element.toList) →
      ¬[']', '\n'] <:+: (separator.intercalate item).toList := by
    intro item hitem hpair
    exact lineFeed_notMem_intercalate hitem (hpair.subset (by simp))
  rw [toList_line, toList_line, List.cons_append, List.cons_append, List.append_assoc,
    List.append_assoc] at heq
  obtain ⟨hitems, hrest⟩ :=
    append_pair_inj (by decide) (hfree h) (hfree h') (List.cons.inj heq).2
  exact ⟨String.toList_inj.mp hitems, hrest⟩

/-- Induction on both lists of items.  Where items are told apart by what is
printed of each, listings are told apart. -/
theorem eq_of_lines_eq : ∀ {items items' : List (List String)},
    (∀ item ∈ items ++ items', ∀ element ∈ item, '\n' ∉ element.toList) →
    (∀ item ∈ items, ∀ item' ∈ items',
      separator.intercalate item = separator.intercalate item' → item = item') →
    lines items = lines items' → items = items' := by
  intro items
  induction items with
  | nil =>
      intro items' _ _ heq
      cases items' with
      | nil => rfl
      | cons item' items' =>
          have hchars := congrArg String.toList heq
          rw [toList_lines_cons, toList_line] at hchars
          cases hchars
  | cons item items ih =>
      intro items' hfeed hitem heq
      have hchars := congrArg String.toList heq
      cases items' with
      | nil =>
          rw [toList_lines_cons, toList_line] at hchars
          cases hchars
      | cons item' items' =>
          rw [toList_lines_cons, toList_lines_cons] at hchars
          obtain ⟨hfirst, hrest⟩ :=
            toList_line_append_inj (hfeed item (by simp)) (hfeed item' (by simp)) hchars
          have hfeed' : ∀ item ∈ items ++ items', ∀ element ∈ item, '\n' ∉ element.toList :=
            fun other hother => hfeed other (mem_append_cons hother)
          rw [hitem item List.mem_cons_self item' List.mem_cons_self hfirst,
            ih hfeed' (fun a ha b hb => hitem a (List.mem_cons_of_mem item ha) b
              (List.mem_cons_of_mem item' hb)) (String.toList_inj.mp hrest)]

/-! ## Items -/

theorem toList_intercalate_separator (item : List String) :
    (separator.intercalate item).toList = [',', ' '].intercalate (item.map String.toList) := by
  rw [String.toList_intercalate]
  rfl

/-- Items with elements are told apart by what is printed of them. -/
theorem eq_of_intercalate_eq {item item' : List String} (hsome : item ≠ []) (hsome' : item' ≠ [])
    (hfree : ∀ element ∈ item ++ item', ¬[',', ' '] <:+: element.toList)
    (heq : separator.intercalate item = separator.intercalate item') : item = item' := by
  have hchars := congrArg String.toList heq
  rw [toList_intercalate_separator, toList_intercalate_separator] at hchars
  have hfree' : ∀ chars ∈ item.map String.toList ++ item'.map String.toList,
      ¬[',', ' '] <:+: chars := by
    rw [← List.map_append]
    intro chars hmem
    obtain ⟨element, helement, rfl⟩ := List.mem_map.mp hmem
    exact hfree element helement
  have hitems := intercalate_inj (by decide) (by simpa using hsome) (by simpa using hsome')
    hfree' hchars
  exact List.map_injective_iff.mpr (fun _ _ => String.toList_inj.mp) hitems

theorem isDigit_of_mem_repr {n : Nat} {c : Char} (h : c ∈ n.repr.toList) : c.isDigit := by
  rw [Nat.toList_repr] at h
  exact Nat.isDigit_of_mem_toDigits (by decide) (by decide) h

theorem plain_repr (n : Nat) : Plain n.repr := by
  constructor
  · intro h
    exact absurd (isDigit_of_mem_repr h) (by decide)
  · intro h
    exact absurd (isDigit_of_mem_repr (h.subset List.mem_cons_self)) (by decide)

/-- An item of numbers that prints as nothing has none. -/
theorem eq_nil_of_intercalate_repr_eq {item : List Nat}
    (h : separator.intercalate (item.map Nat.repr) = "") : item = [] := by
  by_contra hsome
  have hfree : ∀ element ∈ item.map Nat.repr ++ [""], ¬[',', ' '] <:+: element.toList := by
    intro element helement
    rcases List.mem_append.mp helement with hmem | hmem
    · obtain ⟨n, -, rfl⟩ := List.mem_map.mp hmem
      exact (plain_repr n).2
    · rw [List.mem_singleton.mp hmem]
      decide
  have hempty : item.map Nat.repr = [""] :=
    eq_of_intercalate_eq (by simpa using hsome) (List.cons_ne_nil _ _) hfree
      (h.trans String.intercalate_singleton.symm)
  obtain ⟨n, -, hn⟩ : ∃ n ∈ item, n.repr = "" := by
    rw [← List.mem_map, hempty]
    exact List.mem_cons_self
  exact Nat.repr_ne_empty hn

/-- Items of numbers are told apart also where there are none. -/
theorem eq_of_intercalate_repr_eq {item item' : List Nat}
    (heq : separator.intercalate (item.map Nat.repr) = separator.intercalate (item'.map Nat.repr)) :
    item.map Nat.repr = item'.map Nat.repr := by
  by_cases hsome : item = []
  · subst hsome
    rw [eq_nil_of_intercalate_repr_eq heq.symm]
  · by_cases hsome' : item' = []
    · subst hsome'
      exact absurd (eq_nil_of_intercalate_repr_eq heq) hsome
    · refine eq_of_intercalate_eq (by simpa using hsome) (by simpa using hsome') ?_ heq
      intro element helement
      rw [← List.map_append] at helement
      obtain ⟨n, -, rfl⟩ := List.mem_map.mp helement
      exact (plain_repr n).2

/-! ## Listings -/

theorem numberLines_inj {items items' : List (List Nat)}
    (heq : numberLines items = numberLines items') : items = items' := by
  have hlines : items.map (·.map Nat.repr) = items'.map (·.map Nat.repr) := by
    refine eq_of_lines_eq ?_ ?_ heq
    · intro item hitem element helement
      rw [← List.map_append] at hitem
      obtain ⟨numbers, -, rfl⟩ := List.mem_map.mp hitem
      obtain ⟨n, -, rfl⟩ := List.mem_map.mp helement
      exact (plain_repr n).1
    · intro item hitem item' hitem'
      obtain ⟨numbers, -, rfl⟩ := List.mem_map.mp hitem
      obtain ⟨numbers', -, rfl⟩ := List.mem_map.mp hitem'
      exact eq_of_intercalate_repr_eq
  have hrepr : Function.Injective Nat.repr := fun _ _ => Nat.repr_inj.mp
  exact List.map_injective_iff.mpr (List.map_injective_iff.mpr hrepr) hlines

theorem lines_inj {items items' : List (List String)}
    (hitems : ∀ item ∈ items ++ items', item ≠ [] ∧ ∀ element ∈ item, Plain element)
    (heq : lines items = lines items') : items = items' := by
  refine eq_of_lines_eq (fun item hitem element helement => ((hitems item hitem).2 element
    helement).1) (fun item hitem item' hitem' => ?_) heq
  obtain ⟨hsome, hplain⟩ := hitems item (List.mem_append_left _ hitem)
  obtain ⟨hsome', hplain'⟩ := hitems item' (List.mem_append_right _ hitem')
  refine eq_of_intercalate_eq hsome hsome' fun element helement => ?_
  rcases List.mem_append.mp helement with hmem | hmem
  · exact (hplain element hmem).2
  · exact (hplain' element hmem).2

end Listing

namespace Command

/-! ## What a command prints -/

theorem exists_items_of_printed {words : List String} {command : Command} {parallel : Bool}
    {text : String} (hread : read words = .ok ⟨command, false, parallel⟩)
    (hrun : run words = .printed text) :
    ∃ items, command.items = .ok items ∧ Listing.lines items = text := by
  rw [run_of_read hread, Invocation.output_eq, if_neg Bool.false_ne_true,
    ofOutput_eq_printed_iff] at hrun
  exact map_eq_ok_iff.mp hrun

theorem Pick.exists_listing_of_printed {words : List String} {pick : Pick} {n k : Nat}
    {parallel : Bool} {text : String} (hread : read words = .ok ⟨pick.command n k, false, parallel⟩)
    (hrun : run words = .printed text) :
    ∃ items, pick.listing n k = .ok items ∧ Listing.numberLines items = text := by
  obtain ⟨items, hitems, rfl⟩ := exists_items_of_printed hread hrun
  rw [Pick.items_command] at hitems
  obtain ⟨numbers, hlisting, rfl⟩ := map_eq_ok_iff.mp hitems
  exact ⟨numbers, hlisting, rfl⟩

/-- Items of rows have an element for every row, and it stands there. -/
theorem forall₂_of_mem_items {rows items : List (List String)} {item : List String}
    (hitems : (cartesian rows).items = .ok items) (hitem : item ∈ items) :
    rows ≠ [] ∧ List.Forall₂ (· ∈ ·) item rows := by
  have hproduct : product (toRows rows) = .ok items := hitems
  cases hsize : (toRows rows).size with
  | error fault => cases (product_eq_error_iff.mpr hsize).symm.trans hproduct
  | ok size =>
      obtain ⟨P, hP, -⟩ := Product.exists_of_size hsize
      rw [← hP, product_rows] at hproduct
      cases hproduct
      have hforall := P.forall₂_of_mem_toList_start hitem
      rw [hP, toRows, List.forall₂_map_right_iff] at hforall
      have hrows : toRows rows ≠ [] := (Rows.size_eq_ok_iff.mp hsize).1
      exact ⟨fun hnil => hrows (by rw [hnil]; rfl), hforall.imp fun _ _ => List.mem_toArray.mp⟩

theorem exists_mem_of_forall₂ {item : List String} {rows : List (List String)}
    (h : List.Forall₂ (· ∈ ·) item rows) : ∀ element ∈ item, ∃ row ∈ rows, element ∈ row := by
  induction h with
  | nil => simp
  | @cons first row item rows hfirst _ ih =>
      intro element helement
      rcases List.mem_cons.mp helement with rfl | helement
      · exact ⟨row, List.mem_cons_self, hfirst⟩
      · obtain ⟨other, hother, hmem⟩ := ih element helement
        exact ⟨other, List.mem_cons_of_mem row hother, hmem⟩

theorem plain_of_mem_items {rows items : List (List String)}
    (hplain : ∀ row ∈ rows, ∀ element ∈ row, Listing.Plain element)
    (hitems : (cartesian rows).items = .ok items) :
    ∀ item ∈ items, item ≠ [] ∧ ∀ element ∈ item, Listing.Plain element := by
  intro item hitem
  obtain ⟨hrows, hforall⟩ := forall₂_of_mem_items hitems hitem
  refine ⟨fun hnil => hrows ?_, fun element helement => ?_⟩
  · subst hnil
    exact List.forall₂_nil_left_iff.mp hforall
  · obtain ⟨row, hrow, hmem⟩ := exists_mem_of_forall₂ hforall element helement
    exact hplain row hrow element hmem

/-- Lists of items that print the same text are equal: items of numbers always,
items of strings if each has an element and no element holds a line feed or the
separator.  So two runs that print the same text list the same items in the
same order, those of commands on numbers always, those of commands on rows if
this holds of the elements of the rows. -/
theorem lines_determine_items :
    (∀ items items' : List (List Nat),
      Listing.numberLines items = Listing.numberLines items' → items = items') ∧
    (∀ items items' : List (List String),
      (∀ item ∈ items ++ items', item ≠ [] ∧
        ∀ element ∈ item, '\n' ∉ element.toList ∧ ¬[',', ' '] <:+: element.toList) →
      Listing.lines items = Listing.lines items' → items = items') ∧
    (∀ (words words' : List String) (pick pick' : Pick) (n k n' k' : Nat)
        (parallel parallel' : Bool) (text : String),
      read words = .ok ⟨pick.command n k, false, parallel⟩ →
      read words' = .ok ⟨pick'.command n' k', false, parallel'⟩ →
      run words = .printed text → run words' = .printed text →
      ∃ items, pick.listing n k = .ok items ∧ pick'.listing n' k' = .ok items) ∧
    ∀ (words words' : List String) (rows rows' : List (List String))
        (parallel parallel' : Bool) (text : String),
      (∀ row ∈ rows ++ rows', ∀ element ∈ row,
        '\n' ∉ element.toList ∧ ¬[',', ' '] <:+: element.toList) →
      read words = .ok ⟨cartesian rows, false, parallel⟩ →
      read words' = .ok ⟨cartesian rows', false, parallel'⟩ →
      run words = .printed text → run words' = .printed text →
      ∃ items, product (toRows rows) = .ok items ∧ product (toRows rows') = .ok items := by
  refine ⟨fun items items' => Listing.numberLines_inj, fun items items' => Listing.lines_inj,
    ?_, ?_⟩
  · intro words words' pick pick' n k n' k' parallel parallel' text hread hread' hrun hrun'
    obtain ⟨items, hitems, htext⟩ := Pick.exists_listing_of_printed hread hrun
    obtain ⟨items', hitems', htext'⟩ := Pick.exists_listing_of_printed hread' hrun'
    obtain rfl := Listing.numberLines_inj (htext.trans htext'.symm)
    exact ⟨items, hitems, hitems'⟩
  · intro words words' rows rows' parallel parallel' text hplain hread hread' hrun hrun'
    obtain ⟨items, hitems, htext⟩ := exists_items_of_printed hread hrun
    obtain ⟨items', hitems', htext'⟩ := exists_items_of_printed hread' hrun'
    have hall : ∀ item ∈ items ++ items', item ≠ [] ∧ ∀ element ∈ item, Listing.Plain element := by
      intro item hitem
      rcases List.mem_append.mp hitem with hmem | hmem
      · exact plain_of_mem_items (fun row hrow => hplain row (List.mem_append_left _ hrow))
          hitems item hmem
      · exact plain_of_mem_items (fun row hrow => hplain row (List.mem_append_right _ hrow))
          hitems' item hmem
    obtain rfl := Listing.lines_inj hall (htext.trans htext'.symm)
    exact ⟨items, hitems, hitems'⟩

/-- Elements that end in a comma or start with a blank, and one that is a
bracket.  Moved to the other side, a comma prints a different item.  Two lines
for the same rows, and two for the same numbers in other spellings. -/
theorem lines_determine_items_commas :
    Listing.lines [["a,", "b"]] ≠ Listing.lines [["a", ",b"]] ∧
      (∀ row ∈ [["a,", "]"], [" b", ""]] ++ [["a,", "]"], [" b", ""]], ∀ element ∈ row,
        '\n' ∉ element.toList ∧ ¬[',', ' '] <:+: element.toList) ∧
      read ["cartesian", "[[\"a,\",\"]\"],[\" b\",\"\"]]"]
        = .ok ⟨cartesian [["a,", "]"], [" b", ""]], false, false⟩ ∧
      read ["cartesian", "-p", " [ [\"a,\",\"]\"] , [\" b\",\"\"] ] "]
        = .ok ⟨cartesian [["a,", "]"], [" b", ""]], false, true⟩ ∧
      run ["cartesian", "[[\"a,\",\"]\"],[\" b\",\"\"]]"]
        = .printed "[],  b]\n[a,, ]\n[], ]\n[a,,  b]\n" ∧
      product (toRows [["a,", "]"], [" b", ""]])
        = .ok [["]", " b"], ["a,", ""], ["]", ""], ["a,", " b"]] ∧
      run ["permute", "2", "2"] = .printed "[1, 0]\n[0, 1]\n" ∧
      run ["-p", "permute", "+2", "02"] = .printed "[1, 0]\n[0, 1]\n" ∧
      permutations 2 2 = .ok [[1, 0], [0, 1]] := by
  obtain ⟨-, hitems, hnumbers, hrows⟩ := lines_determine_items
  have hcomma : ∀ item ∈ [["a,", "b"]] ++ [["a", ",b"]], item ≠ [] ∧ ∀ element ∈ item,
      '\n' ∉ element.toList ∧ ¬[',', ' '] <:+: element.toList := by decide
  have hplain : ∀ row ∈ [["a,", "]"], [" b", ""]] ++ [["a,", "]"], [" b", ""]], ∀ element ∈ row,
      '\n' ∉ element.toList ∧ ¬[',', ' '] <:+: element.toList := by decide
  have hread : read ["cartesian", "[[\"a,\",\"]\"],[\" b\",\"\"]]"]
      = .ok ⟨cartesian [["a,", "]"], [" b", ""]], false, false⟩ := rfl
  have hread' : read ["cartesian", "-p", " [ [\"a,\",\"]\"] , [\" b\",\"\"] ] "]
      = .ok ⟨cartesian [["a,", "]"], [" b", ""]], false, true⟩ := rfl
  have hrun : run ["cartesian", "[[\"a,\",\"]\"],[\" b\",\"\"]]"]
      = .printed "[],  b]\n[a,, ]\n[], ]\n[a,,  b]\n" := rfl
  have hrun' : run ["cartesian", "-p", " [ [\"a,\",\"]\"] , [\" b\",\"\"] ] "]
      = .printed "[],  b]\n[a,, ]\n[], ]\n[a,,  b]\n" := by decide +kernel
  have hpermute : run ["permute", "2", "2"] = .printed "[1, 0]\n[0, 1]\n" := by decide +kernel
  have hpermute' : run ["-p", "permute", "+2", "02"] = .printed "[1, 0]\n[0, 1]\n" := by
    decide +kernel
  have hproduct : product (toRows [["a,", "]"], [" b", ""]])
      = .ok [["]", " b"], ["a,", ""], ["]", ""], ["a,", " b"]] := rfl
  have hpermutations : permutations 2 2 = .ok [[1, 0], [0, 1]] := by decide +kernel
  obtain ⟨items, hlisting, -⟩ := hrows _ _ _ _ _ _ _ hplain hread hread' hrun hrun'
  obtain rfl := Except.ok.inj (hproduct.symm.trans hlisting)
  obtain ⟨numbers, hlisting', -⟩ :=
    hnumbers _ _ .permute .permute 2 2 2 2 _ _ _ rfl rfl hpermute hpermute'
  obtain rfl := Except.ok.inj (hpermutations.symm.trans hlisting')
  exact ⟨fun heq => absurd (hitems _ _ hcomma heq) (by decide), hplain, hread, hread', hrun,
    hlisting, hpermute, hpermute', hlisting'⟩

end Command
end Choices
