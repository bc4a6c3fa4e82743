/-
# `Choices.Proofs.Combination.Selections` — what the buffer enumerates

`selections k pool` is the listing as a plain recursion on the pool: first
the selections that take the first element, then those that pass over it.
`selectionsAt` groups the same list by the place of the first pick.

`Worker.choose?` writes exactly this (`Worker.writes_choose?`).  The buffer
is a front that is decided and a rest that is open, and the rest may hold
anything: a round of the loop puts one entry behind the front, and the deeper
rounds write the places after it before the buffer is handed out.  So the
invariant of the loop speaks of the front and of the length of the rest, never
of what stands there.  At the end the open places hold the last selection,
which is the end of the domain.

The loop stops where too few elements are left, and that is where the
recursion has nothing more to give either (`selections_eq_nil`).  The list
has as many entries as the binomial coefficient says, its entries are the
sublists of length `k`, and they ascend lexicographically when the pool
ascends.
-/
import Mathlib.Data.List.Sort
import Choices.Combination.Basic
import Choices.Proofs.Count
import Choices.Proofs.Worker

namespace Choices

variable {α : Type}

/-! ## The list of selections -/

/-- The selections of `k` elements of a pool, in the order of listing. -/
def selections : (k : Nat) → (pool : List α) → List (List α)
  | 0, _ => [[]]
  | _ + 1, [] => []
  | k + 1, a :: pool => (selections k pool).map (a :: ·) ++ selections (k + 1) pool

theorem selections_zero (pool : List α) : selections 0 pool = [[]] := by
  cases pool <;> rfl

theorem selections_cons (k : Nat) (a : α) (pool : List α) :
    selections (k + 1) (a :: pool)
      = (selections k pool).map (a :: ·) ++ selections (k + 1) pool := rfl

theorem length_selections : ∀ {k : Nat} {pool : List α},
    (selections k pool).length = pool.length.choose k
  | 0, pool => by rw [selections_zero, List.length_singleton, Nat.choose_zero_right]
  | _ + 1, [] => rfl
  | k + 1, a :: pool => by
      rw [selections_cons, List.length_append, List.length_map, length_selections,
        length_selections, List.length_cons, Nat.choose_succ_succ]

theorem length_selections_range (n k : Nat) :
    (selections k (List.range n)).length = n.choose k := by
  rw [length_selections, List.length_range]

theorem selections_eq_nil {k : Nat} {pool : List α} (h : pool.length < k) :
    selections k pool = [] := by
  rw [← List.length_eq_zero_iff, length_selections, Nat.choose_eq_zero_of_lt h]

theorem mem_selections_iff : ∀ {k : Nat} {pool item : List α},
    item ∈ selections k pool ↔ item.length = k ∧ item.Sublist pool
  | 0, pool, item => by
      rw [selections_zero, List.mem_singleton, List.length_eq_zero_iff]
      constructor
      · rintro rfl
        exact ⟨rfl, List.nil_sublist pool⟩
      · exact And.left
  | k + 1, [], item => by
      constructor
      · intro h
        exact absurd h List.not_mem_nil
      · rintro ⟨hlen, hsub⟩
        rw [List.sublist_nil.mp hsub] at hlen
        exact absurd hlen (Nat.succ_ne_zero k).symm
  | k + 1, a :: pool, item => by
      rw [selections_cons, List.mem_append, List.mem_map, mem_selections_iff]
      constructor
      · rintro (⟨rest, hrest, rfl⟩ | ⟨hlen, hsub⟩)
        · obtain ⟨hlen, hsub⟩ := mem_selections_iff.mp hrest
          exact ⟨by rw [List.length_cons, hlen], hsub.cons_cons a⟩
        · exact ⟨hlen, hsub.cons a⟩
      · rintro ⟨hlen, hsub⟩
        cases hsub with
        | cons _ hsub => exact Or.inr ⟨hlen, hsub⟩
        | cons_cons _ hsub =>
            exact Or.inl ⟨_, mem_selections_iff.mpr ⟨Nat.succ.inj hlen, hsub⟩, rfl⟩

/-- The order of listing is lexicographic. -/
theorem pairwise_lex_selections {r : α → α → Prop} : ∀ {k : Nat} {pool : List α},
    pool.Pairwise r → (selections k pool).Pairwise (List.Lex r)
  | 0, pool, _ => by
      rw [selections_zero]
      exact List.pairwise_singleton _ _
  | _ + 1, [], _ => List.Pairwise.nil
  | k + 1, a :: pool, h => by
      obtain ⟨hfirst, hpool⟩ := List.pairwise_cons.mp h
      rw [selections_cons, List.pairwise_append]
      refine ⟨?_, pairwise_lex_selections hpool, ?_⟩
      · rw [List.pairwise_map]
        exact (pairwise_lex_selections hpool).imp List.Lex.cons
      · -- a selection that passes over `a` starts with a later element
        intro item hitem item' hitem'
        obtain ⟨rest, -, rfl⟩ := List.mem_map.mp hitem
        obtain ⟨hlen, hsub⟩ := mem_selections_iff.mp hitem'
        cases item' with
        | nil => exact absurd hlen (Nat.succ_ne_zero k).symm
        | cons b rest' => exact .rel (hfirst b (hsub.subset List.mem_cons_self))

/-! ## Selections by their first pick -/

/-- The selections of `k + 1` elements that pick first at place `i`. -/
def selectionsAt (k : Nat) (pool : List α) (i : Nat) : List (List α) :=
  match pool.drop i with
  | [] => []
  | a :: rest => (selections k rest).map (a :: ·)

theorem selectionsAt_of_getElem? {k i : Nat} {pool : List α} {a : α} (h : pool[i]? = some a) :
    selectionsAt k pool i = (selections k (pool.drop (i + 1))).map (a :: ·) := by
  obtain ⟨hi, rfl⟩ := List.getElem?_eq_some_iff.mp h
  rw [selectionsAt, List.drop_eq_getElem_cons hi]

/-- The places for a first pick are those with `k` elements behind them. -/
theorem selections_drop_eq_flatMap (k : Nat) (pool : List α) : ∀ {places start : Nat},
    pool.length - k - start = places →
    selections (k + 1) (pool.drop start)
      = (List.range' start places).flatMap (selectionsAt k pool) := by
  intro places
  induction places with
  | zero =>
      intro start h
      have hshort : (pool.drop start).length < k + 1 := by
        rw [List.length_drop]
        omega
      rw [selections_eq_nil hshort, List.range'_zero, List.flatMap_nil]
  | succ places ih =>
      intro start h
      have hstart : start < pool.length := by omega
      have hget : pool[start]? = some pool[start] := List.getElem?_eq_getElem hstart
      rw [List.range'_succ, List.flatMap_cons, ← ih (by omega), selectionsAt_of_getElem? hget,
        List.drop_eq_getElem_cons hstart, selections_cons]

theorem selections_succ_eq_flatMap (k : Nat) (pool : List α) :
    selections (k + 1) pool
      = (List.range (pool.length - k)).flatMap (selectionsAt k pool) := by
  rw [List.range_eq_range', ← selections_drop_eq_flatMap k pool (Nat.sub_zero _), List.drop_zero]

/-! ## The buffer -/

namespace Worker

/-- The invariant of a buffer: `front` is decided, and `places` places are
open behind it, whatever they hold. -/
def HasFront (front : List α) (places : Nat) (work : Array α) : Prop :=
  ∃ stale : List α, stale.length = places ∧ work = (front ++ stale).toArray

theorem HasFront.size {front : List α} {places : Nat} {work : Array α}
    (h : HasFront front places work) : work.size = front.length + places := by
  obtain ⟨stale, rfl, rfl⟩ := h
  rw [List.size_toArray, List.length_append]

theorem HasFront.replicate (places : Nat) (a : α) :
    HasFront [] places (Array.replicate places a) :=
  ⟨List.replicate places a, List.length_replicate, by simp⟩

/-- Deciding one more place. -/
theorem HasFront.writes_put? {front : List α} {places : Nat} {work : Array α}
    (h : HasFront front (places + 1) work) (a : α) :
    ∃ work', HasFront (front ++ [a]) places work' ∧
      Writes (·.put? front.length a) work [] work' := by
  obtain ⟨stale, hlen, rfl⟩ := h
  obtain ⟨old, stale, rfl⟩ := List.exists_cons_of_length_eq_add_one hlen
  have hplace : front.length < (front ++ old :: stale).toArray.size := by simp
  refine ⟨_, ⟨stale, Nat.succ.inj hlen, ?_⟩, Worker.writes_put? _ hplace a⟩
  simp

/-- With enough elements left the loop runs, and it decides the place behind
the front. -/
theorem HasFront.choose?_succ {domain : Array α} {rest start : Nat} {front : List α}
    {work : Array α} (hwork : HasFront front (rest + 1) work)
    (hstart : start + (rest + 1) ≤ domain.size) (region : Region α) :
    choose? domain (rest + 1) start ⟨work, region⟩
      = (List.range' start (domain.size - rest - start)).foldlM (fun worker i =>
          domain[i]?.bind fun element =>
            (worker.put? front.length element).bind (choose? domain rest (i + 1)))
          ⟨work, region⟩ := by
  have hguard : rest < work.size ∧ rest < domain.size ∧ start + rest ≤ domain.size := by
    have := hwork.size
    omega
  have hslot : work.size - (rest + 1) = front.length := by
    rw [hwork.size, Nat.add_sub_cancel]
  rw [choose?, if_pos hguard]
  simp only [hslot]
  rfl

/-- A round decides one more place, and what it leaves behind the front is open
again. -/
theorem HasFront.writes_round {domain : Array α} {rest i : Nat} {front : List α}
    {work : Array α} (hi : i < domain.size) {settled : List α} (hsettled : settled.length = rest)
    (hrest : ∀ work, HasFront (front ++ [domain[i]]) rest work →
      Writes (choose? domain rest (i + 1)) work
        ((selections rest (domain.toList.drop (i + 1))).map (front ++ [domain[i]] ++ ·))
        (front ++ [domain[i]] ++ settled).toArray)
    (hwork : HasFront front (rest + 1) work) :
    HasFront front (rest + 1) (front ++ (domain[i]?.toList ++ settled)).toArray ∧
      Writes (fun worker => domain[i]?.bind fun element =>
          (worker.put? front.length element).bind (choose? domain rest (i + 1))) work
        ((selectionsAt rest domain.toList i).map (front ++ ·))
        (front ++ (domain[i]?.toList ++ settled)).toArray := by
  obtain ⟨work₁, hwork₁, hput⟩ := hwork.writes_put? domain[i]
  have hget : domain.toList[i]? = some domain[i] := by simp [hi]
  rw [selectionsAt_of_getElem? hget, Array.getElem?_eq_getElem hi]
  refine ⟨⟨domain[i] :: settled, by rw [List.length_cons, hsettled], rfl⟩, ?_⟩
  simpa [Function.comp_def] using hput.bind (hrest work₁ hwork₁)

/-- Induction on the number of open places.  A round leaves the front as it
was, which is all the next round asks for.  The last one takes the last
elements there are, so they stand in the open places at the end. -/
theorem writes_choose? {domain : Array α} : ∀ {remaining start : Nat} {front : List α}
    {work : Array α}, start + remaining ≤ domain.size → HasFront front remaining work →
    Writes (choose? domain remaining start) work
      ((selections remaining (domain.toList.drop start)).map (front ++ ·))
      (front ++ domain.toList.drop (domain.size - remaining)).toArray := by
  intro remaining
  induction remaining with
  | zero =>
      intro start front work _ hwork
      obtain ⟨stale, hlen, rfl⟩ := hwork
      obtain rfl := List.length_eq_zero_iff.mp hlen
      have hnone : domain.toList.drop (domain.size - 0) = [] :=
        List.drop_eq_nil_of_le (Nat.le_of_eq Array.length_toList)
      have hemit := writes_emit? (front ++ []).toArray (Nat.zero_le _)
      rw [hnone, funext (choose?_zero domain start), selections_zero]
      simpa using hemit
  | succ rest ih =>
      intro start front work hstart hwork
      obtain ⟨before, hbefore⟩ : ∃ before, domain.size - rest - start = before + 1 :=
        ⟨domain.size - rest - start - 1, by omega⟩
      have hplaces : List.range' start (domain.size - rest - start)
          = List.range' start before ++ [start + before] := by
        rw [hbefore, List.range'_1_concat]
      have hsettled : (domain.toList.drop (domain.size - rest)).length = rest := by
        rw [List.length_drop, Array.length_toList]
        omega
      have hloop := writes_foldlM_concat (fun i hi work hwork =>
        have hi' := List.mem_range'_1.mp (hplaces ▸ hi)
        hwork.writes_round (show i < domain.size by omega) hsettled
          fun _ => ih (by omega)) hwork
      have hfinal : domain[start + before]?.toList ++ domain.toList.drop (domain.size - rest)
          = domain.toList.drop (domain.size - (rest + 1)) := by
        rw [show domain.size - rest = start + before + 1 by omega,
          show domain.size - (rest + 1) = start + before by omega, ← Array.getElem?_toList]
        exact List.drop_eq_getElem?_toList_append.symm
      have hitems : selections (rest + 1) (domain.toList.drop start)
          = (List.range' start (domain.size - rest - start)).flatMap
              (selectionsAt rest domain.toList) :=
        selections_drop_eq_flatMap rest domain.toList rfl
      intro region
      rw [hwork.choose?_succ hstart, hitems, List.map_flatMap, hplaces, ← hfinal]
      exact hloop region

end Worker

/-! ## The listing of a request -/

/-- A counted request is answered by the selections of its indices, any other
one by the fault of its count. -/
theorem combinations_eq_map (n k : Nat) :
    combinations n k = (Count.combinations n k).map fun _ => selections k (List.range n) := by
  cases hcount : Count.combinations n k with
  | error fault => exact combinations_eq_error hcount
  | ok size =>
      obtain ⟨hk, -, rfl⟩ := Count.combinations_eq_ok_iff.mp hcount
      rw [combinations, hcount]
      show (if k = 0 then _ else _) = Except.ok (selections k (List.range n))
      by_cases hzero : k = 0
      · subst hzero
        rw [if_pos rfl, selections_zero]
      · have hdomain : 0 + k ≤ (Array.range n).size := by
          rwa [Array.size_range, Nat.zero_add]
        have hwrites := Worker.writes_choose? hdomain (Worker.HasFront.replicate k 0)
        simp only [Array.toList_range, List.drop_zero, List.nil_append, List.map_id'] at hwrites
        obtain ⟨worker, hrun, hitems⟩ := hwrites.run_blank
        rw [length_selections_range] at hrun
        rw [if_neg hzero, hrun]
        exact congrArg Except.ok hitems

theorem combinations_eq_ok {n k size : Nat} (h : Count.combinations n k = .ok size) :
    combinations n k = .ok (selections k (List.range n)) := by
  rw [combinations_eq_map, h]
  rfl

theorem mem_selections_range_iff {n k : Nat} {item : List Nat} :
    item ∈ selections k (List.range n) ↔
      item.length = k ∧ item.Pairwise (· < ·) ∧ ∀ i ∈ item, i < n := by
  rw [mem_selections_iff]
  constructor
  · rintro ⟨hlen, hsub⟩
    exact ⟨hlen, List.pairwise_lt_range.sublist hsub,
      fun i hi => List.mem_range.mp (hsub.subset hi)⟩
  · rintro ⟨hlen, hascend, hbound⟩
    have hpicked : item.Subperm (List.range n) :=
      List.subperm_of_subset hascend.nodup fun i hi => List.mem_range.mpr (hbound i hi)
    exact ⟨hlen, List.sublist_of_subperm_of_pairwise hpicked hascend List.pairwise_lt_range⟩

/-- A request whose count fits lists exactly the ascending selections of `k`
indices below `n`, lexicographically, in as many slots as were counted. -/
theorem combinations_exhaustive {n k : Nat} (hk : k ≤ n) (hsize : n.choose k ≤ capacity) :
    ∃ items, combinations n k = .ok items ∧
      (∀ item, item ∈ items ↔
        item.length = k ∧ item.Pairwise (· < ·) ∧ ∀ i ∈ item, i < n) ∧
      items.Pairwise (List.Lex (· < ·)) ∧
      items.length = n.choose k ∧
      Count.combinations n k = .ok items.length := by
  have hlength : (selections k (List.range n)).length = n.choose k :=
    length_selections_range n k
  have hcount : Count.combinations n k = .ok (n.choose k) :=
    Count.combinations_eq_ok_iff.mpr ⟨hk, hsize, rfl⟩
  exact ⟨selections k (List.range n), combinations_eq_ok hcount,
    fun item => mem_selections_range_iff, pairwise_lex_selections List.pairwise_lt_range, hlength,
    by rw [hlength, hcount]⟩

/-- The triples from five, and the middle of row 67, which still fits; that of
row 68 does not. -/
theorem combinations_exhaustive_sizes :
    (3 ≤ 5 ∧ Nat.choose 5 3 ≤ capacity ∧
      combinations 5 3 = .ok [[0, 1, 2], [0, 1, 3], [0, 1, 4], [0, 2, 3], [0, 2, 4], [0, 3, 4],
        [1, 2, 3], [1, 2, 4], [1, 3, 4], [2, 3, 4]] ∧
      ∀ item, item ∈ [[0, 1, 2], [0, 1, 3], [0, 1, 4], [0, 2, 3], [0, 2, 4], [0, 3, 4],
          [1, 2, 3], [1, 2, 4], [1, 3, 4], [2, 3, 4]] ↔
        item.length = 3 ∧ item.Pairwise (· < ·) ∧ ∀ i ∈ item, i < 5) ∧
    33 ≤ 67 ∧ Nat.choose 67 33 ≤ capacity ∧
      ∃ items, combinations 67 33 = .ok items ∧
        (∀ item, item ∈ items ↔
          item.length = 33 ∧ item.Pairwise (· < ·) ∧ ∀ i ∈ item, i < 67) ∧
        items.Pairwise (List.Lex (· < ·)) ∧
        items.length = 14226520737620288370 := by
  have htriples : 3 ≤ 5 := by decide
  have htriplesSize : Nat.choose 5 3 ≤ capacity := by decide
  have hlisting : combinations 5 3 = .ok [[0, 1, 2], [0, 1, 3], [0, 1, 4], [0, 2, 3], [0, 2, 4],
      [0, 3, 4], [1, 2, 3], [1, 2, 4], [1, 3, 4], [2, 3, 4]] := by decide +kernel
  obtain ⟨triples, htriplesOk, htriplesMem, -⟩ := combinations_exhaustive htriples htriplesSize
  obtain rfl := Except.ok.inj (hlisting.symm.trans htriplesOk)
  have hmiddle : Nat.choose 67 33 = 14226520737620288370 := by
    rw [Nat.choose_eq_descFactorial_div_factorial]
    decide
  have hk : 33 ≤ 67 := by decide
  have hsize : Nat.choose 67 33 ≤ capacity := by
    rw [hmiddle]
    decide
  obtain ⟨items, hok, hmem, hlex, hlength, -⟩ := combinations_exhaustive hk hsize
  exact ⟨⟨htriples, htriplesSize, hlisting, htriplesMem⟩,
    hk, hsize, items, hok, hmem, hlex, hlength.trans hmiddle⟩

end Choices
