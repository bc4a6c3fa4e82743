/-
# `Choices.Proofs.Permutation.Arrangements` — what the exchanges enumerate

`arrangements k pool` is the listing as a plain recursion on the pool of
elements that are still free.  Each in turn is fixed as the last entry; the
last element of the pool moves to the place it leaves, and what is then free
is arranged in front of it.

`Worker.arrange?` writes exactly this, in this order, and gives the
workspace back (`Worker.writes_arrange?`).  The workspace is the pool
followed by the entries already fixed.  An exchange takes it to the smaller
pool followed by one entry more, and the same exchange takes it back.  So
the listing of a request is the list of arrangements of its indices whenever
its count is one (`permutations_eq_map`).

What the list holds is then a matter of lists.  It has as many entries as
the falling product says, each entry picks `k` places of the pool, every
such pick is an entry, and none comes twice when the pool has no repetition.
-/
import Mathlib.Data.List.Nodup
import Mathlib.Data.List.Perm.Basic
import Mathlib.Data.List.Perm.Subperm
import Choices.Permutation.Basic
import Choices.Proofs.Count
import Choices.Proofs.Worker

namespace Choices

variable {α : Type}

/-! ## The pool after a choice -/

/-- What is free after the element at place `i` is taken: the last element
moves there. -/
def vacate (pool : List α) (i : Nat) : List α :=
  match pool.getLast? with
  | none => []
  | some last => pool.dropLast.set i last

theorem vacate_concat (init : List α) (last : α) (i : Nat) :
    vacate (init ++ [last]) i = init.set i last := by
  simp [vacate]

/-- Whatever stands at place `i` is the last element of the pool or stands
before it. -/
theorem exists_concat_of_getElem? {pool : List α} {i : Nat} {a : α} (h : pool[i]? = some a) :
    ∃ init last, pool = init ++ [last] ∧
      (init[i]? = some a ∨ i = init.length ∧ last = a) := by
  rcases List.eq_nil_or_concat' pool with rfl | ⟨init, last, rfl⟩
  · exact absurd h (by simp)
  · refine ⟨init, last, rfl, ?_⟩
    have hlt : i < (init ++ [last]).length := (List.getElem?_eq_some_iff.mp h).1
    rw [List.length_append, List.length_singleton] at hlt
    by_cases hi : i < init.length
    · rw [List.getElem?_append_left hi] at h
      exact Or.inl h
    · have heq : i = init.length := by omega
      subst heq
      rw [List.getElem?_concat_length] at h
      exact Or.inr ⟨rfl, Option.some.inj h⟩

theorem length_vacate {pool : List α} {i : Nat} {a : α} (h : pool[i]? = some a) :
    (vacate pool i).length = pool.length - 1 := by
  obtain ⟨init, last, rfl, -⟩ := exists_concat_of_getElem? h
  simp [vacate_concat]

/-- Nothing is lost: what was taken and what is left are the pool. -/
theorem cons_vacate_perm {pool : List α} {i : Nat} {a : α} (h : pool[i]? = some a) :
    (a :: vacate pool i).Perm pool := by
  obtain ⟨init, last, rfl, hplace⟩ := exists_concat_of_getElem? h
  rw [vacate_concat]
  rcases hplace with hget | ⟨rfl, rfl⟩
  · obtain ⟨hi, rfl⟩ := List.getElem?_eq_some_iff.mp hget
    have hset := (List.set_perm_cons_eraseIdx hi last).cons init[i]
    have hswap := List.Perm.swap last init[i] (init.eraseIdx i)
    have hback := (List.getElem_cons_eraseIdx_perm hi).cons last
    exact hset.trans (hswap.trans (hback.trans (List.perm_append_singleton last init).symm))
  · rw [List.set_eq_of_length_le (Nat.le_refl _)]
    exact (List.perm_append_singleton last init).symm

/-! ## The list of arrangements -/

/-- The arrangements of `k` elements of a pool, in the order of listing. -/
def arrangements : (k : Nat) → (pool : List α) → List (List α)
  | 0, _ => [[]]
  | k + 1, pool => pool.zipIdx.flatMap fun (a, i) =>
    (arrangements k (vacate pool i)).map (· ++ [a])

theorem arrangements_zero (pool : List α) : arrangements 0 pool = [[]] := rfl

theorem arrangements_succ (k : Nat) (pool : List α) :
    arrangements (k + 1) pool = pool.zipIdx.flatMap fun (a, i) =>
      (arrangements k (vacate pool i)).map (· ++ [a]) := rfl

theorem length_arrangements : ∀ {k : Nat} {pool : List α},
    (arrangements k pool).length = pool.length.descFactorial k := by
  intro k
  induction k with
  | zero => intro pool; rfl
  | succ k ih =>
      intro pool
      have hpart : ∀ x ∈ pool.zipIdx,
          ((arrangements k (vacate pool x.2)).map (· ++ [x.1])).length
            = (pool.length - 1).descFactorial k := by
        intro x hx
        rw [List.length_map, ih, length_vacate (List.mem_zipIdx_iff_getElem?.mp hx)]
      rw [arrangements_succ, List.length_flatMap, List.map_congr_left hpart, List.map_const',
        List.sum_replicate_nat, List.length_zipIdx]
      cases hlen : pool.length with
      | zero => rw [Nat.zero_mul, Nat.zero_descFactorial_succ]
      | succ n => rw [Nat.add_sub_cancel, Nat.succ_descFactorial_succ]

theorem length_arrangements_range (n k : Nat) :
    (arrangements k (List.range n)).length = n.descFactorial k := by
  rw [length_arrangements, List.length_range]

/-- The arrangements of `k + 1` elements whose last entry stands at place
`i`. -/
def arrangementsAt (k : Nat) (pool : List α) (i : Nat) : List (List α) :=
  match pool[i]? with
  | none => []
  | some a => (arrangements k (vacate pool i)).map (· ++ [a])

theorem arrangementsAt_of_getElem? {k i : Nat} {pool : List α} {a : α} (h : pool[i]? = some a) :
    arrangementsAt k pool i = (arrangements k (vacate pool i)).map (· ++ [a]) := by
  rw [arrangementsAt, h]

theorem length_arrangementsAt {k i : Nat} {pool : List α} (hi : i < pool.length) :
    (arrangementsAt k pool i).length = (pool.length - 1).descFactorial k := by
  have hget : pool[i]? = some pool[i] := List.getElem?_eq_getElem hi
  rw [arrangementsAt_of_getElem? hget, List.length_map, length_arrangements, length_vacate hget]

/-- The parts follow each other in the order of the places. -/
theorem arrangements_succ_eq_flatMap (k : Nat) (pool : List α) :
    arrangements (k + 1) pool = (List.range pool.length).flatMap (arrangementsAt k pool) := by
  have hpart : ∀ x ∈ pool.zipIdx, (arrangements k (vacate pool x.2)).map (· ++ [x.1])
      = (arrangementsAt k pool ∘ Prod.snd) x := by
    intro x hx
    exact (arrangementsAt_of_getElem? (List.mem_zipIdx_iff_getElem?.mp hx)).symm
  rw [arrangements_succ, List.flatMap_def, List.map_congr_left hpart, ← List.map_map,
    List.zipIdx_map_snd, ← List.range_eq_range', ← List.flatMap_def]

theorem mem_arrangements_succ {k : Nat} {pool item : List α} :
    item ∈ arrangements (k + 1) pool ↔
      ∃ a i, pool[i]? = some a ∧ ∃ front ∈ arrangements k (vacate pool i), item = front ++ [a] := by
  simp only [arrangements_succ, List.mem_flatMap, Prod.exists, List.mk_mem_zipIdx_iff_getElem?,
    List.mem_map, eq_comm]

/-- An arrangement picks `k` places of the pool, and every pick of `k`
places in any order is an arrangement. -/
theorem mem_arrangements_iff : ∀ {k : Nat} {pool item : List α},
    item ∈ arrangements k pool ↔ item.length = k ∧ item.Subperm pool := by
  intro k
  induction k with
  | zero =>
      intro pool item
      rw [arrangements_zero, List.mem_singleton]
      constructor
      · rintro rfl
        exact ⟨rfl, List.nil_subperm⟩
      · rintro ⟨h, -⟩
        exact List.length_eq_zero_iff.mp h
  | succ k ih =>
      intro pool item
      rw [mem_arrangements_succ]
      constructor
      · rintro ⟨a, i, hget, front, hfront, rfl⟩
        obtain ⟨hlen, hsub⟩ := ih.mp hfront
        refine ⟨by rw [List.length_append, hlen, List.length_singleton], ?_⟩
        have hcons : (a :: front).Subperm (a :: vacate pool i) := (List.subperm_cons a).mpr hsub
        have hpool : (a :: front).Subperm pool := hcons.trans (cons_vacate_perm hget).subperm
        exact (List.perm_append_singleton a front).subperm.trans hpool
      · rintro ⟨hlen, hsub⟩
        -- the last entry is some element of the pool, and the rest is left of it
        rcases List.eq_nil_or_concat' item with rfl | ⟨front, a, rfl⟩
        · exact absurd hlen (Nat.succ_ne_zero k).symm
        · have ha : a ∈ pool := hsub.subset (List.mem_append_right front List.mem_cons_self)
          obtain ⟨i, hget⟩ := List.mem_iff_getElem?.mp ha
          rw [List.length_append, List.length_singleton] at hlen
          have hcons : (a :: front).Subperm (a :: vacate pool i) :=
            ((List.perm_append_singleton a front).symm.subperm.trans hsub).trans
              (cons_vacate_perm hget).symm.subperm
          exact ⟨a, i, hget, front,
            ih.mpr ⟨Nat.succ.inj hlen, (List.subperm_cons a).mp hcons⟩, rfl⟩

theorem nodup_arrangements : ∀ {k : Nat} {pool : List α}, pool.Nodup →
    (arrangements k pool).Nodup := by
  intro k
  induction k with
  | zero => intro _ _; exact List.nodup_singleton []
  | succ k ih =>
      intro pool hpool
      rw [arrangements_succ, List.nodup_flatMap]
      constructor
      · rintro ⟨a, i⟩ hx
        have hget : pool[i]? = some a := List.mk_mem_zipIdx_iff_getElem?.mp hx
        have hrest : (vacate pool i).Nodup :=
          ((cons_vacate_perm hget).nodup_iff.mpr hpool).of_cons
        exact (ih hrest).map (List.append_left_injective [a])
      · -- two parts differ in the last entry of all their arrangements
        have hfst : pool.zipIdx.Pairwise fun x y => x.1 ≠ y.1 := by
          rw [← List.pairwise_map, List.zipIdx_map_fst]
          exact hpool
        refine hfst.imp fun {x y} hne item hx hy => ?_
        obtain ⟨front, -, rfl⟩ := List.mem_map.mp hx
        obtain ⟨front', -, heq⟩ := List.mem_map.mp hy
        exact hne (List.append_inj_right' heq rfl |> List.cons.inj |>.1).symm

/-! ## The workspace

The workspace is the pool and, behind it, the entries already fixed. -/

namespace Worker

/-- Both places of an exchange are in the workspace. -/
theorem lt_size_toArray_append {pool : List α} {i : Nat} {a : α} (h : pool[i]? = some a)
    (tail : List α) :
    i < (pool ++ tail).toArray.size ∧ pool.length - 1 < (pool ++ tail).toArray.size := by
  have hi : i < pool.length := (List.getElem?_eq_some_iff.mp h).1
  rw [List.size_toArray, List.length_append]
  omega

theorem swap_toArray_append {pool tail : List α} {i : Nat} {a : α} (h : pool[i]? = some a)
    (hi : i < (pool ++ tail).toArray.size)
    (hlast : pool.length - 1 < (pool ++ tail).toArray.size) :
    (pool ++ tail).toArray.swap i (pool.length - 1) hi hlast
      = (vacate pool i ++ a :: tail).toArray := by
  obtain ⟨init, last, rfl, hplace⟩ := exists_concat_of_getElem? h
  have hlen : (init ++ [last]).length - 1 = init.length := by simp
  simp only [List.swap_toArray, hlen, vacate_concat, List.append_assoc, List.singleton_append]
  refine congrArg List.toArray ?_
  have hend : ∀ _ : init.length < (init ++ last :: tail).length,
      (init ++ last :: tail)[init.length] = last := by simp
  rw [hend]
  rcases hplace with hget | ⟨rfl, rfl⟩
  · obtain ⟨hinit, rfl⟩ := List.getElem?_eq_some_iff.mp hget
    rw [List.getElem_append_left hinit, List.set_append_left _ _ hinit,
      List.set_append_right _ _ (by simp)]
    simp
  · -- the last element is exchanged with itself
    rw [hend, List.set_eq_of_length_le (Nat.le_refl init.length)]
    simp

/-- Fixing the element at place `i` takes it out of the pool. -/
theorem writes_fix {pool : List α} {i : Nat} {a : α} (h : pool[i]? = some a) (tail : List α) :
    Writes (·.swap? i (pool.length - 1)) (pool ++ tail).toArray []
      (vacate pool i ++ a :: tail).toArray := by
  obtain ⟨hi, hlast⟩ := lt_size_toArray_append h tail
  rw [← swap_toArray_append h hi hlast]
  exact writes_swap? _ hi hlast

/-- The same exchange once more puts it back. -/
theorem writes_unfix {pool : List α} {i : Nat} {a : α} (h : pool[i]? = some a) (tail : List α) :
    Writes (·.swap? i (pool.length - 1)) (vacate pool i ++ a :: tail).toArray []
      (pool ++ tail).toArray := by
  obtain ⟨hi, hlast⟩ := lt_size_toArray_append h tail
  have hback := writes_swap? ((pool ++ tail).toArray.swap i (pool.length - 1) hi hlast)
    (show i < _ by rwa [Array.size_swap]) (show pool.length - 1 < _ by rwa [Array.size_swap])
  rw [Array.swap_swap] at hback
  rwa [swap_toArray_append h hi hlast] at hback

theorem arrange?_succ (k last : Nat) (worker : Worker α) :
    arrange? (k + 1) (last + 1) worker = (List.range (last + 1)).foldlM (fun worker i =>
      (worker.swap? i last).bind fun worker =>
        (arrange? k last worker).bind (·.swap? i last)) worker := by
  simp only [arrange?]
  rfl

/-- Induction on the number of picks.  Each round of the loop finds the
workspace as it was, which is what lets the next round start from it. -/
theorem writes_arrange? : ∀ {k : Nat} (pool tail : List α), k ≤ pool.length →
    Writes (arrange? k pool.length) (pool ++ tail).toArray
      ((arrangements k pool).map (· ++ tail)) (pool ++ tail).toArray := by
  intro k
  induction k with
  | zero =>
      intro pool tail _
      have hemit := writes_emit? (pool ++ tail).toArray
        (show pool.length ≤ (pool ++ tail).toArray.size by simp)
      have hrest : ((pool ++ tail).toArray.extract pool.length).toList = tail := by simp
      rw [hrest] at hemit
      rw [funext (arrange?_zero pool.length), arrangements_zero]
      exact hemit
  | succ k ih =>
      intro pool tail hk
      obtain ⟨last, hlast⟩ : ∃ last, pool.length = last + 1 :=
        Nat.exists_eq_add_one.mpr (Nat.lt_of_lt_of_le (Nat.succ_pos k) hk)
      have hround : ∀ i ∈ List.range (last + 1), ∀ work, work = (pool ++ tail).toArray →
          ∃ work', work' = (pool ++ tail).toArray ∧
            Writes (fun worker => (worker.swap? i last).bind fun worker =>
                (arrange? k last worker).bind (·.swap? i last)) work
              ((arrangementsAt k pool i).map (· ++ tail)) work' := by
        rintro i hi work rfl
        have hi' : i < pool.length := hlast ▸ List.mem_range.mp hi
        have hget : pool[i]? = some pool[i] := List.getElem?_eq_getElem hi'
        have hfree : (vacate pool i).length = last := by
          rw [length_vacate hget, hlast, Nat.add_sub_cancel]
        have hfix := writes_fix hget tail
        have hunfix := writes_unfix hget tail
        have hrest := ih (vacate pool i) (pool[i] :: tail) (by omega)
        rw [hfree] at hrest
        rw [hlast, Nat.add_sub_cancel] at hfix hunfix
        refine ⟨_, rfl, ?_⟩
        rw [arrangementsAt_of_getElem? hget]
        simpa [Function.comp_def] using hfix.bind (hrest.bind hunfix)
      obtain ⟨work', rfl, hloop⟩ := writes_foldlM hround _ rfl
      intro region
      rw [arrangements_succ_eq_flatMap, hlast, List.map_flatMap, arrange?_succ]
      exact hloop region

end Worker

/-! ## The listing of a request -/

/-- A counted request is answered by the arrangements of its indices, any
other one by the fault of its count. -/
theorem permutations_eq_map (n k : Nat) :
    permutations n k = (Count.permutations n k).map fun _ => arrangements k (List.range n) := by
  cases hcount : Count.permutations n k with
  | error fault => exact permutations_eq_error hcount
  | ok size =>
      obtain ⟨hk, -, rfl⟩ := Count.permutations_eq_ok_iff.mp hcount
      rw [permutations, hcount]
      show (if k = 0 then _ else _) = Except.ok (arrangements k (List.range n))
      by_cases hzero : k = 0
      · subst hzero
        rfl
      · have hfree : k ≤ (List.range n).length := by rwa [List.length_range]
        have hwrites := Worker.writes_arrange? (List.range n) [] hfree
        simp only [List.length_range, List.append_nil, List.map_id', List.toArray_range] at hwrites
        obtain ⟨worker, hrun, hitems⟩ := hwrites.run_blank
        rw [length_arrangements_range] at hrun
        rw [if_neg hzero, hrun]
        exact congrArg Except.ok hitems

theorem permutations_eq_ok {n k size : Nat} (h : Count.permutations n k = .ok size) :
    permutations n k = .ok (arrangements k (List.range n)) := by
  rw [permutations_eq_map, h]
  rfl

theorem mem_arrangements_range_iff {n k : Nat} {item : List Nat} :
    item ∈ arrangements k (List.range n) ↔
      item.length = k ∧ item.Nodup ∧ ∀ i ∈ item, i < n := by
  rw [mem_arrangements_iff]
  constructor
  · rintro ⟨hlen, hsub⟩
    obtain ⟨picked, hperm, hpicked⟩ := hsub
    have hnodup : picked.Nodup := hpicked.nodup List.nodup_range
    refine ⟨hlen, hperm.nodup_iff.mp hnodup, fun i hi => ?_⟩
    exact List.mem_range.mp (hpicked.subset (hperm.mem_iff.mpr hi))
  · rintro ⟨hlen, hnodup, hbound⟩
    exact ⟨hlen, hnodup.subperm fun i hi => List.mem_range.mpr (hbound i hi)⟩

/-- A request whose count fits lists every ordered arrangement of `k` distinct
indices below `n`, each once, in as many slots as were counted. -/
theorem permutations_exhaustive {n k : Nat} (hk : k ≤ n)
    (hsize : n.factorial / (n - k).factorial ≤ capacity) :
    ∃ items, permutations n k = .ok items ∧
      items.length = n.factorial / (n - k).factorial ∧
      Count.permutations n k = .ok items.length ∧
      items.Nodup ∧
      (∀ item, item ∈ items ↔ item.length = k ∧ item.Nodup ∧ ∀ i ∈ item, i < n) ∧
      (0 < k → [] ∉ items) := by
  rw [← Nat.descFactorial_eq_div hk] at hsize ⊢
  have hlength : (arrangements k (List.range n)).length = n.descFactorial k :=
    length_arrangements_range n k
  have hcount : Count.permutations n k = .ok (n.descFactorial k) :=
    Count.permutations_eq_ok_iff.mpr ⟨hk, hsize, rfl⟩
  refine ⟨arrangements k (List.range n), permutations_eq_ok hcount, hlength,
    by rw [hlength, hcount], nodup_arrangements List.nodup_range,
    fun item => mem_arrangements_range_iff, fun hpos hmem => ?_⟩
  have hnil : ([] : List Nat).length = k := (mem_arrangements_range_iff.mp hmem).1
  exact absurd hnil (Nat.ne_of_lt hpos)

/-- The pairs from four, and all of 20, the most that can be arranged: 21! is
past the capacity. -/
theorem permutations_exhaustive_sizes :
    (2 ≤ 4 ∧ Nat.factorial 4 / Nat.factorial (4 - 2) ≤ capacity ∧
      permutations 4 2 = .ok [[3, 0], [1, 0], [2, 0], [0, 1], [3, 1], [2, 1], [0, 2], [1, 2],
        [3, 2], [0, 3], [1, 3], [2, 3]] ∧
      ∀ item, item ∈ [[3, 0], [1, 0], [2, 0], [0, 1], [3, 1], [2, 1], [0, 2], [1, 2],
          [3, 2], [0, 3], [1, 3], [2, 3]] ↔
        item.length = 2 ∧ item.Nodup ∧ ∀ i ∈ item, i < 4) ∧
    20 ≤ 20 ∧ Nat.factorial 20 / Nat.factorial (20 - 20) ≤ capacity ∧
      ∃ items, permutations 20 20 = .ok items ∧
        items.length = 2432902008176640000 ∧
        items.Nodup ∧
        ∀ item, item ∈ items ↔ item.length = 20 ∧ item.Nodup ∧ ∀ i ∈ item, i < 20 := by
  have hpairs : 2 ≤ 4 := by decide
  have hpairsSize : Nat.factorial 4 / Nat.factorial (4 - 2) ≤ capacity := by decide
  have hlisting : permutations 4 2 = .ok [[3, 0], [1, 0], [2, 0], [0, 1], [3, 1], [2, 1], [0, 2],
      [1, 2], [3, 2], [0, 3], [1, 3], [2, 3]] := by decide +kernel
  obtain ⟨pairs, hpairsOk, -, -, -, hpairsMem, -⟩ := permutations_exhaustive hpairs hpairsSize
  obtain rfl := Except.ok.inj (hlisting.symm.trans hpairsOk)
  have hk : 20 ≤ 20 := Nat.le_refl 20
  have hsize : Nat.factorial 20 / Nat.factorial (20 - 20) ≤ capacity := by decide
  obtain ⟨items, hok, hlength, -, hnodup, hmem, -⟩ := permutations_exhaustive hk hsize
  exact ⟨⟨hpairs, hpairsSize, hlisting, hpairsMem⟩,
    hk, hsize, items, hok, hlength.trans (by decide), hnodup, hmem⟩

end Choices
