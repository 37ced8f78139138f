/-
# The bitonic sort sorts, with and without threads

Every complete run of the tasks ends in the array of the sequential sort, and that array is
the sorted permutation of the input.
-/
import OSLabs.BitonicThreads

namespace BitonicSort

variable {arr arr' : Array ℤ} {low cnt : ℕ} {dir : ℤ}

/-! ## Threads do not change the result -/

/-- **Every complete run of a call of `bitonicSort`** ends in the sequential result, whatever
the reservations decide. -/
theorem data_eq_bitonicSort {policy : ℤ → ℕ → Bool → Prop} {active : ℤ}
    {es : List (Prog.Event Comparison ℕ)} {t : ForkJoin.Config Comparison ℕ (Array ℤ) ℤ}
    (h : Run (system policy).Step ⟨sortTask low cnt dir, arr, active⟩ es t)
    (hdone : t.prog = .skip) : t.data = bitonicSort arr low cnt dir := by
  rw [ForkJoin.data_eq_of_complete h sortTask_spec.1 hdone]
  exact sortTask_spec.2 arr

/-- The program's own policy always decides. -/
theorem budget_total (maxThreads : ℤ) : (system (budget maxThreads)).Total :=
  ⟨fun _ _ => ⟨_, _, rfl, rfl⟩, fun _ _ => ⟨_, rfl⟩⟩

/-- **Parallel execution equals sequential execution.**  For every array of length `2 ^ m`: every
complete run of the root call ends in the array of the sequential recursion, whatever the outcomes
of the reservations; under the program's own budget every run is finite and can be completed. -/
theorem parallel_sort_eq_sequential {m : ℕ} (hsize : arr.size = 2 ^ m) :
    (∀ policy es t, Run (system policy).Step (rootCall arr) es t → t.prog = .skip →
      t.data = bitonicSort arr 0 (2 ^ m) 1) ∧
    ∀ maxThreads es t, Run (system (budget maxThreads)).Step (rootCall arr) es t →
      es.length ≤ (sortTask 0 (2 ^ m) 1).weight ∧
      ∃ es' u, Run (system (budget maxThreads)).Step t es' u ∧ u.prog = .skip ∧
        u.data = bitonicSort arr 0 (2 ^ m) 1 := by
  rw [← hsize]
  refine ⟨fun policy es t h hdone => data_eq_bitonicSort h hdone, fun maxThreads es t h => ?_⟩
  have hlen := ForkJoin.length_le_weight h
  obtain ⟨es', u, hrun, hdone⟩ := (budget_total maxThreads).exists_complete t
  exact ⟨(Nat.le_add_right _ _).trans hlen, es', u, hrun, hdone,
    data_eq_bitonicSort (h.append hrun) hdone⟩

/-- Two elements out of order, with a budget of two threads. -/
theorem parallel_sort_eq_sequential_pair :
    ∃ es u, Run (system (budget 2)).Step (rootCall #[3, 1]) es u ∧ u.prog = .skip ∧
      u.data = bitonicSort #[3, 1] 0 2 1 :=
  ((@parallel_sort_eq_sequential #[3, 1] 1 rfl).2 2 [] _ (.nil _)).2

/-! ## The merge -/

/-- The array that a call of `bitonicMerge` leaves: that of the sequential recursion, or the one at
the end of a complete run with threads. -/
def MergeLeaves (arr : Array ℤ) (low cnt : ℕ) (dir : ℤ) (arr' : Array ℤ) : Prop :=
  arr' = bitonicMerge arr low cnt dir ∨
    ∃ policy active es t, Run (system policy).Step ⟨mergeTask low cnt dir, arr, active⟩ es t ∧
      t.prog = .skip ∧ t.data = arr'

theorem MergeLeaves.eq (h : MergeLeaves arr low cnt dir arr') :
    arr' = bitonicMerge arr low cnt dir := by
  rcases h with h | ⟨policy, active, es, t, hrun, hdone, rfl⟩
  · exact h
  · rw [ForkJoin.data_eq_of_complete hrun mergeTask_spec.1 hdone]
    exact mergeTask_spec.2 arr

/-- **`bitonicMerge` merges every bitonic range.**  Where some cyclic shift of the range ascends
and then descends, a call on it, with or without threads, permutes the range into the order of
`dir` and changes nothing else. -/
theorem bitonic_merge_merges (arr arr' : Array ℤ) (low m : ℕ) (dir : ℤ) (hdir : dir = 0 ∨ dir = 1)
    (hsize : low + 2 ^ m ≤ arr.size) (hbit : CyclicallyBitonic arr low (2 ^ m))
    (h : MergeLeaves arr low (2 ^ m) dir arr') :
    Rearranges arr arr' low (2 ^ m) ∧ SortedRange dir arr' low (2 ^ m) := by
  rw [h.eq]
  exact ⟨bitonicMerge_rearranges hsize, bitonicMerge_sorted hdir hsize hbit.bitonic⟩

/-- Four elements that descend, ascend and descend again, in descending order. -/
theorem bitonic_merge_merges_four :
    SortedRange 0 (bitonicMerge #[9, 2, 1, 3, 2, 0] 1 4 0) 1 4 :=
  (bitonic_merge_merges #[9, 2, 1, 3, 2, 0] _ 1 2 0 (Or.inl rfl) (by decide)
    ⟨1, [1, 3], [2, 2], by decide, by decide, by decide⟩ (Or.inl rfl)).2

/-! ## The result is sorted -/

/-- The array that a call of `bitonicSort` leaves: that of the sequential recursion, or the one at
the end of a complete run with threads. -/
def Leaves (arr : Array ℤ) (low cnt : ℕ) (dir : ℤ) (arr' : Array ℤ) : Prop :=
  arr' = bitonicSort arr low cnt dir ∨
    ∃ policy active es t, Run (system policy).Step ⟨sortTask low cnt dir, arr, active⟩ es t ∧
      t.prog = .skip ∧ t.data = arr'

theorem Leaves.eq (h : Leaves arr low cnt dir arr') : arr' = bitonicSort arr low cnt dir := by
  rcases h with h | ⟨policy, active, es, t, hrun, hdone, rfl⟩
  · exact h
  · exact data_eq_bitonicSort hrun hdone

/-- A length that passes the check of `main` is zero or a power of two. -/
theorem eq_two_pow_of_isPowerOfTwo {n : BitVec 32} (h : isPowerOfTwo n = true) :
    n.toNat = 0 ∨ ∃ m, n.toNat = 2 ^ m := by
  by_cases hzero : n.toNat = 0
  · exact Or.inl hzero
  · apply Or.inr
    have hand : n &&& (n - 1) = 0 := by simpa [isPowerOfTwo] using h
    have hlt := n.isLt
    have hsub : (n - 1).toNat = n.toNat - 1 := by
      have hone : (1 : BitVec 32).toNat = 1 := rfl
      rw [BitVec.toNat_sub, hone]
      omega
    have hnat : n.toNat &&& (n.toNat - 1) = 0 := by
      rw [← hsub, ← BitVec.toNat_and, hand]
      rfl
    exact (Nat.and_sub_one_eq_zero_iff_isPowerOfTwo hzero).mp hnat

/-- A range from the first to the last element that ascends is a sorted array. -/
theorem pairwise_of_sortedRange (h : SortedRange 1 arr 0 arr.size) :
    arr.toList.Pairwise (· ≤ ·) := by
  rw [List.pairwise_iff_getElem]
  intro i j hi hj hij
  have hi' : i < arr.size := by simpa using hi
  have hj' : j < arr.size := by simpa using hj
  have hle := h i j hij.le hj'
  simpa [Ordered, hi', hj'] using hle

/-- The final check of `make_calculations` accepts every ascending array. -/
theorem checkSorted_of_sortedRange {n : ℕ} (h : SortedRange 1 arr 0 n) :
    checkSorted arr n = .sortingSuccessful := by
  unfold checkSorted
  rw [if_neg]
  rw [List.any_eq_true]
  rintro ⟨i, hi, hlt⟩
  rw [List.mem_range'_1] at hi
  have hle := h (i - 1) i (Nat.sub_le i 1) (by omega)
  simp only [Ordered, if_true, Nat.zero_add] at hle
  exact absurd (of_decide_eq_true hlt) (not_lt.mpr hle)

/-- **A call of `bitonicSort` on the whole array** leaves its sorted permutation. -/
theorem sorts_of_isPowerOfTwo {n : BitVec 32} (hn : isPowerOfTwo n = true)
    (hsize : arr.size = n.toNat) :
    (bitonicSort arr 0 n.toNat 1).Perm arr ∧
      SortedRange 1 (bitonicSort arr 0 n.toNat 1) 0 (bitonicSort arr 0 n.toNat 1).size := by
  rcases eq_two_pow_of_isPowerOfTwo hn with hzero | ⟨m, hm⟩
  · have hsort : bitonicSort arr 0 n.toNat 1 = arr := by
      rw [hzero, bitonicSort]
      simp
    rw [hsort]
    refine ⟨Array.Perm.refl arr, fun x y _ hy => ?_⟩
    omega
  · have hle : 0 + 2 ^ m ≤ arr.size := by omega
    rw [hm]
    have hre : Rearranges arr (bitonicSort arr 0 (2 ^ m) 1) 0 (2 ^ m) :=
      bitonicSort_rearranges hle
    constructor
    · have hslice : ∀ a : Array ℤ, a.size = 2 ^ m → slice a 0 (2 ^ m) = a.toList := by
        intro a ha
        rw [← slice_size a, ha]
      have hperm := hre.perm
      rw [hslice arr (hsize.trans hm), hslice _ (hre.size_eq.trans (hsize.trans hm))] at hperm
      exact Array.perm_iff_toList_perm.mpr hperm
    · rw [hre.size_eq, hsize, hm]
      exact bitonicSort_sorted (Or.inr rfl) hle

/-- **`bitonicSort` sorts.**  For every length that passes the check of `main` and every array
of that length, a call on the whole array leaves its ascending permutation, which the final check
accepts; a call on any range of length `2 ^ m` permutes that range into the order of `dir` and
changes nothing else. -/
theorem bitonic_sort_sorts :
    (∀ n : BitVec 32, 0 ≤ n.toInt → isPowerOfTwo n = true → ∀ arr arr' : Array ℤ,
      arr.size = n.toNat → Leaves arr 0 n.toNat 1 arr' →
      arr'.Perm arr ∧ arr'.toList.Pairwise (· ≤ ·) ∧
        checkSorted arr' n.toNat = .sortingSuccessful) ∧
    (∀ n : BitVec 32, 0 ≤ n.toInt → isPowerOfTwo n = true → ∀ rand,
      makeCalculations n.toNat rand = .sortingSuccessful) ∧
    ∀ (arr arr' : Array ℤ) (m low : ℕ) (dir : ℤ), dir = 0 ∨ dir = 1 → low + 2 ^ m ≤ arr.size →
      Leaves arr low (2 ^ m) dir arr' →
      Rearranges arr arr' low (2 ^ m) ∧ SortedRange dir arr' low (2 ^ m) := by
  refine ⟨fun n _ hn arr arr' hsize h => ?_, fun n _ hn rand => ?_,
    fun arr arr' m low dir hdir hsize h => ?_⟩
  · obtain ⟨hperm, hsorted⟩ := sorts_of_isPowerOfTwo hn hsize
    have hsz : (bitonicSort arr 0 n.toNat 1).size = n.toNat := hperm.size_eq.trans hsize
    rw [h.eq]
    refine ⟨hperm, pairwise_of_sortedRange hsorted, checkSorted_of_sortedRange ?_⟩
    rw [hsz] at hsorted
    exact hsorted
  · have hsize : (randomArray n.toNat rand).size = n.toNat := by simp [randomArray]
    obtain ⟨hperm, hsorted⟩ := sorts_of_isPowerOfTwo hn hsize
    rw [hperm.size_eq.trans hsize] at hsorted
    exact checkSorted_of_sortedRange hsorted
  · rw [h.eq]
    exact ⟨bitonicSort_rearranges hsize, bitonicSort_sorted hdir hsize⟩

/-- Four elements, with the sequential call. -/
theorem bitonic_sort_sorts_four :
    (bitonicSort #[3, 1, 2, 1] 0 4 1).toList.Pairwise (· ≤ ·) :=
  (bitonic_sort_sorts.1 4 (by decide) (by decide) #[3, 1, 2, 1] _ rfl (Or.inl rfl)).2.1

end BitonicSort
