/-
# The bitonic sort with threads

The calls of `Labs/Lab2/src/main.cpp` as fork-join programs: `compareAndSwap` is the atomic
action, and the sections under `thread_count_mutex` reserve and release threads.  A policy
says which outcomes a reservation may have; the program's own one compares with
`max_threads`.  The threads work on disjoint ranges, so every run ends in the array of the
sequential sort.
-/
import OSLabs.ForkJoin
import OSLabs.BitonicOrder

namespace BitonicSort

/-! ## The programs -/

/-- A call of `compareAndSwap`. -/
structure Comparison where
  i : ℕ
  j : ℕ
  dir : ℤ

/-- What the call does to the array. -/
def Comparison.exec (a : Comparison) (arr : Array ℤ) : Array ℤ := compareAndSwap arr a.i a.j a.dir

/-- A program of comparisons; its locked sections are known by the number of threads that they
reserve (`test`) or release (`lock`). -/
abbrev Task := Prog Comparison ℕ

/-- The `for` loop of `bitonicMerge`. -/
def halvesTask (low k : ℕ) (dir : ℤ) : Task :=
  Prog.block ((List.range' low k).map fun i => .act ⟨i, i + k, dir⟩)

/-- `bitonicMerge`. -/
def mergeTask (low cnt : ℕ) (dir : ℤ) : Task :=
  if cnt > 1 then
    let k := cnt / 2
    let left := mergeTask low k dir
    let right := mergeTask (low + k) k dir
    .seq (halvesTask low k dir)
      (if k < 1024 then .seq left right
      else .test 1 (.seq (.spawn left right) (.lock 1)) (.seq left right))
  else .skip
termination_by cnt
decreasing_by all_goals omega

/-- `bitonicSort`. -/
def sortTask (low cnt : ℕ) (dir : ℤ) : Task :=
  if cnt > 1 then
    let k := cnt / 2
    let left := sortTask low k 1
    let right := sortTask (low + k) k 0
    .seq (.test 2 (.seq (.spawn left (.spawn right .skip)) (.lock 2)) (.seq left right))
      (mergeTask low cnt dir)
  else .skip
termination_by cnt
decreasing_by all_goals omega

/-- The tasks over the array and `active_threads`, with the given policy for reservations. -/
def system (policy : ℤ → ℕ → Bool → Prop) : ForkJoin Comparison ℕ (Array ℤ) ℤ where
  exec := Comparison.exec
  test r o active active' := policy active r o ∧ active' = if o then active + r else active
  lock r active active' := active' = active - r

/-- The policy of the program: `active_threads + r <= max_threads`. -/
def budget (maxThreads : ℤ) : ℤ → ℕ → Bool → Prop :=
  fun active r o => o = decide (active + r ≤ maxThreads)

/-- The call of `bitonicSort` in `make_calculations`. -/
def rootCall (arr : Array ℤ) : ForkJoin.Config Comparison ℕ (Array ℤ) ℤ :=
  ⟨sortTask 0 arr.size 1, arr, 0⟩

/-! ## Comparisons of disjoint ranges commute -/

section Commute

variable {arr : Array ℤ} {i j x : ℕ} {dir : ℤ}

/-- A comparison does not touch any other element, in or out of the array. -/
theorem getElem!_compareAndSwap_of_ne (hi : x ≠ i) (hj : x ≠ j) :
    (compareAndSwap arr i j dir)[x]! = arr[x]! := by
  rcases compareAndSwap_eq_or arr i j dir with h | h
  · rw [h]
  · rw [h]
    by_cases hin : i < arr.size ∧ j < arr.size
    · rw [getElem!_swapIfInBounds hin.1 hin.2, Equiv.swap_apply_of_ne_of_ne hi hj]
    · rw [swapIfInBounds_of_not_lt hin]

/-- A comparison reads its two elements only. -/
theorem getElem!_compareAndSwap_congr {arr' : Array ℤ} (hsize : arr'.size = arr.size)
    (hi : arr'[i]! = arr[i]!) (hj : arr'[j]! = arr[j]!) (hx : arr'[x]! = arr[x]!) :
    (compareAndSwap arr' i j dir)[x]! = (compareAndSwap arr i j dir)[x]! := by
  unfold compareAndSwap
  rw [hi, hj]
  by_cases hswap : dir = if arr[i]! > arr[j]! then 1 else 0
  · rw [if_pos hswap, if_pos hswap]
    by_cases hin : i < arr.size ∧ j < arr.size
    · rw [getElem!_swapIfInBounds hin.1 hin.2,
        getElem!_swapIfInBounds (by omega) (by omega), Equiv.swap_apply_def]
      split_ifs <;> assumption
    · rw [swapIfInBounds_of_not_lt hin, swapIfInBounds_of_not_lt (by omega), hx]
  · rw [if_neg hswap, if_neg hswap, hx]

/-- Arrays of one size with the same elements are equal. -/
theorem eq_of_getElem! {a b : Array ℤ} (hsize : a.size = b.size) (h : ∀ x : ℕ, a[x]! = b[x]!) :
    a = b := by
  apply Array.ext hsize
  intro x h₁ h₂
  rw [← getElem!_pos a x h₁, ← getElem!_pos b x h₂, h]

/-- **Comparisons of different elements commute.** -/
theorem compareAndSwap_comm {i' j' : ℕ} {dir' : ℤ} (hii : i ≠ i') (hij : i ≠ j') (hji : j ≠ i')
    (hjj : j ≠ j') :
    compareAndSwap (compareAndSwap arr i' j' dir') i j dir
      = compareAndSwap (compareAndSwap arr i j dir) i' j' dir' := by
  apply eq_of_getElem! (by simp)
  intro x
  have hkeep : ∀ y, y = i ∨ y = j → (compareAndSwap arr i' j' dir')[y]! = arr[y]! := by
    rintro y (rfl | rfl)
    · exact getElem!_compareAndSwap_of_ne hii hij
    · exact getElem!_compareAndSwap_of_ne hji hjj
  have hkeep' : ∀ y, y = i' ∨ y = j' → (compareAndSwap arr i j dir)[y]! = arr[y]! := by
    rintro y (rfl | rfl)
    · exact getElem!_compareAndSwap_of_ne hii.symm hji.symm
    · exact getElem!_compareAndSwap_of_ne hij.symm hjj.symm
  by_cases hx : x = i ∨ x = j
  · rw [getElem!_compareAndSwap_congr (by simp) (hkeep i (Or.inl rfl)) (hkeep j (Or.inr rfl))
      (hkeep x hx)]
    rcases hx with rfl | rfl
    · rw [getElem!_compareAndSwap_of_ne hii hij]
    · rw [getElem!_compareAndSwap_of_ne hji hjj]
  · rw [not_or] at hx
    rw [getElem!_compareAndSwap_of_ne hx.1 hx.2]
    by_cases hx' : x = i' ∨ x = j'
    · rw [getElem!_compareAndSwap_congr (by simp) (hkeep' i' (Or.inl rfl))
        (hkeep' j' (Or.inr rfl)) (hkeep' x hx')]
    · rw [not_or] at hx'
      rw [getElem!_compareAndSwap_of_ne hx'.1 hx'.2, getElem!_compareAndSwap_of_ne hx'.1 hx'.2,
        getElem!_compareAndSwap_of_ne hx.1 hx.2]

end Commute

/-! ## Every task stays in its range -/

/-- The comparisons of the task have both indices in `[lo, hi)`. -/
def StaysIn (lo hi : ℕ) (p : Task) : Prop :=
  ∀ a, p.Uses a → (lo ≤ a.i ∧ a.i < hi) ∧ lo ≤ a.j ∧ a.j < hi

section StaysIn

variable {lo mid hi low cnt k : ℕ} {dir : ℤ} {p q : Task}

theorem StaysIn.mono {lo' hi' : ℕ} (h : StaysIn lo hi p) (hlo : lo' ≤ lo) (hhi : hi ≤ hi') :
    StaysIn lo' hi' p := fun a ha => by
  have := h a ha
  omega

theorem StaysIn.seq (hp : StaysIn lo hi p) (hq : StaysIn lo hi q) : StaysIn lo hi (.seq p q) :=
  fun a ha => ha.elim (hp a) (hq a)

theorem StaysIn.spawn (hp : StaysIn lo hi p) (hq : StaysIn lo hi q) :
    StaysIn lo hi (.spawn p q) :=
  fun a ha => ha.elim (hp a) (hq a)

theorem StaysIn.test {r : ℕ} (hp : StaysIn lo hi p) (hq : StaysIn lo hi q) :
    StaysIn lo hi (.test r p q) :=
  fun a ha => ha.elim (hp a) (hq a)

theorem staysIn_skip : StaysIn lo hi .skip := fun _ ha => ha.elim

theorem staysIn_lock {r : ℕ} : StaysIn lo hi (.lock r) := fun _ ha => ha.elim

/-- Tasks on ranges that do not meet are independent. -/
theorem StaysIn.independent (hp : StaysIn lo mid p) (hq : StaysIn mid hi q) :
    Prog.Independent Comparison.exec p q := by
  intro a b ha hb arr
  have h₁ := hp a ha
  have h₂ := hq b hb
  exact compareAndSwap_comm (by omega) (by omega) (by omega) (by omega)

theorem staysIn_halvesTask : StaysIn low (low + (k + k)) (halvesTask low k dir) := by
  intro a ha
  obtain ⟨p, hp, hpa⟩ := Prog.uses_block.mp ha
  obtain ⟨i, hi, rfl⟩ := List.mem_map.mp hp
  rw [List.mem_range'_1] at hi
  obtain rfl : a = ⟨i, i + k, dir⟩ := hpa
  show (low ≤ i ∧ i < low + (k + k)) ∧ low ≤ i + k ∧ i + k < low + (k + k)
  omega

theorem staysIn_mergeTask : StaysIn low (low + cnt) (mergeTask low cnt dir) := by
  induction cnt using Nat.strong_induction_on generalizing low with
  | _ cnt ih =>
      rw [mergeTask]
      split_ifs with hcnt
      · have hleft : StaysIn low (low + cnt) (mergeTask low (cnt / 2) dir) :=
          (ih (cnt / 2) (by omega)).mono le_rfl (by omega)
        have hright : StaysIn low (low + cnt) (mergeTask (low + cnt / 2) (cnt / 2) dir) :=
          (ih (cnt / 2) (by omega)).mono (by omega) (by omega)
        apply (staysIn_halvesTask.mono le_rfl (by omega)).seq
        split_ifs
        · exact hleft.seq hright
        · exact ((hleft.spawn hright).seq staysIn_lock).test (hleft.seq hright)
      · exact staysIn_skip

theorem staysIn_sortTask : StaysIn low (low + cnt) (sortTask low cnt dir) := by
  induction cnt using Nat.strong_induction_on generalizing low dir with
  | _ cnt ih =>
      rw [sortTask]
      split_ifs with hcnt
      · have hleft : StaysIn low (low + cnt) (sortTask low (cnt / 2) 1) :=
          (ih (cnt / 2) (by omega)).mono le_rfl (by omega)
        have hright : StaysIn low (low + cnt) (sortTask (low + cnt / 2) (cnt / 2) 0) :=
          (ih (cnt / 2) (by omega)).mono (by omega) (by omega)
        refine StaysIn.seq (StaysIn.test ?_ (hleft.seq hright)) staysIn_mergeTask
        exact (hleft.spawn (hright.spawn staysIn_skip)).seq staysIn_lock
      · exact staysIn_skip

end StaysIn

/-! ## The tasks compute the sequential functions -/

section Eval

variable {low cnt k : ℕ} {dir : ℤ} (arr : Array ℤ)

theorem eval_halvesTask :
    (halvesTask low k dir).eval Comparison.exec arr = compareHalves arr low k dir k := by
  unfold halvesTask compareHalves
  rw [Prog.eval_block, List.foldl_map]
  rfl

theorem safe_halvesTask : (halvesTask low k dir).Safe Comparison.exec := by
  apply Prog.safe_block
  intro p hp
  obtain ⟨i, -, rfl⟩ := List.mem_map.mp hp
  trivial

/-- **The task of `bitonicMerge` is safe and computes `bitonicMerge`.** -/
theorem mergeTask_spec :
    (mergeTask low cnt dir).Safe Comparison.exec ∧
      ∀ arr, (mergeTask low cnt dir).eval Comparison.exec arr = bitonicMerge arr low cnt dir := by
  induction cnt using Nat.strong_induction_on generalizing low with
  | _ cnt ih =>
      by_cases hcnt : cnt > 1
      · have hhalf : cnt / 2 < cnt := by omega
        obtain ⟨hleft, hevall⟩ := @ih (cnt / 2) hhalf low
        obtain ⟨hright, hevalr⟩ := @ih (cnt / 2) hhalf (low + cnt / 2)
        have hindep : Prog.Independent Comparison.exec (mergeTask low (cnt / 2) dir)
            (mergeTask (low + cnt / 2) (cnt / 2) dir) :=
          staysIn_mergeTask.independent staysIn_mergeTask
        have hunfold : ∀ arr, bitonicMerge arr low cnt dir =
            bitonicMerge (bitonicMerge (compareHalves arr low (cnt / 2) dir (cnt / 2)) low (cnt / 2)
              dir) (low + cnt / 2) (cnt / 2) dir := fun arr => by
          rw [bitonicMerge, if_pos hcnt]
        rw [mergeTask, if_pos hcnt]
        constructor
        · refine ⟨safe_halvesTask, ?_⟩
          split_ifs
          · exact ⟨hleft, hright⟩
          · exact ⟨⟨⟨hleft, hright, hindep⟩, trivial⟩, ⟨hleft, hright⟩, fun _ => rfl⟩
        · intro arr
          rw [hunfold]
          by_cases hk : cnt / 2 < 1024
          · simp only [hk, if_true, Prog.eval, eval_halvesTask, hevall, hevalr]
          · simp only [hk, if_false, Prog.eval, eval_halvesTask, hevall, hevalr]
      · rw [mergeTask, if_neg hcnt]
        refine ⟨trivial, fun arr => ?_⟩
        rw [bitonicMerge, if_neg hcnt]
        rfl

/-- **The task of `bitonicSort` is safe and computes `bitonicSort`.** -/
theorem sortTask_spec :
    (sortTask low cnt dir).Safe Comparison.exec ∧
      ∀ arr, (sortTask low cnt dir).eval Comparison.exec arr = bitonicSort arr low cnt dir := by
  induction cnt using Nat.strong_induction_on generalizing low dir with
  | _ cnt ih =>
      by_cases hcnt : cnt > 1
      · have hhalf : cnt / 2 < cnt := by omega
        obtain ⟨hleft, hevall⟩ := @ih (cnt / 2) hhalf low 1
        obtain ⟨hright, hevalr⟩ := @ih (cnt / 2) hhalf (low + cnt / 2) 0
        have hindep : Prog.Independent Comparison.exec (sortTask low (cnt / 2) 1)
            (.spawn (sortTask (low + cnt / 2) (cnt / 2) 0) .skip) :=
          staysIn_sortTask.independent (staysIn_sortTask.spawn staysIn_skip)
        have hskip : Prog.Independent Comparison.exec (sortTask (low + cnt / 2) (cnt / 2) 0)
            .skip := fun _ _ _ hb => hb.elim
        have hunfold : ∀ arr, bitonicSort arr low cnt dir =
            bitonicMerge (bitonicSort (bitonicSort arr low (cnt / 2) 1) (low + cnt / 2) (cnt / 2) 0)
              low cnt dir := fun arr => by
          rw [bitonicSort, if_pos hcnt]
        rw [sortTask, if_pos hcnt]
        constructor
        · exact ⟨⟨⟨⟨hleft, ⟨hright, trivial, hskip⟩, hindep⟩, trivial⟩, ⟨hleft, hright⟩,
            fun _ => rfl⟩, mergeTask_spec.1⟩
        · intro arr
          rw [hunfold]
          simp only [Prog.eval, hevall, hevalr, mergeTask_spec.2]
      · rw [sortTask, if_neg hcnt]
        refine ⟨trivial, fun arr => ?_⟩
        rw [bitonicSort, if_neg hcnt]
        rfl

end Eval

end BitonicSort
