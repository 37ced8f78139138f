/-
# What the compare-and-swap steps do to the array

`Rearranges arr arr' low cnt` says that `arr'` has the elements of `arr`, with those of
the range `[low, low + cnt)` permuted.  One loop of `bitonicMerge` puts the smaller (or
the larger) of every two elements into the first half of its range.
-/
import OSLabs.ArcPattern
import OSLabs.BitonicSort

namespace BitonicSort

variable {arr arr' arr'' : Array ℤ} {low cnt k i j : ℕ} {dir : ℤ}

/-! ## Swapping two elements -/

theorem getElem!_swapIfInBounds (hi : i < arr.size) (hj : j < arr.size) (x : ℕ) :
    (arr.swapIfInBounds i j)[x]! = arr[Equiv.swap i j x]! := by
  by_cases hx : x < arr.size
  · rw [getElem!_pos _ x (by simpa using hx), Array.getElem_swapIfInBounds]
    rcases eq_or_ne x i with rfl | hxi
    · simp [hj]
    rcases eq_or_ne x j with rfl | hxj
    · simp [hxi, hi]
    · simp [hxi, hxj, hx, Equiv.swap_apply_of_ne_of_ne]
  · rw [Equiv.swap_apply_of_ne_of_ne (by omega) (by omega),
      getElem!_neg _ x (by simpa using hx), getElem!_neg _ x hx]

/-- Indices outside the array are not swapped. -/
theorem swapIfInBounds_of_not_lt (h : ¬ (i < arr.size ∧ j < arr.size)) :
    arr.swapIfInBounds i j = arr := by
  unfold Array.swapIfInBounds
  split_ifs with hi hj
  · exact absurd ⟨hi, hj⟩ h
  · rfl
  · rfl

@[simp] theorem size_compareAndSwap :
    (compareAndSwap arr i j dir).size = arr.size := by
  unfold compareAndSwap
  split_ifs <;> simp

/-- Whether or not the two elements are swapped, the elements are permuted. -/
theorem compareAndSwap_eq_or (arr : Array ℤ) (i j : ℕ) (dir : ℤ) :
    compareAndSwap arr i j dir = arr ∨ compareAndSwap arr i j dir = arr.swapIfInBounds i j := by
  unfold compareAndSwap
  split_ifs <;> simp

/-- What the first of two compared elements becomes. -/
def front (dir x y : ℤ) : ℤ := if dir = 1 then min x y else max x y

/-- What the second of two compared elements becomes. -/
def back (dir x y : ℤ) : ℤ := if dir = 1 then max x y else min x y

/-- **`compareAndSwap`** orders the two elements and touches no other. -/
theorem getElem!_compareAndSwap (hdir : dir = 0 ∨ dir = 1) (hij : i ≠ j) (hi : i < arr.size)
    (hj : j < arr.size) (x : ℕ) :
    (compareAndSwap arr i j dir)[x]! =
      if x = i then front dir arr[i]! arr[j]!
      else if x = j then back dir arr[i]! arr[j]! else arr[x]! := by
  have hother : ∀ x, x ≠ i → x ≠ j → Equiv.swap i j x = x := fun x => Equiv.swap_apply_of_ne_of_ne
  unfold compareAndSwap front back
  rcases hdir with rfl | rfl <;> by_cases hgt : arr[i]! > arr[j]!
  all_goals
    simp only [hgt, if_true, if_false, zero_ne_one, one_ne_zero]
    rw [gt_iff_lt] at hgt
    rcases eq_or_ne x i with rfl | hxi
    · simp [getElem!_swapIfInBounds hi hj]
      omega
    rcases eq_or_ne x j with rfl | hxj
    · simp [getElem!_swapIfInBounds hi hj, hxi]
      omega
    · simp [getElem!_swapIfInBounds hi hj, hxi, hxj, hother]

/-! ## Rearranging a range -/

/-- The elements of the range `[low, low + cnt)`, in order. -/
def slice (arr : Array ℤ) (low cnt : ℕ) : List ℤ := (List.range' low cnt).map fun x => arr[x]!

/-- `arr'` is `arr` with the elements of the range permuted. -/
structure Rearranges (arr arr' : Array ℤ) (low cnt : ℕ) : Prop where
  size_eq : arr'.size = arr.size
  outside : ∀ x, x < low ∨ low + cnt ≤ x → arr'[x]! = arr[x]!
  perm : (slice arr' low cnt).Perm (slice arr low cnt)

theorem slice_add (arr : Array ℤ) (low a b : ℕ) :
    slice arr low (a + b) = slice arr low a ++ slice arr (low + a) b := by
  unfold slice
  rw [← List.map_append, List.range'_append_1]

theorem slice_congr (arr' arr : Array ℤ) (low cnt : ℕ)
    (h : ∀ x, low ≤ x → x < low + cnt → arr'[x]! = arr[x]!) :
    slice arr' low cnt = slice arr low cnt := by
  unfold slice
  apply List.map_congr_left
  intro x hx
  rw [List.mem_range'_1] at hx
  exact h x hx.1 hx.2

theorem mem_slice {v : ℤ} : v ∈ slice arr low cnt ↔ ∃ x < cnt, arr[low + x]! = v := by
  unfold slice
  rw [List.mem_map]
  constructor
  · rintro ⟨x, hx, rfl⟩
    rw [List.mem_range'_1] at hx
    exact ⟨x - low, by omega, by rw [Nat.add_sub_cancel' hx.1]⟩
  · rintro ⟨x, hx, rfl⟩
    exact ⟨low + x, by rw [List.mem_range'_1]; omega, rfl⟩

/-- The whole array is its slice from 0 on. -/
theorem slice_size (arr : Array ℤ) : slice arr 0 arr.size = arr.toList := by
  unfold slice
  apply List.ext_getElem (by simp)
  intro x h₁ h₂
  have hx : x < arr.size := by simpa using h₂
  simp [hx]

namespace Rearranges

theorem refl (arr : Array ℤ) (low cnt : ℕ) : Rearranges arr arr low cnt :=
  ⟨rfl, fun _ _ => rfl, List.Perm.refl _⟩

theorem trans (h : Rearranges arr arr' low cnt) (h' : Rearranges arr' arr'' low cnt) :
    Rearranges arr arr'' low cnt :=
  ⟨h'.size_eq.trans h.size_eq, fun x hx => (h'.outside x hx).trans (h.outside x hx),
    h'.perm.trans h.perm⟩

/-- A rearrangement of the first part of a range is one of the range. -/
theorem of_left {a b : ℕ} (h : Rearranges arr arr' low a) : Rearranges arr arr' low (a + b) := by
  refine ⟨h.size_eq, fun x hx => h.outside x (by omega), ?_⟩
  rw [slice_add, slice_add,
    slice_congr arr' arr (low + a) b fun x h₁ _ => h.outside x (Or.inr h₁)]
  exact h.perm.append_right _

/-- A rearrangement of the second part of a range is one of the range. -/
theorem of_right {a b : ℕ} (h : Rearranges arr arr' (low + a) b) :
    Rearranges arr arr' low (a + b) := by
  refine ⟨h.size_eq, fun x hx => h.outside x (by omega), ?_⟩
  rw [slice_add, slice_add,
    slice_congr arr' arr low a fun x _ h₂ => h.outside x (Or.inl h₂)]
  exact h.perm.append_left _

/-- Every element of the range was in the range before. -/
theorem exists_eq (h : Rearranges arr arr' low cnt) {x : ℕ} (hx : x < cnt) :
    ∃ y < cnt, arr[low + y]! = arr'[low + x]! :=
  mem_slice.mp (h.perm.mem_iff.mp (mem_slice.mpr ⟨x, hx, rfl⟩))

end Rearranges

/-- Swapping two elements of a range rearranges the range. -/
theorem rearranges_swap (hi : i < arr.size) (hj : j < arr.size)
    (hli : low ≤ i ∧ i < low + cnt) (hlj : low ≤ j ∧ j < low + cnt) :
    Rearranges arr (arr.swapIfInBounds i j) low cnt := by
  have hget := getElem!_swapIfInBounds hi hj
  refine ⟨by simp, fun x hx => ?_, ?_⟩
  · rw [hget, Equiv.swap_apply_of_ne_of_ne (by omega) (by omega)]
  · have hperm : ((List.range' low cnt).map (Equiv.swap i j)).Perm (List.range' low cnt) := by
      apply (List.perm_ext_iff_of_nodup
        ((List.nodup_range' ..).map (Equiv.swap i j).injective) (List.nodup_range' ..)).mpr
      intro x
      rw [List.mem_map]
      constructor
      · rintro ⟨y, hy, rfl⟩
        rw [List.mem_range'_1] at hy ⊢
        rw [Equiv.swap_apply_def]
        split_ifs <;> assumption
      · intro hx
        refine ⟨Equiv.swap i j x, ?_, Equiv.swap_apply_self i j x⟩
        rw [List.mem_range'_1] at hx ⊢
        rw [Equiv.swap_apply_def]
        split_ifs <;> assumption
    unfold slice
    rw [List.map_congr_left fun x _ => hget x]
    simpa [Function.comp_def] using hperm.map fun x => arr[x]!

/-- **`compareAndSwap` rearranges** every range that holds both indices. -/
theorem rearranges_compareAndSwap (hi : i < arr.size) (hj : j < arr.size)
    (hli : low ≤ i ∧ i < low + cnt) (hlj : low ≤ j ∧ j < low + cnt) :
    Rearranges arr (compareAndSwap arr i j dir) low cnt := by
  rcases compareAndSwap_eq_or arr i j dir with h | h
  · rw [h]
    exact Rearranges.refl arr low cnt
  · rw [h]
    exact rearranges_swap hi hj hli hlj

/-! ## One loop of `bitonicMerge` -/

theorem compareHalves_succ (arr : Array ℤ) (low k count : ℕ) (dir : ℤ) :
    compareHalves arr low k dir (count + 1)
      = compareAndSwap (compareHalves arr low k dir count) (low + count) (low + count + k) dir := by
  unfold compareHalves
  rw [List.range'_1_concat, List.foldl_append]
  rfl

/-- **The loop of `bitonicMerge` rearranges** the range. -/
theorem rearranges_compareHalves {count : ℕ} (hcount : count ≤ k) (hsize : low + (k + k) ≤ arr.size) :
    Rearranges arr (compareHalves arr low k dir count) low (k + k) := by
  induction count with
  | zero => exact Rearranges.refl arr low (k + k)
  | succ count ih =>
      have h := ih (by omega)
      have hsz := h.size_eq
      rw [compareHalves_succ]
      exact h.trans (rearranges_compareAndSwap (by omega) (by omega) (by omega) (by omega))

/-- **The loop of `bitonicMerge`** orders the two halves position by position. -/
theorem getElem!_compareHalves {count : ℕ} (hdir : dir = 0 ∨ dir = 1) (hcount : count ≤ k)
    (hsize : low + (k + k) ≤ arr.size) {x : ℕ} (hx : x < count) :
    (compareHalves arr low k dir count)[low + x]! = front dir arr[low + x]! arr[low + x + k]! ∧
      (compareHalves arr low k dir count)[low + x + k]!
        = back dir arr[low + x]! arr[low + x + k]! := by
  -- the positions the loop has not reached are untouched
  have huntouched : ∀ {n y : ℕ}, n ≤ k → n ≤ y → y < k →
      (compareHalves arr low k dir n)[low + y]! = arr[low + y]! ∧
        (compareHalves arr low k dir n)[low + y + k]! = arr[low + y + k]! := by
    intro n
    induction n with
    | zero => exact fun _ _ _ => ⟨rfl, rfl⟩
    | succ n ih =>
        intro y hn hny hy
        have hsz : (compareHalves arr low k dir n).size = arr.size :=
          (rearranges_compareHalves (by omega) hsize).size_eq
        obtain ⟨h₁, h₂⟩ := ih (y := y) (by omega) (by omega) hy
        rw [compareHalves_succ, getElem!_compareAndSwap hdir (by omega) (by omega) (by omega),
          getElem!_compareAndSwap hdir (by omega) (by omega) (by omega),
          if_neg (by omega), if_neg (by omega), if_neg (by omega), if_neg (by omega)]
        exact ⟨h₁, h₂⟩
  induction count with
  | zero => omega
  | succ count ih =>
      have hsz : (compareHalves arr low k dir count).size = arr.size :=
        (rearranges_compareHalves (by omega) hsize).size_eq
      rw [compareHalves_succ, getElem!_compareAndSwap hdir (by omega) (by omega) (by omega),
        getElem!_compareAndSwap hdir (by omega) (by omega) (by omega)]
      rcases Nat.lt_succ_iff_lt_or_eq.mp hx with hlt | rfl
      · rw [if_neg (by omega), if_neg (by omega), if_neg (by omega), if_neg (by omega)]
        exact ih (by omega) hlt
      · obtain ⟨h₁, h₂⟩ := huntouched (n := x) (y := x) (by omega) le_rfl (by omega)
        rw [if_pos rfl, if_neg (by omega), if_pos rfl, h₁, h₂]
        exact ⟨rfl, rfl⟩

end BitonicSort
