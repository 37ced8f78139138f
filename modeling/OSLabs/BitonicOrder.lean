/-
# The order that the bitonic sort reaches

`bitonicMerge` orders every bitonic range: one loop leaves two bitonic halves, with no
element of one beyond an element of the other.  `bitonicSort` orders every range, as two
halves ordered in opposite directions make a bitonic range.
-/
import OSLabs.BitonicSteps

namespace BitonicSort

variable {arr arr' : Array ℤ} {low cnt k : ℕ} {dir : ℤ}

/-! ## Ordered ranges -/

/-- `x` may come before `y` in direction `dir`. -/
def Ordered (dir x y : ℤ) : Prop := if dir = 1 then x ≤ y else y ≤ x

/-- The range `[low, low + cnt)` is ascending for `dir = 1`, descending otherwise. -/
def SortedRange (dir : ℤ) (arr : Array ℤ) (low cnt : ℕ) : Prop :=
  ∀ x y, x ≤ y → y < cnt → Ordered dir arr[low + x]! arr[low + y]!

theorem Ordered.refl (dir x : ℤ) : Ordered dir x x := by
  unfold Ordered
  split_ifs <;> exact le_rfl

/-- Being ordered depends on the elements of the range only. -/
theorem SortedRange.congr (h : SortedRange dir arr low cnt)
    (heq : ∀ x, low ≤ x → x < low + cnt → arr'[x]! = arr[x]!) : SortedRange dir arr' low cnt := by
  intro x y hxy hy
  rw [heq (low + x) (by omega) (by omega), heq (low + y) (by omega) (by omega)]
  exact h x y hxy hy

/-- Two ordered halves, no element of the first beyond one of the second, are ordered. -/
theorem SortedRange.append (h₁ : SortedRange dir arr low k) (h₂ : SortedRange dir arr (low + k) k)
    (hcross : ∀ x < k, ∀ y < k, Ordered dir arr[low + x]! arr[low + k + y]!) :
    SortedRange dir arr low (k + k) := by
  intro x y hxy hy
  by_cases hyk : y < k
  · exact h₁ x y hxy hyk
  obtain ⟨z, rfl⟩ : ∃ z, y = k + z := ⟨y - k, by omega⟩
  by_cases hxk : x < k
  · rw [← Nat.add_assoc]
    exact hcross x hxk z (by omega)
  · obtain ⟨w, rfl⟩ : ∃ w, x = k + w := ⟨x - k, by omega⟩
    rw [← Nat.add_assoc, ← Nat.add_assoc]
    exact h₂ w z (by omega) (by omega)

/-! ## Both functions rearrange their range -/

theorem bitonicMerge_one (arr : Array ℤ) (low : ℕ) (dir : ℤ) : bitonicMerge arr low 1 dir = arr := by
  rw [bitonicMerge]
  simp

theorem bitonicMerge_two_mul (arr : Array ℤ) (low : ℕ) (dir : ℤ) (hk : 0 < k) :
    bitonicMerge arr low (k + k) dir =
      bitonicMerge (bitonicMerge (compareHalves arr low k dir k) low k dir) (low + k) k dir := by
  rw [bitonicMerge, if_pos (by omega), show (k + k) / 2 = k by omega]

theorem bitonicSort_one (arr : Array ℤ) (low : ℕ) (dir : ℤ) : bitonicSort arr low 1 dir = arr := by
  rw [bitonicSort]
  simp

theorem bitonicSort_two_mul (arr : Array ℤ) (low : ℕ) (dir : ℤ) (hk : 0 < k) :
    bitonicSort arr low (k + k) dir =
      bitonicMerge (bitonicSort (bitonicSort arr low k 1) (low + k) k 0) low (k + k) dir := by
  rw [bitonicSort, if_pos (by omega), show (k + k) / 2 = k by omega]

/-- A power of two is one, or twice a smaller one. -/
theorem two_pow_succ (m : ℕ) : 2 ^ (m + 1) = 2 ^ m + 2 ^ m := by
  rw [pow_succ]
  omega

/-- **`bitonicMerge` rearranges its range.** -/
theorem bitonicMerge_rearranges {m : ℕ} (hsize : low + 2 ^ m ≤ arr.size) :
    Rearranges arr (bitonicMerge arr low (2 ^ m) dir) low (2 ^ m) := by
  induction m generalizing arr low with
  | zero =>
      rw [pow_zero, bitonicMerge_one]
      exact Rearranges.refl arr low 1
  | succ m ih =>
      rw [two_pow_succ] at hsize ⊢
      have hk := Nat.two_pow_pos m
      rw [bitonicMerge_two_mul arr low dir hk]
      set k := 2 ^ m
      have h₁ : Rearranges arr (compareHalves arr low k dir k) low (k + k) :=
        rearranges_compareHalves le_rfl hsize
      have hsz₁ := h₁.size_eq
      set a := compareHalves arr low k dir k
      have h₂ : Rearranges a (bitonicMerge a low k dir) low k := ih (by omega)
      have hsz₂ := h₂.size_eq
      set b := bitonicMerge a low k dir
      have h₃ : Rearranges b (bitonicMerge b (low + k) k dir) (low + k) k := ih (by omega)
      exact (h₁.trans h₂.of_left).trans h₃.of_right

/-- **`bitonicSort` rearranges its range.** -/
theorem bitonicSort_rearranges {m : ℕ} (hsize : low + 2 ^ m ≤ arr.size) :
    Rearranges arr (bitonicSort arr low (2 ^ m) dir) low (2 ^ m) := by
  induction m generalizing arr low dir with
  | zero =>
      rw [pow_zero, bitonicSort_one]
      exact Rearranges.refl arr low 1
  | succ m ih =>
      have hpow := two_pow_succ m
      have hk := Nat.two_pow_pos m
      rw [hpow, bitonicSort_two_mul arr low dir hk, ← hpow]
      set k := 2 ^ m
      have h₁ : Rearranges arr (bitonicSort arr low k 1) low k := ih (by omega)
      have hsz₁ := h₁.size_eq
      set a := bitonicSort arr low k 1
      have h₂ : Rearranges a (bitonicSort a (low + k) k 0) (low + k) k := ih (by omega)
      have hsz₂ := h₂.size_eq
      refine Rearranges.trans ?_ (bitonicMerge_rearranges (by omega))
      rw [hpow]
      exact h₁.of_left.trans h₂.of_right

/-! ## Cyclic shifts -/

/-- Some cyclic shift of the range ascends up to a point and descends from there. -/
def CyclicallyBitonic (arr : Array ℤ) (low cnt : ℕ) : Prop :=
  ∃ r up down, (slice arr low cnt).rotate r = up ++ down ∧ up.Pairwise (· ≤ ·) ∧
    down.Pairwise (· ≥ ·)

theorem CyclicallyBitonic.bitonic (h : CyclicallyBitonic arr low cnt) :
    Bitonic cnt fun x => arr[low + x]! := by
  obtain ⟨r, up, down, hrot, hup, hdown⟩ := h
  refine bitonic_of_list_rotate (r := r) ?_ hup hdown
  rw [← hrot, slice, List.range'_eq_map_range, List.map_map]
  rfl

/-! ## The merge -/

/-- **One loop of `bitonicMerge`** on a bitonic range leaves two bitonic halves, and no element
of the first half is beyond one of the second. -/
theorem compareHalves_spec (hdir : dir = 0 ∨ dir = 1) (hsize : low + (k + k) ≤ arr.size)
    (hbit : Bitonic (k + k) fun x => arr[low + x]!) :
    Bitonic k (fun x => (compareHalves arr low k dir k)[low + x]!) ∧
      Bitonic k (fun x => (compareHalves arr low k dir k)[low + k + x]!) ∧
      ∀ x < k, ∀ y < k, Ordered dir (compareHalves arr low k dir k)[low + x]!
        (compareHalves arr low k dir k)[low + k + y]! := by
  have hget : ∀ x < k, (compareHalves arr low k dir k)[low + x]!
        = front dir arr[low + x]! arr[low + (x + k)]! ∧
      (compareHalves arr low k dir k)[low + k + x]!
        = back dir arr[low + x]! arr[low + (x + k)]! := by
    intro x hx
    rw [show low + k + x = low + x + k by omega, ← Nat.add_assoc]
    exact getElem!_compareHalves hdir le_rfl hsize hx
  obtain ⟨hmin, hmax, hle⟩ := hbit.halves
  rcases hdir with rfl | rfl
  · refine ⟨hmax.congr fun x hx => ?_, hmin.congr fun x hx => ?_, fun x hx y hy => ?_⟩
    · simp [(hget x hx).1, front]
    · simp [(hget x hx).2, back]
    · rw [(hget x hx).1, (hget y hy).2]
      simpa [Ordered, front, back] using hle y hy x hx
  · refine ⟨hmin.congr fun x hx => ?_, hmax.congr fun x hx => ?_, fun x hx y hy => ?_⟩
    · simp [(hget x hx).1, front]
    · simp [(hget x hx).2, back]
    · rw [(hget x hx).1, (hget y hy).2]
      simpa [Ordered, front, back] using hle x hx y hy

/-- **`bitonicMerge` orders every bitonic range.** -/
theorem bitonicMerge_sorted {m : ℕ} (hdir : dir = 0 ∨ dir = 1) (hsize : low + 2 ^ m ≤ arr.size)
    (hbit : Bitonic (2 ^ m) fun x => arr[low + x]!) :
    SortedRange dir (bitonicMerge arr low (2 ^ m) dir) low (2 ^ m) := by
  induction m generalizing arr low with
  | zero =>
      intro x y hxy hy
      obtain rfl : x = y := by omega
      exact Ordered.refl dir _
  | succ m ih =>
      rw [two_pow_succ] at hsize hbit ⊢
      have hk := Nat.two_pow_pos m
      rw [bitonicMerge_two_mul arr low dir hk]
      set k := 2 ^ m
      obtain ⟨hleft, hright, hcross⟩ := compareHalves_spec hdir hsize hbit
      have h₁ : Rearranges arr (compareHalves arr low k dir k) low (k + k) :=
        rearranges_compareHalves le_rfl hsize
      have hsz₁ := h₁.size_eq
      set a := compareHalves arr low k dir k
      have h₂ : Rearranges a (bitonicMerge a low k dir) low k :=
        bitonicMerge_rearranges (by omega)
      have hsz₂ := h₂.size_eq
      have hs₂ : SortedRange dir (bitonicMerge a low k dir) low k := ih (by omega) hleft
      set b := bitonicMerge a low k dir
      have h₃ : Rearranges b (bitonicMerge b (low + k) k dir) (low + k) k :=
        bitonicMerge_rearranges (by omega)
      have hs₃ : SortedRange dir (bitonicMerge b (low + k) k dir) (low + k) k :=
        ih (by omega) (hright.congr fun x _ => h₂.outside (low + k + x) (by omega))
      refine SortedRange.append (hs₂.congr fun x _ hx => h₃.outside x (Or.inl hx)) hs₃ ?_
      -- the elements of each half come from the same half before the recursive calls
      intro x hx y hy
      rw [h₃.outside (low + x) (by omega)]
      obtain ⟨x', hx', hxeq⟩ := h₂.exists_eq hx
      obtain ⟨y', hy', hyeq⟩ := h₃.exists_eq hy
      rw [← hxeq, ← hyeq, h₂.outside (low + k + y') (by omega)]
      exact hcross x' hx' y' hy'

/-! ## The sort -/

/-- An ascending and a descending half make a bitonic range. -/
theorem bitonic_of_sortedRange (h₁ : SortedRange 1 arr low k)
    (h₂ : SortedRange 0 arr (low + k) k) : Bitonic (k + k) fun x => arr[low + x]! := by
  refine bitonic_of_asc_desc (Nat.le_add_right k k) (fun x y hxy hy => ?_)
    fun x y hx hxy hy => ?_
  · simpa [Ordered] using h₁ x y hxy hy
  · have h := h₂ (x - k) (y - k) (by omega) (by omega)
    simp only [Ordered, zero_ne_one, if_false] at h
    rw [show low + y = low + k + (y - k) by omega, show low + x = low + k + (x - k) by omega]
    exact h

/-- **`bitonicSort` orders every range.** -/
theorem bitonicSort_sorted {m : ℕ} (hdir : dir = 0 ∨ dir = 1) (hsize : low + 2 ^ m ≤ arr.size) :
    SortedRange dir (bitonicSort arr low (2 ^ m) dir) low (2 ^ m) := by
  induction m generalizing arr low dir with
  | zero =>
      intro x y hxy hy
      obtain rfl : x = y := by omega
      exact Ordered.refl dir _
  | succ m ih =>
      have hpow := two_pow_succ m
      have hk := Nat.two_pow_pos m
      rw [hpow, bitonicSort_two_mul arr low dir hk, ← hpow]
      set k := 2 ^ m
      have h₁ : Rearranges arr (bitonicSort arr low k 1) low k := bitonicSort_rearranges (by omega)
      have hsz₁ := h₁.size_eq
      have hs₁ : SortedRange 1 (bitonicSort arr low k 1) low k := ih (Or.inr rfl) (by omega)
      set a := bitonicSort arr low k 1
      have h₂ : Rearranges a (bitonicSort a (low + k) k 0) (low + k) k :=
        bitonicSort_rearranges (by omega)
      have hsz₂ := h₂.size_eq
      have hs₂ : SortedRange 0 (bitonicSort a (low + k) k 0) (low + k) k :=
        ih (Or.inl rfl) (by omega)
      apply bitonicMerge_sorted hdir (by omega)
      rw [hpow]
      exact bitonic_of_sortedRange (hs₁.congr fun x _ hx => h₂.outside x (Or.inl hx)) hs₂

end BitonicSort
