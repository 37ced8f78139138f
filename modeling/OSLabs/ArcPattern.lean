/-
# Cyclic arcs of 0-1 patterns

A pattern on `[0, n)` is an arc when the positions where it holds form an interval or
the complement of one.  Comparing the two halves of an arc of even length position by
position leaves two arcs, and one of them is constant.  Thresholds carry these facts from
patterns to values: a sequence is known from the patterns `t ≤ s x`.
-/
import Mathlib

/-! ## Arcs -/

/-- On `[0, n)` the pattern `p` holds on an interval, or off an interval. -/
def IsArc (n : ℕ) (p : ℕ → Prop) : Prop :=
  ∃ a b, (∀ x < n, p x ↔ a ≤ x ∧ x < b) ∨ (∀ x < n, p x ↔ x < a ∨ b ≤ x)

namespace IsArc

variable {n k a b : ℕ} {p q : ℕ → Prop}

/-- An arc only depends on the positions below `n`. -/
theorem congr (h : IsArc n p) (hpq : ∀ x < n, q x ↔ p x) : IsArc n q := by
  obtain ⟨a, b, h | h⟩ := h
  · exact ⟨a, b, Or.inl fun x hx => (hpq x hx).trans (h x hx)⟩
  · exact ⟨a, b, Or.inr fun x hx => (hpq x hx).trans (h x hx)⟩

/-- The complement of an arc is an arc. -/
theorem compl (h : IsArc n p) : IsArc n fun x => ¬ p x := by
  obtain ⟨a, b, h | h⟩ := h
  · refine ⟨a, b, Or.inr fun x hx => ?_⟩
    show ¬ p x ↔ _
    rw [h x hx]
    omega
  · refine ⟨a, b, Or.inl fun x hx => ?_⟩
    show ¬ p x ↔ _
    rw [h x hx]
    omega

/-- Where both halves of an interval hold, and where one of them does. -/
theorem halves_of_interval (h : ∀ x < k + k, p x ↔ a ≤ x ∧ x < b) :
    IsArc k (fun x => p x ∧ p (x + k)) ∧ IsArc k (fun x => p x ∨ p (x + k)) ∧
      ((∀ x < k, ¬ (p x ∧ p (x + k))) ∨ ∀ x < k, p x ∨ p (x + k)) := by
  have hlow : ∀ x < k, p x ↔ a ≤ x ∧ x < b := fun x hx => h x (by omega)
  have hhigh : ∀ x < k, p (x + k) ↔ a ≤ x + k ∧ x + k < b := fun x hx => h (x + k) (by omega)
  refine ⟨⟨a, b - k, Or.inl fun x hx => ?_⟩, ?_, ?_⟩
  · show p x ∧ p (x + k) ↔ _
    rw [hlow x hx, hhigh x hx]
    omega
  · -- the interval lies in one half, or wraps over the middle
    by_cases h₁ : k ≤ a
    · refine ⟨a - k, b - k, Or.inl fun x hx => ?_⟩
      show p x ∨ p (x + k) ↔ _
      rw [hlow x hx, hhigh x hx]
      omega
    by_cases h₂ : b ≤ k
    · refine ⟨a, b, Or.inl fun x hx => ?_⟩
      show p x ∨ p (x + k) ↔ _
      rw [hlow x hx, hhigh x hx]
      omega
    refine ⟨b - k, a, Or.inr fun x hx => ?_⟩
    show p x ∨ p (x + k) ↔ _
    rw [hlow x hx, hhigh x hx]
    omega
  · by_cases hwide : a + k ≤ b ∧ a ≤ k
    · apply Or.inr
      intro x hx
      rw [hlow x hx, hhigh x hx]
      omega
    · apply Or.inl
      intro x hx
      rw [hlow x hx, hhigh x hx]
      omega

/-- **Half-cleaner.**  Position by position, the conjunction and the disjunction of the two
halves of an arc are arcs, and one of them is constant. -/
theorem halves (h : IsArc (k + k) p) :
    IsArc k (fun x => p x ∧ p (x + k)) ∧ IsArc k (fun x => p x ∨ p (x + k)) ∧
      ((∀ x < k, ¬ (p x ∧ p (x + k))) ∨ ∀ x < k, p x ∨ p (x + k)) := by
  obtain ⟨a, b, h | h⟩ := h
  · exact halves_of_interval h
  · -- the complement is an interval, and complements swap the two connectives
    have hcompl : ∀ x < k + k, ¬ p x ↔ a ≤ x ∧ x < b := fun x hx => by
      rw [h x hx]
      omega
    obtain ⟨hand, hor, hcase⟩ := halves_of_interval hcompl
    refine ⟨hor.compl.congr fun x _ => by tauto, hand.compl.congr fun x _ => by tauto, ?_⟩
    rcases hcase with hcase | hcase
    · exact Or.inr fun x hx => by have := hcase x hx; tauto
    · exact Or.inl fun x hx => by have := hcase x hx; tauto

/-- An interval of a cyclic shift is an arc. -/
theorem of_rotate_interval {r : ℕ} (hr : r ≤ n)
    (h : ∀ x < n, p ((x + r) % n) ↔ a ≤ x ∧ x < b) : IsArc n p := by
  have hlow : ∀ y < n, y < r → (p y ↔ a ≤ y + n - r ∧ y + n - r < b) := by
    intro y hy hyr
    have hmod : (y + n - r + r) % n = y := by
      rw [show y + n - r + r = y + n by omega, Nat.add_mod_right, Nat.mod_eq_of_lt hy]
    rw [← h (y + n - r) (by omega), hmod]
  have hhigh : ∀ y < n, r ≤ y → (p y ↔ a ≤ y - r ∧ y - r < b) := by
    intro y hy hyr
    have hmod : (y - r + r) % n = y := by
      rw [Nat.sub_add_cancel hyr, Nat.mod_eq_of_lt hy]
    rw [← h (y - r) (by omega), hmod]
  -- the interval stays in one piece on either side of the cut, or wraps over it
  by_cases hleft : b + r ≤ n
  · refine ⟨a + r, b + r, Or.inl fun y hy => ?_⟩
    by_cases hyr : y < r
    · rw [hlow y hy hyr]
      omega
    · rw [hhigh y hy (by omega)]
      omega
  by_cases hright : n ≤ a + r
  · refine ⟨a + r - n, min b n + r - n, Or.inl fun y hy => ?_⟩
    by_cases hyr : y < r
    · rw [hlow y hy hyr]
      omega
    · rw [hhigh y hy (by omega)]
      omega
  refine ⟨min b n + r - n, a + r, Or.inr fun y hy => ?_⟩
  by_cases hyr : y < r
  · rw [hlow y hy hyr]
    omega
  · rw [hhigh y hy (by omega)]
    omega

/-- **Rotation.**  A pattern is an arc if a cyclic shift of it is. -/
theorem of_rotate {r : ℕ} (hr : r ≤ n) (h : IsArc n fun x => p ((x + r) % n)) : IsArc n p := by
  obtain ⟨a, b, h | h⟩ := h
  · exact of_rotate_interval hr h
  · have hcompl : ∀ x < n, ¬ p ((x + r) % n) ↔ a ≤ x ∧ x < b := fun x hx =>
      (not_congr (h x hx)).trans (by omega)
    exact (of_rotate_interval (p := fun x => ¬ p x) hr hcompl).compl.congr fun x _ =>
      not_not.symm

end IsArc

/-! ## Monotone patterns -/

section Monotone

variable {k : ℕ} {p : ℕ → Prop}

/-- A pattern that never falls holds from some position on. -/
theorem exists_rise (hmono : ∀ x y, x ≤ y → y < k → p x → p y) :
    ∃ a ≤ k, ∀ x < k, p x ↔ a ≤ x := by
  classical
  induction k with
  | zero => exact ⟨0, le_rfl, fun x hx => absurd hx (Nat.not_lt_zero x)⟩
  | succ k ih =>
      obtain ⟨a, ha, h⟩ := ih fun x y hxy hy => hmono x y hxy (Nat.lt_succ_of_lt hy)
      by_cases hk : p k
      · refine ⟨a, Nat.le_succ_of_le ha, fun x hx => ?_⟩
        rcases Nat.lt_succ_iff_lt_or_eq.mp hx with hx | rfl
        · exact h x hx
        · exact iff_of_true hk ha
      · refine ⟨k + 1, le_rfl, fun x hx => iff_of_false (fun hpx => hk ?_) (by omega)⟩
        exact hmono x k (Nat.le_of_lt_succ hx) (Nat.lt_succ_self k) hpx

/-- A pattern that never rises holds up to some position. -/
theorem exists_fall (hanti : ∀ x y, x ≤ y → y < k → p y → p x) :
    ∃ b ≤ k, ∀ x < k, p x ↔ x < b := by
  obtain ⟨b, hb, h⟩ := exists_rise (p := fun x => ¬ p x) fun x y hxy hy hnx hpy =>
    hnx (hanti x y hxy hy hpy)
  refine ⟨b, hb, fun x hx => ?_⟩
  have := h x hx
  rw [← not_iff_not, this]
  omega

/-- A pattern that rises up to `m` and falls from there is an arc. -/
theorem isArc_of_rise_fall {m n : ℕ} (hmn : m ≤ n) (hrise : ∀ x y, x ≤ y → y < m → p x → p y)
    (hfall : ∀ x y, m ≤ x → x ≤ y → y < n → p y → p x) : IsArc n p := by
  obtain ⟨a, ha, hlow⟩ := exists_rise hrise
  obtain ⟨b, hb, hhigh⟩ := exists_fall (k := n - m) (p := fun x => p (x + m))
    fun x y hxy hy => hfall (x + m) (y + m) (by omega) (by omega) (by omega)
  refine ⟨a, b + m, Or.inl fun x hx => ?_⟩
  by_cases hxm : x < m
  · rw [hlow x hxm]
    omega
  · obtain ⟨y, rfl⟩ : ∃ y, x = y + m := ⟨x - m, by omega⟩
    rw [hhigh y (by omega)]
    omega

end Monotone

/-! ## Bitonic sequences -/

section Bitonic

variable {α : Type*} [LinearOrder α] {k : ℕ} {s u : ℕ → α}

/-- Every threshold pattern of the first `n` values is an arc. -/
def Bitonic (n : ℕ) (s : ℕ → α) : Prop := ∀ t, IsArc n fun x => t ≤ s x

/-- Being bitonic only depends on the positions below `n`. -/
theorem Bitonic.congr {n : ℕ} (h : Bitonic n s) (hsu : ∀ x < n, u x = s x) : Bitonic n u :=
  fun t => (h t).congr fun x hx => by rw [hsu x hx]

/-- An ascending part followed by a descending one is bitonic. -/
theorem bitonic_of_asc_desc {m n : ℕ} (hmn : m ≤ n) (hasc : ∀ x y, x ≤ y → y < m → s x ≤ s y)
    (hdesc : ∀ x y, m ≤ x → x ≤ y → y < n → s y ≤ s x) : Bitonic n s :=
  fun _ => isArc_of_rise_fall hmn (fun x y hxy hy h => h.trans (hasc x y hxy hy))
    fun x y hx hxy hy h => h.trans (hdesc x y hx hxy hy)

/-- **Rotation.**  A sequence is bitonic if a cyclic shift of it is. -/
theorem Bitonic.of_rotate {r n : ℕ} (hr : r ≤ n) (h : Bitonic n fun x => s ((x + r) % n)) :
    Bitonic n s :=
  fun t => (h t).of_rotate hr

/-- **Cyclic shifts.**  The values are bitonic if some cyclic shift of their list ascends up to a
point and descends from there. -/
theorem bitonic_of_list_rotate {n r : ℕ} {up down : List α}
    (hrot : ((List.range n).map s).rotate r = up ++ down) (hup : up.Pairwise (· ≤ ·))
    (hdown : down.Pairwise (· ≥ ·)) : Bitonic n s := by
  have hlen : up.length + down.length = n := by
    have h := congrArg List.length hrot
    simpa using h.symm
  have hget : ∀ x (hx : x < n),
      s ((x + r % n) % n) = (up ++ down).get ⟨x, by simpa [hlen] using hx⟩ := by
    intro x hx
    simp only [List.get_eq_getElem, ← hrot, List.getElem_rotate, List.getElem_map,
      List.getElem_range, List.length_map, List.length_range, Nat.add_mod_mod]
  rcases Nat.eq_zero_or_pos n with rfl | hn
  · exact fun t => ⟨0, 0, Or.inl fun x hx => absurd hx (Nat.not_lt_zero x)⟩
  apply Bitonic.of_rotate (Nat.mod_lt r hn).le
  refine bitonic_of_asc_desc (m := up.length) (by omega) ?_ ?_
  · intro x y hxy hy
    rw [hget x (by omega), hget y (by omega)]
    rcases hxy.eq_or_lt with rfl | hlt
    · exact le_rfl
    · simpa [List.getElem_append_left, hy, hlt.trans hy] using
        List.pairwise_iff_getElem.mp hup x y (hlt.trans hy) hy hlt
  · intro x y hx hxy hy
    rw [hget x (by omega), hget y (by omega)]
    rcases hxy.eq_or_lt with rfl | hlt
    · exact le_rfl
    · have hpair := List.pairwise_iff_getElem.mp hdown (x - up.length) (y - up.length)
        (by omega) (by omega) (by omega)
      simpa [List.getElem_append_right, hx, hx.trans hxy] using hpair

/-- **Half-cleaner.**  The minima and the maxima of the two halves of a bitonic sequence are
bitonic, and every minimum is at most every maximum. -/
theorem Bitonic.halves (h : Bitonic (k + k) s) :
    Bitonic k (fun x => min (s x) (s (x + k))) ∧ Bitonic k (fun x => max (s x) (s (x + k))) ∧
      ∀ x < k, ∀ y < k, min (s x) (s (x + k)) ≤ max (s y) (s (y + k)) := by
  refine ⟨fun t => ?_, fun t => ?_, fun x hx y hy => ?_⟩
  · exact (h t).halves.1.congr fun x _ => le_min_iff
  · exact (h t).halves.2.1.congr fun x _ => le_max_iff
  · -- the threshold at the minimum of position `x`
    rcases (h (min (s x) (s (x + k)))).halves.2.2 with hnone | hall
    · exact absurd ⟨min_le_left _ _, min_le_right _ _⟩ (hnone x hx)
    · exact le_max_iff.mpr (hall y hy)

end Bitonic
