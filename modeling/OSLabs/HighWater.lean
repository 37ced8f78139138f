/-
# High-water marks

A pool of units that only grows, a unit at a time and only when what is in use does
not fit into the units that are there, has the size of the highest mark of what was in
use: no unit is added that was not needed at some time, and none is given back.
Nothing here mentions a program.
-/
import OSLabs.LabelledRuns

namespace Run

variable {σ ℓ : Type*} {step : σ → ℓ → σ → Prop}

/-! ## The states of a run -/

/-- `u` is passed on the way from `s` to `t` along the labels `ls`. -/
def Passes (step : σ → ℓ → σ → Prop) (s : σ) (ls : List ℓ) (t u : σ) : Prop :=
  ∃ before after, ls = before ++ after ∧ Run step s before u ∧ Run step u after t

theorem passes_last {s t : σ} {ls : List ℓ} (h : Run step s ls t) : Passes step s ls t t :=
  ⟨ls, [], (List.append_nil ls).symm, h, .nil t⟩

/-- What is passed before the last step is passed. -/
theorem Passes.snoc {s t t' u : σ} {ls : List ℓ} {l : ℓ} (h : Passes step s ls t u)
    (hst : step t l t') : Passes step s (ls ++ [l]) t' u := by
  obtain ⟨before, after, rfl, hbefore, hafter⟩ := h
  exact ⟨before, after ++ [l], List.append_assoc _ _ _, hbefore, hafter.snoc hst⟩

/-- The values that a measure takes in the states of a run. -/
def Marks (step : σ → ℓ → σ → Prop) (s : σ) (ls : List ℓ) (t : σ) (use : σ → ℕ) : Set ℕ :=
  {m | ∃ u, Passes step s ls t u ∧ use u = m}

/-! ## Pools that only grow -/

/-- What is in use fits into the units of the pool, `k` to a unit, and a unit is added only by a
step after which it would not have fitted into the units before. -/
structure GrowsOnDemand (step : σ → ℓ → σ → Prop) (I : σ → Prop) (k : ℕ) (use pool : σ → ℕ) :
    Prop where
  keeps : ∀ s l t, I s → step s l t → I t
  fits : ∀ s, I s → use s ≤ k * pool s
  grows : ∀ s l t, I s → step s l t →
    pool t = pool s ∨ pool t = pool s + 1 ∧ k * pool s < use t

namespace GrowsOnDemand

variable {I : σ → Prop} {k : ℕ} {use pool : σ → ℕ} {s t : σ} {ls : List ℓ}

/-- The same pool, seen through other labels. -/
theorem relabel {κ : Type*} {step' : σ → κ → σ → Prop} (h : GrowsOnDemand step I k use pool)
    (hstep : ∀ s l t, step' s l t → ∃ m, step s m t) : GrowsOnDemand step' I k use pool := by
  refine ⟨?_, h.fits, ?_⟩
  · intro s l t hs hst
    obtain ⟨m, hm⟩ := hstep s l t hst
    exact h.keeps s m t hs hm
  · intro s l t hs hst
    obtain ⟨m, hm⟩ := hstep s l t hst
    exact h.grows s m t hs hm

/-- The pool never shrinks. -/
theorem pool_le (h : GrowsOnDemand step I k use pool) (hrun : Run step s ls t) (hs : I s) :
    pool s ≤ pool t := by
  induction hrun with
  | nil s => exact le_rfl
  | cons hst _ ih =>
      have hrest := ih (h.keeps _ _ _ hs hst)
      rcases h.grows _ _ _ hs hst with heq | ⟨heq, -⟩
      · omega
      · omega

/-- Every mark fits into the pool at the end. -/
theorem mark_le (h : GrowsOnDemand step I k use pool) (hs : I s) {m : ℕ}
    (hm : m ∈ Marks step s ls t use) : m ≤ k * pool t := by
  obtain ⟨u, ⟨before, after, -, hbefore, hafter⟩, rfl⟩ := hm
  have hu : I u := hbefore.preserves h.keeps hs
  exact (h.fits u hu).trans (Nat.mul_le_mul_left k (h.pool_le hafter hu))

/-- The last unit was needed when it was added. -/
theorem exists_mark (h : GrowsOnDemand step I k use pool) (hrun : Run step s ls t) (hs : I s)
    (hempty : pool s = 0) :
    pool t = 0 ∨ ∃ m ∈ Marks step s ls t use, k * (pool t - 1) < m := by
  apply hrun.history (I := fun ls t => pool t = 0 ∨
    ∃ m ∈ Marks step s ls t use, k * (pool t - 1) < m) (Or.inl hempty)
  intro ls u l v hu ih hst
  rcases h.grows u l v (hu.preserves h.keeps hs) hst with hsame | ⟨hmore, hneeded⟩
  · -- The unit that was needed last is still the last one.
    rw [hsame]
    rcases ih with hzero | ⟨m, ⟨w, hw, hm⟩, hlt⟩
    · exact Or.inl hzero
    · exact Or.inr ⟨m, ⟨w, hw.snoc hst, hm⟩, hlt⟩
  · right
    refine ⟨use v, ⟨v, passes_last (hu.snoc hst), rfl⟩, ?_⟩
    rw [hmore, Nat.add_sub_cancel]
    exact hneeded

/-- **High-water rule.**  A pool that starts empty has, after any run, as many units as the highest
mark of the run needs. -/
theorem pool_eq_ceilDiv (h : GrowsOnDemand step I k use pool) (hk : 0 < k)
    (hrun : Run step s ls t) (hs : I s) (hempty : pool s = 0) :
    ∃ peak, IsGreatest (Marks step s ls t use) peak ∧ pool t = peak ⌈/⌉ k := by
  have hbounded : BddAbove (Marks step s ls t use) := ⟨k * pool t, fun m hm => h.mark_le hs hm⟩
  have hnonempty : (Marks step s ls t use).Nonempty := ⟨use t, t, passes_last hrun, rfl⟩
  have hpeak : IsGreatest (Marks step s ls t use) (sSup (Marks step s ls t use)) :=
    ⟨Nat.sSup_mem hnonempty hbounded, fun m hm => le_csSup hbounded hm⟩
  refine ⟨_, hpeak, le_antisymm ?_ ?_⟩
  · rcases h.exists_mark hrun hs hempty with hzero | ⟨m, hm, hlt⟩
    · rw [hzero]
      exact Nat.zero_le _
    · -- One unit fewer would not have held the mark of the last one.
      have hle := hpeak.2 hm
      by_contra hless
      have hfew : sSup (Marks step s ls t use) ⌈/⌉ k ≤ pool t - 1 := by omega
      rw [ceilDiv_le_iff_le_mul hk] at hfew
      omega
  · rw [ceilDiv_le_iff_le_mul hk]
    exact h.mark_le hs hpeak.1

end GrowsOnDemand

end Run
