/-
# Binary semaphores

A semaphore that starts at one.  A process holds it from the end of its `sem_wait` until its
`sem_post`.  While the value goes with the holders there is at most one holder, and a process has
to wait only while somebody holds the semaphore.  Nothing here mentions a program.
-/
import Mathlib.Logic.Basic
import Mathlib.Tactic

/-- The value of a semaphore goes with the processes that hold it. -/
structure Guards {ι : Type*} (value : ℕ) (holds : ι → Prop) : Prop where
  le_one : value ≤ 1
  held : value = 0 → ∃ i, holds i
  free : value ≠ 0 → ∀ i, ¬ holds i
  one : ∀ i j, holds i → holds j → i = j

/-- What a step of one process can do to a semaphore: nothing, or it is the end of a `sem_wait`, or a
`sem_post`. -/
inductive SemMove (value value' : ℕ) (held held' : Prop) : Prop
  | keep (hv : value' = value) (h : held' ↔ held)
  | wait (hpos : value ≠ 0) (hv : value' = value - 1) (h : held')
  | post (hv : value' = value + 1) (h : held) (h' : ¬ held')

namespace Guards

variable {ι : Type*} {value value' : ℕ} {holds holds' : ι → Prop} {i : ι}

/-- At first nobody holds the semaphore. -/
theorem initial (h : ∀ i, ¬ holds i) : Guards 1 holds :=
  ⟨le_rfl, fun hv => absurd hv Nat.one_ne_zero, fun _ => h, fun i _ hi => absurd hi (h i)⟩

/-- What is not a call on the semaphore changes nobody's hold. -/
theorem keep (h : Guards value holds) (hsame : ∀ j, holds' j ↔ holds j) : Guards value holds' := by
  obtain rfl : holds' = holds := funext fun j => propext (hsame j)
  exact h

/-- `sem_wait`, which returns when the value is positive. -/
theorem wait (h : Guards value holds) (hv : value ≠ 0) (hi : holds' i)
    (hother : ∀ j, j ≠ i → (holds' j ↔ holds j)) : Guards (value - 1) holds' := by
  have hle := h.le_one
  have honly : ∀ j, holds' j → j = i := by
    intro j hj
    by_contra hne
    exact h.free hv j ((hother j hne).mp hj)
  refine ⟨by omega, fun _ => ⟨i, hi⟩, fun hv' => absurd hv' (by omega), fun j k hj hk => ?_⟩
  rw [honly j hj, honly k hk]

/-- `sem_post` of the holder. -/
theorem post (h : Guards value holds) (hi : holds i) (hi' : ¬ holds' i)
    (hother : ∀ j, j ≠ i → (holds' j ↔ holds j)) : Guards (value + 1) holds' := by
  have hzero : value = 0 := by
    by_contra hv
    exact h.free hv i hi
  have hnone : ∀ j, ¬ holds' j := by
    intro j hj
    by_cases hne : j = i
    · exact hi' (hne ▸ hj)
    · exact hne (h.one j i ((hother j hne).mp hj) hi)
  rw [hzero]
  exact initial hnone

/-- **Step rule.**  What one process does keeps the value in step with the holders. -/
theorem move (h : Guards value holds) (hm : SemMove value value' (holds i) (holds' i))
    (hother : ∀ j, j ≠ i → (holds' j ↔ holds j)) : Guards value' holds' := by
  cases hm with
  | keep hv hi =>
    rw [hv]
    apply h.keep
    intro j
    by_cases hne : j = i
    · rw [hne]
      exact hi
    · exact hother j hne
  | wait hpos hv hi =>
    rw [hv]
    exact h.wait hpos hi hother
  | post hv hi hi' =>
    rw [hv]
    exact h.post hi hi' hother

/-- While one process holds the semaphore, its value is zero and nobody else holds it. -/
theorem alone (h : Guards value holds) (hi : holds i) {j : ι} (hne : j ≠ i) : ¬ holds j :=
  fun hj => hne (h.one j i hj hi)

end Guards
