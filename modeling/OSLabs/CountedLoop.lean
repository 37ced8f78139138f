/-
# Counted loops

The loop `for (i = start; i < bound; ++i) body` over a counter of `w` values.  With a bound that is
itself a counter value the counter never wraps, so the loop ends and runs its body once for every
index, in ascending order.  A loop over a list whose body may fail to return keeps what its body
keeps.
-/
import Mathlib

variable {σ : Type*}

/-- The loop from the index `i` on; `none` when the fuel runs out. -/
def countedLoop (w bound : ℕ) (body : ℕ → σ → σ) : (fuel i : ℕ) → σ → Option σ
  | 0, _, _ => none
  | fuel + 1, i, s =>
    if i < bound then countedLoop w bound body fuel ((i + 1) % w) (body i s) else some s

namespace countedLoop

variable {w bound fuel i : ℕ} {body : ℕ → σ → σ} {s r : σ}

/-- A pass through the loop: the counter does not wrap below the bound. -/
theorem step (hbound : bound < w) (hi : i < bound) :
    countedLoop w bound body (fuel + 1) i s = countedLoop w bound body fuel (i + 1) (body i s) := by
  rw [countedLoop, if_pos hi, Nat.mod_eq_of_lt (by omega)]

/-- **The loop ends** after one pass for each index from `i` to the bound. -/
theorem eq_some (hbound : bound < w) (hfuel : bound - i < fuel) :
    countedLoop w bound body fuel i s =
      some ((List.range' i (bound - i)).foldl (fun s j => body j s) s) := by
  induction fuel generalizing i s with
  | zero => exact absurd hfuel (Nat.not_lt_zero _)
  | succ fuel ih =>
      by_cases hi : i < bound
      · -- One index is done: the list of the remaining ones loses its head.
        rw [step hbound hi, ih (by omega)]
        obtain ⟨k, hk⟩ : ∃ k, bound - i = k + 1 := ⟨bound - i - 1, by omega⟩
        rw [hk, List.range'_succ, List.foldl_cons, show bound - (i + 1) = k by omega]
      · rw [countedLoop, if_neg hi, show bound - i = 0 by omega]
        rfl

/-- Whatever the fuel, a loop that ends has run its body once for each index. -/
theorem eq_of_some (hbound : bound < w) (h : countedLoop w bound body fuel i s = some r) :
    r = (List.range' i (bound - i)).foldl (fun s j => body j s) s := by
  induction fuel generalizing i s with
  | zero => cases h
  | succ fuel ih =>
      by_cases hi : i < bound
      · rw [step hbound hi] at h
        obtain ⟨k, hk⟩ : ∃ k, bound - i = k + 1 := ⟨bound - i - 1, by omega⟩
        rw [ih h, hk, List.range'_succ, List.foldl_cons, show bound - (i + 1) = k by omega]
      · rw [countedLoop, if_neg hi, Option.some_inj] at h
        rw [show bound - i = 0 by omega, ← h]
        rfl

end countedLoop

/-! ## The indices of a loop -/

/-- The body together with a log of the indices it ran for. -/
def logged (body : ℕ → σ → σ) (i : ℕ) (s : σ × List ℕ) : σ × List ℕ :=
  (body i s.1, s.2 ++ [i])

/-- The log of a loop is the list of its indices. -/
theorem foldl_logged (body : ℕ → σ → σ) (is : List ℕ) (s : σ) (log : List ℕ) :
    is.foldl (fun s j => logged body j s) (s, log) =
      (is.foldl (fun s j => body j s) s, log ++ is) := by
  induction is generalizing s log with
  | nil => rw [List.foldl_nil, List.foldl_nil, List.append_nil]
  | cons i is ih =>
      rw [List.foldl_cons, List.foldl_cons, logged, ih, List.append_assoc, List.singleton_append]

/-! ## Loops over a list -/

/-- **Invariant rule.**  A loop returns and keeps an invariant under which its body returns and
keeps it. -/
theorem exists_foldlM {α : Type*} {τ : Type} {body : τ → α → Option τ} {I : τ → Prop} {l : List α}
    (hbody : ∀ t, I t → ∀ a ∈ l, ∃ t', body t a = some t' ∧ I t') {t : τ} (ht : I t) :
    ∃ t', l.foldlM body t = some t' ∧ I t' := by
  induction l generalizing t with
  | nil => exact ⟨t, rfl, ht⟩
  | cons a l ih =>
      obtain ⟨t', hstep, ht'⟩ := hbody t ht a List.mem_cons_self
      obtain ⟨t'', hrest, ht''⟩ :=
        ih (fun t ht b hb => hbody t ht b (List.mem_cons_of_mem a hb)) ht'
      refine ⟨t'', ?_, ht''⟩
      rw [List.foldlM_cons, hstep]
      exact hrest
