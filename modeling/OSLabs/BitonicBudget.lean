/-
# The thread budget of the bitonic sort

`active_threads` counts the reservations of all running calls: two threads for a parallel split of
`bitonicSort`, one for a parallel split of `bitonicMerge`.  In every interleaving it stays between
the number of created threads and the limit, and it is 0 again in the end.
-/
import OSLabs.ForkJoinBudget
import OSLabs.BitonicThreads

namespace BitonicSort

/-! ## The calls keep the discipline -/

/-- The label of a locked section is the number of threads that it reserves. -/
abbrev split (r : ℕ) : ℕ := r

section Discipline

variable {low cnt k m : ℕ} {dir : ℤ}

theorem fresh_halvesTask : (halvesTask low k dir).Fresh split m := by
  apply Prog.fresh_block
  intro p hp
  obtain ⟨i, -, rfl⟩ := List.mem_map.mp hp
  exact .act m _

/-- `bitonicMerge` creates the thread it has reserved. -/
theorem fresh_mergeTask : (mergeTask low cnt dir).Fresh split m := by
  induction cnt using Nat.strong_induction_on generalizing low m with
  | _ cnt ih =>
      rw [mergeTask]
      split_ifs with hcnt
      · have hhalf : cnt / 2 < cnt := by omega
        refine .seq fresh_halvesTask ?_
        split_ifs
        · exact .seq (ih _ hhalf) (ih _ hhalf)
        · -- one half in a new thread, the other in the caller
          refine .test ?_ (.seq (ih _ hhalf) (ih _ hhalf))
          exact .spawn (ih _ hhalf) (ih _ hhalf)
      · exact .skip m

/-- `bitonicSort` creates the two threads it has reserved. -/
theorem fresh_sortTask : (sortTask low cnt dir).Fresh split m := by
  induction cnt using Nat.strong_induction_on generalizing low dir m with
  | _ cnt ih =>
      rw [sortTask]
      split_ifs with hcnt
      · have hhalf : cnt / 2 < cnt := by omega
        refine .seq (.test ?_ (.seq (ih _ hhalf) (ih _ hhalf))) fresh_mergeTask
        -- both halves in new threads; the caller only joins them
        exact .spawn (ih _ hhalf) (.spawn (ih _ hhalf) (.skip 0))
      · exact .skip m

/-! ## Peaks of the calls -/

theorem peak_halvesTask : (halvesTask low k dir).peak split = 0 := by
  apply Prog.peak_block
  intro p hp
  obtain ⟨i, -, rfl⟩ := List.mem_map.mp hp
  rfl

/-- The splits of `bitonicMerge` form a binary tree of reservations of 1. -/
theorem peak_mergeTask (hcnt : cnt < 2 ^ (m + 1)) :
    (mergeTask low cnt dir).peak split + 1 ≤ 2 ^ m := by
  induction m generalizing low cnt with
  | zero =>
      rw [mergeTask, if_neg (by omega)]
      exact le_rfl
  | succ m ih =>
      have hpow : 2 ^ (m + 1) = 2 * 2 ^ m := Nat.pow_succ'
      have hpow' : 2 ^ (m + 1 + 1) = 2 * 2 ^ (m + 1) := Nat.pow_succ'
      have hleft := @ih low (cnt / 2) (by omega)
      have hright := @ih (low + cnt / 2) (cnt / 2) (by omega)
      have hpending : (mergeTask (low + cnt / 2) (cnt / 2) dir).pending split = 0 :=
        (fresh_mergeTask (m := 0)).pending_eq
      rw [mergeTask]
      by_cases hone : cnt > 1
      · rw [if_pos hone]
        by_cases hsmall : cnt / 2 < 1024
        · simp only [hsmall, if_true, Prog.peak, Prog.pending_seq, peak_halvesTask, hpending]
          omega
        · -- Both halves may hold their own peaks while this call still holds its 1.
          simp only [hsmall, if_false, Prog.peak, Prog.pending_test, Prog.pending_lock,
            peak_halvesTask, hpending, split]
          omega
      · rw [if_neg hone]
        exact Nat.one_le_two_pow

/-- The splits of `bitonicSort` form a binary tree of reservations of 2. -/
theorem peak_sortTask (hcnt : cnt < 2 ^ (m + 1)) :
    (sortTask low cnt dir).peak split + 2 ≤ 2 ^ (m + 1) := by
  induction m generalizing low cnt dir with
  | zero =>
      rw [sortTask, if_neg (by omega)]
      exact le_rfl
  | succ m ih =>
      have hpow : 2 ^ (m + 1) = 2 * 2 ^ m := Nat.pow_succ'
      have hpow' : 2 ^ (m + 1 + 1) = 2 * 2 ^ (m + 1) := Nat.pow_succ'
      have hleft := @ih low (cnt / 2) 1 (by omega)
      have hright := @ih (low + cnt / 2) (cnt / 2) 0 (by omega)
      have hmerge : (mergeTask low cnt dir).peak split + 1 ≤ 2 ^ (m + 1) := peak_mergeTask hcnt
      have hpending : (sortTask (low + cnt / 2) (cnt / 2) 0).pending split = 0 :=
        (fresh_sortTask (m := 0)).pending_eq
      have hpending' : (mergeTask low cnt dir).pending split = 0 :=
        (fresh_mergeTask (m := 0)).pending_eq
      rw [sortTask]
      by_cases hone : cnt > 1
      · rw [if_pos hone]
        simp only [Prog.peak, Prog.pending_lock, hpending, hpending', split]
        omega
      · rw [if_neg hone]
        show 0 + 2 ≤ 2 ^ (m + 1 + 1)
        have hpos : 0 < 2 ^ m := Nat.two_pow_pos m
        omega

end Discipline

/-- The program's own sections keep the budget `max_threads`. -/
theorem budgeted (maxThreads : ℤ) : (system (budget maxThreads)).Budgeted split maxThreads where
  grant := by
    rintro r c c' ⟨hgrant, rfl⟩
    exact ⟨rfl, of_decide_eq_true hgrant.symm⟩
  refuse := by
    rintro r c c' ⟨-, rfl⟩
    rfl
  release := by
    rintro r c c' rfl
    rfl

/-- The root call has reserved nothing. -/
theorem kept_rootCall (maxThreads : ℤ) (arr : Array ℤ) :
    ForkJoin.Kept split maxThreads (rootCall arr) where
  runs := fresh_sortTask.runs
  held := by
    rw [show (rootCall arr).prog = sortTask 0 arr.size 1 from rfl,
      (fresh_sortTask (m := 0)).held_eq]
    rfl
  limit := le_max_left _ _

/-! ## The budget -/

/-- `active_threads` in a state of the sort that the events `es` led to. -/
structure BudgetKept (maxThreads : ℤ) (es : List (Prog.Event Comparison ℕ))
    (x : ForkJoin.Config Comparison ℕ (Array ℤ) ℤ) : Prop where
  history : x.ctrl + (es.map fun e => e.released split).sum = (es.map fun e => e.reserved split).sum
  held : x.ctrl = x.prog.held split
  nonneg : 0 ≤ x.ctrl
  limit : x.ctrl ≤ max 0 maxThreads
  threads : x.prog.threads ≤ x.ctrl
  finished : x.prog = .skip → x.ctrl = 0

/-- **The thread budget is respected.**  In every interleaving of the calls of a sort
`active_threads` is the sum of the reservations made and not yet released, it is at least the
number of created threads that have not finished, at most `max_threads` unless that is negative,
and 0 when the root call has returned. -/
theorem thread_budget_is_kept {maxThreads : ℤ} {arr : Array ℤ}
    {es : List (Prog.Event Comparison ℕ)} {x : ForkJoin.Config Comparison ℕ (Array ℤ) ℤ}
    (h : Run (system (budget maxThreads)).Step (rootCall arr) es x) :
    BudgetKept maxThreads es x := by
  obtain ⟨hkept, hsum⟩ := (budgeted maxThreads).kept_run h (kept_rootCall maxThreads arr)
  have hheld := hkept.held
  constructor
  · rw [hsum]
    exact Int.zero_add _
  · exact hheld
  · rw [hheld]
    exact Int.natCast_nonneg _
  · exact hkept.limit
  · rw [hheld]
    have hle := hkept.runs.threads_le
    omega
  · intro hdone
    rw [hheld, hdone]
    rfl

/-- **`active_threads` does not overflow.**  Whatever `max_threads` is, a section that compares
`active_threads + r` with it computes a sum that fits in an `int`. -/
theorem active_threads_fits {maxThreads : ℤ} {arr : Array ℤ} {r : ℕ} {o : Bool}
    {es : List (Prog.Event Comparison ℕ)} {x y : ForkJoin.Config Comparison ℕ (Array ℤ) ℤ}
    (hsize : arr.size < 2 ^ 31) (h : Run (system (budget maxThreads)).Step (rootCall arr) es x)
    (hst : (system (budget maxThreads)).Step x (.test r o) y) : x.ctrl + r < 2 ^ 31 := by
  obtain ⟨hkept, -⟩ := (budgeted maxThreads).kept_run h (kept_rootCall maxThreads arr)
  have hroom := hst.prog.held_add_le_peak hkept.runs
  have hpeak : x.prog.peak split ≤ (rootCall arr).prog.peak split := ForkJoin.peak_le_of_run h
  have hroot : (rootCall arr).prog.peak split + 2 ≤ 2 ^ 31 := peak_sortTask hsize
  have hheld := hkept.held
  -- What is held, together with what the section asks for, is at most the peak of the root call.
  have hsplit : split r = r := rfl
  omega

/-- Two elements with two threads: the root call reserves both. -/
theorem thread_budget_is_kept_two :
    ∃ x, Run (system (budget 2)).Step (rootCall #[2, 1]) [.test 2 true] x ∧ x.ctrl = 2 ∧
      BudgetKept 2 [.test 2 true] x := by
  have hstep : (system (budget 2)).Step (rootCall #[2, 1]) (.test 2 true)
      ⟨.seq (.seq (.spawn (sortTask 0 1 1) (.spawn (sortTask 1 1 0) .skip)) (.lock 2))
        (mergeTask 0 2 1), #[2, 1], 2⟩ := by
    refine ⟨?_, rfl, rfl, rfl⟩
    show (sortTask 0 2 1).Step _ _
    rw [sortTask, if_pos (by decide)]
    exact .seqLeft (.testTrue _ _ _)
  exact ⟨_, .single hstep, rfl, thread_budget_is_kept (.single hstep)⟩

end BitonicSort
