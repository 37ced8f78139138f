/-
# The usage-factor tests are valid clients

Over an allocator that serves from a region of 16 pages, every test frees only live pointers and
each returned pointer once, whatever the generators yield, and the figure it computes is the peak
of what was live.  The peak fits in the region, so no figure exceeds 100 percent.
-/
import OSLabs.CountedLoop
import OSLabs.UsageFactor
import OSLabs.McKusickSafety
import OSLabs.BestFitSafety

namespace UsageFactor

open Allocation CallLog

variable {σ : Type}

/-- The sizes that the tests ask for. -/
def TestSize (n : ℕ) : Prop := 8 ≤ n ∧ n ≤ 1024

theorem TestSize.pos (n : ℕ) (h : TestSize n) : 0 < n := by
  obtain ⟨hlow, -⟩ := h
  omega

theorem RandomSize.testSize (d : RandomSize) : TestSize d.val := ⟨d.low, d.high⟩

theorem RandomPower.testSize (d : RandomPower) : TestSize (1 <<< d.val) := by
  obtain ⟨p, hlow, hhigh⟩ := d
  rw [TestSize, Nat.one_shiftLeft]
  have hlow' : 2 ^ 3 ≤ 2 ^ p := Nat.pow_le_pow_right (by norm_num) hlow
  have hhigh' : 2 ^ p ≤ 2 ^ 10 := Nat.pow_le_pow_right (by norm_num) hhigh
  exact ⟨hlow', hhigh'⟩

/-- The allocator serves the tests from a region of 16 pages at `lo`. -/
abbrev ServesTests (A : Allocator σ) (lo : ℕ) (allocator : σ) : Prop :=
  Serves A TestSize lo (lo + totalAllocated) allocator

/-- Replacing an entry exchanges it with the new one. -/
theorem perm_set {v : List Allocation} {index : ℕ} (h : index < v.length) (a : Allocation) :
    (v[index] :: v.set index a).Perm (a :: v) := by
  have hset : (v.set index a).Perm (a :: v.eraseIdx index) := List.set_perm_cons_eraseIdx h a
  have herase : (v[index] :: v.eraseIdx index).Perm v := List.getElem_cons_eraseIdx_perm h
  exact (hset.cons _).trans ((List.Perm.swap _ _ _).trans (herase.cons a))

/-- The vector is the entry at `index` together with what is left without it. -/
theorem perm_swapRemove {v : List Allocation} {index : ℕ} (h : index < v.length) :
    (v[index] :: swapRemove v index).Perm v := by
  rcases List.eq_nil_or_concat' v with rfl | ⟨init, last, rfl⟩
  · exact absurd h (Nat.not_lt_zero _)
  rw [swapRemove, List.getLastD_concat]
  by_cases hi : index < init.length
  · rw [List.set_append_left _ _ hi, List.dropLast_concat, List.getElem_append_left hi]
    exact (perm_set hi last).trans (List.perm_append_singleton last init).symm
  · -- the last entry replaces itself
    rw [List.length_append, List.length_singleton] at h
    obtain rfl : index = init.length := by omega
    rw [List.set_append_right _ _ le_rfl, Nat.sub_self, List.set_cons_zero, List.dropLast_concat,
      List.getElem_concat_length rfl]
    exact (List.perm_append_singleton last init).symm

/-! ## One iteration -/

section Iterations

variable {A : Allocator σ} {lo : ℕ} {allocator₀ : σ}

/-- The invariant of the test with deallocations: the vector is what the test holds, `current_used`
is the sum of its sizes, and `max_used` is the peak. -/
structure Progress.Ok (A : Allocator σ) (allocator₀ : σ) (t : Progress σ) : Prop where
  holds : Holds A TestSize allocator₀ t.log t.allocator t.activeAllocations
  used : t.currentUsed = total t.activeAllocations
  peak : IsPeak t.maxUsed t.log
  capacity : t.maxUsed ≤ totalAllocated

/-- What the test holds fits in the region. -/
theorem total_le_totalAllocated (hA : ServesTests A lo allocator₀) {log : CallLog} {allocator : σ}
    {held : List Allocation} (h : Holds A TestSize allocator₀ log allocator held) :
    total held ≤ totalAllocated := by
  have hle := h.total_le hA
  omega

/-- The branch that frees.  The size that is subtracted is one of the summands, so the subtraction
does not wrap. -/
theorem Progress.Ok.free (hA : ServesTests A lo allocator₀) {t : Progress σ}
    (h : t.Ok A allocator₀) {index : ℕ} (hindex : index < t.activeAllocations.length) :
    ∃ allocator', A.free t.allocator t.activeAllocations[index].ptr = some allocator' ∧
      Progress.Ok A allocator₀ { t with
        allocator := allocator'
        activeAllocations := swapRemove t.activeAllocations index
        currentUsed := (t.currentUsed + wordSize - t.activeAllocations[index].size) % wordSize
        log := t.log ++ [(.free t.activeAllocations[index].ptr, none)] } := by
  have hfit := total_le_totalAllocated hA h.holds
  have hused := h.used
  have hperm := perm_swapRemove hindex
  have htotal : t.activeAllocations[index].size + total (swapRemove t.activeAllocations index)
      = total t.activeAllocations := by
    rw [← total_cons, total_perm hperm]
  obtain ⟨allocator', hcall, hholds⟩ := h.holds.free hA TestSize.pos (List.getElem_mem hindex)
  have hrest : (t.activeAllocations.erase t.activeAllocations[index]).Perm
      (swapRemove t.activeAllocations index) := by
    have herase := hperm.symm.erase t.activeAllocations[index]
    rwa [List.erase_cons_head] at herase
  have hholds' := hholds.of_perm hrest
  have hpeak := h.holds.isPeak_of_le hholds' (by omega) h.peak
  refine ⟨allocator', hcall, hholds', ?_, hpeak, h.capacity⟩
  -- `hfit` keeps the sum far below `2 ^ 64`
  simp only [totalAllocated, wordSize] at hfit ⊢
  omega

/-- The branch that allocates. -/
theorem Progress.Ok.alloc (hA : ServesTests A lo allocator₀) {t : Progress σ}
    (h : t.Ok A allocator₀) {size : ℕ} (hsize : TestSize size) :
    ∃ ptr allocator', A.alloc t.allocator size = some (ptr, allocator') ∧
      (ptr = 0 → Progress.Ok A allocator₀ { t with
        allocator := allocator'
        log := t.log ++ [(.alloc size, some ptr)] }) ∧
      (ptr ≠ 0 → Progress.Ok A allocator₀ {
        allocator := allocator'
        activeAllocations := t.activeAllocations ++ [⟨ptr, size⟩]
        currentUsed := (t.currentUsed + size) % wordSize
        maxUsed := max t.maxUsed ((t.currentUsed + size) % wordSize)
        log := t.log ++ [(.alloc size, some ptr)] }) := by
  obtain ⟨ptr, allocator', hcall, hnull, hsome⟩ := h.holds.alloc hA hsize
  refine ⟨ptr, allocator', hcall, ?_, ?_⟩
  · intro hp
    have hholds := hnull hp
    exact ⟨hholds, h.used, h.holds.isPeak_of_le hholds le_rfl h.peak, h.capacity⟩
  · intro hp
    have hholds := (hsome hp).of_perm
      (List.perm_append_singleton (⟨ptr, size⟩ : Allocation) t.activeAllocations).symm
    have hfit := total_le_totalAllocated hA hholds
    have hused : (t.currentUsed + size) % wordSize
        = total (t.activeAllocations ++ [⟨ptr, size⟩]) := by
      have htotal := total_perm (List.perm_append_singleton (⟨ptr, size⟩ : Allocation)
        t.activeAllocations)
      rw [total_cons, ← h.used] at htotal
      simp only [totalAllocated, wordSize] at hfit htotal ⊢
      omega
    refine ⟨hholds, hused, ?_, ?_⟩
    · rw [hused]
      exact hholds.isPeak_max h.peak
    · rw [hused]
      exact max_le h.capacity hfit

/-- **An operation keeps the invariant**, whatever the generators yield. -/
theorem operation_ok (hA : ServesTests A lo allocator₀) {t : Progress σ}
    (h : t.Ok A allocator₀) (d : Draws) : ∃ t', operation A t d = some t' ∧ t'.Ok A allocator₀ := by
  unfold operation
  by_cases hfree : (!t.activeAllocations.isEmpty && d.belowProbability) = true
  · have hlen : 0 < t.activeAllocations.length := by
      rw [Bool.and_eq_true, Bool.not_eq_true', List.isEmpty_eq_false_iff] at hfree
      exact List.length_pos_iff.mpr hfree.1
    have hindex := d.index_lt _ hlen
    obtain ⟨allocator', hcall, hok⟩ := h.free hA hindex
    have hget := List.getD_eq_getElem t.activeAllocations ⟨0, 0⟩ hindex
    simp only [hfree, if_true, hget, hcall]
    exact ⟨_, rfl, hok⟩
  · obtain ⟨ptr, allocator', hcall, hnull, hsome⟩ := h.alloc hA d.size.testSize
    simp only [hfree, hcall, Option.bind_eq_bind, Option.bind_some]
    by_cases hp : ptr = 0
    · simp only [hp, ne_eq, not_true_eq_false, if_false]
      exact ⟨_, rfl, hp ▸ hnull hp⟩
    · simp only [hp, ne_eq, not_false_eq_true, if_true]
      exact ⟨_, rfl, hsome hp⟩

/-- **Every number of operations keeps the invariant.** -/
theorem operations_ok (hA : ServesTests A lo allocator₀) (draws : List Draws) :
    ∃ t, operations A draws allocator₀ = some t ∧ t.Ok A allocator₀ :=
  exists_foldlM (I := Progress.Ok A allocator₀) (fun _ ht d _ => operation_ok hA ht d)
    ⟨.nil, rfl, isPeak_nil, Nat.zero_le _⟩

/-- The invariant of the tests without deallocations: `total_requested` is the sum of all sizes in
the vector, and the peak. -/
structure Requests.Ok (A : Allocator σ) (allocator₀ : σ) (t : Requests σ) : Prop where
  holds : Holds A TestSize allocator₀ t.log t.allocator t.allocations
  used : t.totalRequested = total t.allocations
  peak : IsPeak t.totalRequested t.log

/-- **A request keeps the invariant.** -/
theorem request_ok (hA : ServesTests A lo allocator₀) {t : Requests σ} (h : t.Ok A allocator₀)
    {size : ℕ} (hsize : TestSize size) :
    ∃ t', request A t size = some t' ∧ t'.Ok A allocator₀ := by
  obtain ⟨ptr, allocator', hcall, hnull, hsome⟩ := h.holds.alloc hA hsize
  unfold request
  simp only [hcall, Option.bind_eq_bind, Option.bind_some]
  by_cases hp : ptr = 0
  · have hholds := hnull hp
    rw [if_neg (not_not.mpr hp)]
    exact ⟨_, rfl, hholds, h.used, h.holds.isPeak_of_le hholds le_rfl h.peak⟩
  · have hperm := List.perm_append_singleton (⟨ptr, size⟩ : Allocation) t.allocations
    have hholds := (hsome hp).of_perm hperm.symm
    have hfit := total_le_totalAllocated hA hholds
    have htotal := total_perm hperm
    rw [total_cons, ← h.used] at htotal
    have hused : (t.totalRequested + size) % wordSize
        = total (t.allocations ++ [⟨ptr, size⟩]) := by
      simp only [totalAllocated, wordSize] at hfit htotal ⊢
      omega
    rw [if_pos hp]
    refine ⟨_, rfl, hholds, hused, ?_⟩
    have hpeak := hholds.isPeak_max h.peak
    rwa [max_eq_right (by omega), ← hused] at hpeak

/-- **Releasing what is left** returns and leaves nothing; the peak stays. -/
theorem releaseAll_ok (hA : ServesTests A lo allocator₀) {log : CallLog} {allocator : σ}
    {held : List Allocation} {m : ℕ} (h : Holds A TestSize allocator₀ log allocator held)
    (hm : IsPeak m log) : ∃ allocator' log', releaseAll A held allocator log
      = some (allocator', log') ∧ Holds A TestSize allocator₀ log' allocator' [] ∧
        IsPeak m log' := by
  induction held generalizing allocator log with
  | nil => exact ⟨allocator, log, rfl, h, hm⟩
  | cons a rest ih =>
      obtain ⟨allocator', hcall, hholds⟩ := h.free hA TestSize.pos List.mem_cons_self
      rw [List.erase_cons_head] at hholds
      have hless : total rest ≤ total (a :: rest) := by
        rw [total_cons]
        exact Nat.le_add_left _ _
      obtain ⟨allocator'', log', hrest, hdone⟩ :=
        ih hholds (h.isPeak_of_le hholds hless hm)
      refine ⟨allocator'', log', ?_, hdone⟩
      rw [releaseAll, hcall]
      exact hrest

end Iterations

/-! ## The tests -/

/-- A test that started with the state `allocator` was a valid client: its calls are a run that ends
with nothing live, each pointer it freed was live at that moment, the pointers it freed are those it
was returned, with the same multiplicities, and its figure is the peak of what was live, which fits
in the region.  The allocator serves the next test. -/
structure ValidTest (A : Allocator σ) (lo : ℕ) (allocator : σ) (r : Result σ) : Prop where
  run : Run (Client.Told A TestSize) ⟨allocator, []⟩ r.log ⟨r.allocator, []⟩
  freesLive : FreesLive r.log
  freesOnce : (freed r.log).Perm (returned r.log)
  peak : IsPeak r.used r.log
  capacity : r.used ≤ totalAllocated
  figure : r.usageFactor ≤ 100
  serves : ServesTests A lo r.allocator

/-- All three tests on the allocator are valid clients, and so is every prefix of the main loop of
the first, in which `current_used` is the sum of the sizes of the active allocations. -/
structure ValidTests (A : Allocator σ) (lo : ℕ) (allocator : σ) : Prop where
  operations : ∀ draws, ∃ t, operations A draws allocator = some t ∧
    t.currentUsed = total t.activeAllocations ∧
    (∀ a ∈ t.activeAllocations, a.size ≤ t.currentUsed) ∧
    FreesLive t.log ∧ (liveAfter t.log).Perm t.activeAllocations ∧ IsPeak t.maxUsed t.log
  randomWithDeallocations : ∀ draws, ∃ r,
    testRandomWithDeallocations A allocator draws = some r ∧ ValidTest A lo allocator r
  randomAllocations : ∀ draws, ∃ r,
    testRandomAllocations A allocator draws = some r ∧ ValidTest A lo allocator r
  powerOfTwoAllocations : ∀ draws, ∃ r,
    testPowerOfTwoAllocations A allocator draws = some r ∧ ValidTest A lo allocator r

section Tests

variable {A : Allocator σ} {lo : ℕ} {allocator : σ}

/-- A figure is at most 100 percent when its numerator fits in the region. -/
theorem Result.usageFactor_le {r : Result σ} (h : r.used ≤ totalAllocated) :
    r.usageFactor ≤ 100 := by
  have hused : (r.used : ℚ) ≤ totalAllocated := by exact_mod_cast h
  have hpos : (0 : ℚ) < totalAllocated := by norm_num [totalAllocated]
  have hquot : (r.used : ℚ) / totalAllocated ≤ 1 := (div_le_one hpos).mpr hused
  rw [usageFactor]
  linarith

/-- A test that holds nothing in the end was a valid client. -/
theorem validTest_of_holds (hA : ServesTests A lo allocator) {r : Result σ}
    (h : Holds A TestSize allocator r.log r.allocator []) (hpeak : IsPeak r.used r.log)
    (hle : r.used ≤ totalAllocated) : ValidTest A lo allocator r := by
  have hrun := h.run
  rw [List.perm_nil.mp h.perm] at hrun
  have hreturned := h.returned
  rw [List.map_nil, List.append_nil] at hreturned
  exact ⟨hrun, h.frees, hreturned.symm, hpeak, hle, r.usageFactor_le hle,
    hA.of_run (Client.run_of_told hrun)⟩

/-- The body of the two tests without deallocations. -/
theorem testAllocations_valid (hA : ServesTests A lo allocator) {sizes : List ℕ}
    (hsizes : ∀ n ∈ sizes, TestSize n) :
    ∃ r, testAllocations A allocator sizes = some r ∧ ValidTest A lo allocator r := by
  -- Nothing is freed before the end, so the invariant needs no `max_used` beside the sum.
  obtain ⟨t, hloop, hok⟩ : ∃ t, sizes.foldlM (request A) ⟨allocator, [], 0, []⟩ = some t ∧
      t.Ok A allocator :=
    exists_foldlM (I := Requests.Ok A allocator) (fun _ ht n hn => request_ok hA ht (hsizes n hn))
      ⟨.nil, rfl, isPeak_nil⟩
  obtain ⟨allocator', log, hrelease, hholds, hpeak⟩ := releaseAll_ok hA hok.holds hok.peak
  refine ⟨⟨allocator', t.totalRequested, log⟩, ?_, validTest_of_holds hA hholds hpeak ?_⟩
  · rw [testAllocations, hloop]
    simp only [Option.bind_eq_bind, Option.bind_some, hrelease]
  · have hfit := total_le_totalAllocated hA hok.holds
    rwa [← hok.used] at hfit

/-- **The usage-factor tests are valid clients.**  Over every allocator that serves from a region of
16 pages, for every number of operations and whatever the generators yield, the tests free only live
pointers and each returned pointer once, `current_used` is the sum of the active sizes, `max_used`
is the peak of what was live, and no figure exceeds 100 percent. -/
theorem usage_tests_are_valid_clients (hA : ServesTests A lo allocator) :
    ValidTests A lo allocator := by
  constructor
  · intro draws
    obtain ⟨t, hloop, hok⟩ := operations_ok hA draws
    refine ⟨t, hloop, hok.used, ?_, hok.holds.frees, hok.holds.perm, hok.peak⟩
    intro a ha
    rw [hok.used]
    exact List.single_le_sum (fun _ _ => Nat.zero_le _) _ (List.mem_map_of_mem ha)
  · intro draws
    obtain ⟨t, hloop, hok⟩ := operations_ok hA draws
    obtain ⟨allocator', log, hrelease, hholds, hpeak⟩ := releaseAll_ok hA hok.holds hok.peak
    refine ⟨⟨allocator', t.maxUsed, log⟩, ?_, validTest_of_holds hA hholds hpeak hok.capacity⟩
    rw [testRandomWithDeallocations, hloop]
    simp only [Option.bind_eq_bind, Option.bind_some, hrelease]
  · intro draws
    apply testAllocations_valid hA
    intro n hn
    obtain ⟨d, -, rfl⟩ := List.mem_map.mp hn
    exact d.testSize
  · intro draws
    apply testAllocations_valid hA
    intro n hn
    obtain ⟨d, -, rfl⟩ := List.mem_map.mp hn
    exact d.testSize

end Tests

/-! ## The two allocators -/

/-- The McKusick–Karels allocator serves every request from its mapping. -/
theorem serves_mcKusick {memory memorySize : ℕ} (hargs : McKusick.Args memory memorySize)
    {s : McKusick.McKusickAllocator}
    (hs : McKusick.McKusickAllocator.construct (some memory) memorySize = some s) :
    ∃ lo, Serves McKusick.allocator (· < McKusick.wordSize) lo
      (lo + McKusick.McKusickAllocator.requestedPages memorySize * 4096) s := by
  obtain ⟨base, n, -, hinv⟩ :=
    McKusick.inv_of_construct hargs.word hargs.large hargs.mapping hs
  have hpages : n ≤ McKusick.McKusickAllocator.requestedPages memorySize := by
    have hfuel := hinv.geometry.fuel
    cases hs
    exact hfuel
  have hserves : Serves McKusick.allocator (· < McKusick.wordSize) base (base + 4096 * n) s := by
    apply Serves.of_invariant (I := McKusick.Sound base n)
    · exact ⟨_, _, _, hinv⟩
    · intro c e c' hc hst
      exact hc.step hst
    · intro c hc
      obtain ⟨role, free, bucket, hc⟩ := hc
      exact hc.safeHeap
    · intro c size hc hword
      exact hc.noOverlap.allocReturns size hword
    · intro c hc a ha
      exact hc.noOverlap.freeReturns a ha
  exact ⟨base, hserves.mono (fun _ h => h) (by omega)⟩

/-- The best-fit allocator serves every request whose rounding does not wrap. -/
theorem serves_bestFit {memory memorySize : ℕ}
    (hmap : IsMapping memory (BestFit.BestFitAllocator.requestedSize memorySize))
    {s : BestFit.BestFitAllocator}
    (hs : BestFit.BestFitAllocator.construct (some memory) memorySize = some s) :
    Serves BestFit.allocator (fun size => size + 39 < BestFit.wordSize) memory
      (memory + BestFit.BestFitAllocator.requestedSize memorySize) s := by
  apply Serves.of_invariant (I := fun c => ∃ l,
    BestFit.Inv memory (memory + BestFit.BestFitAllocator.requestedSize memorySize) c l)
  · exact ⟨_, BestFit.inv_of_construct hmap hs⟩
  · intro c e c' hc hst
    exact BestFit.Inv.step hc hst
  · intro c hc
    obtain ⟨l, hc⟩ := hc
    exact hc.safeHeap
  · intro c size hc hword
    obtain ⟨l, hc⟩ := hc
    obtain ⟨p, s', halloc, -⟩ := hc.alloc hword
    rw [show BestFit.allocator.alloc c.heap size = some (p, s') from halloc]
    rfl
  · intro c hc a ha
    rfl

/-- The tests on the two allocators of the default size. -/
theorem usage_tests_are_valid_clients_default :
    (∃ s lo, McKusick.McKusickAllocator.construct (some 4096) 65536 = some s ∧
      ValidTests McKusick.allocator lo s) ∧
    ∃ s, BestFit.BestFitAllocator.construct (some 4096) 65536 = some s ∧
      ValidTests BestFit.allocator 4096 s := by
  constructor
  · obtain ⟨s, hs⟩ : ∃ s, McKusick.McKusickAllocator.construct (some 4096) 65536 = some s :=
      ⟨_, rfl⟩
    obtain ⟨lo, hserves⟩ := serves_mcKusick
      ⟨by decide, by decide, ⟨by decide, by decide, by decide, by decide⟩⟩ hs
    refine ⟨s, lo, hs, usage_tests_are_valid_clients (hserves.mono (fun n hn => ?_) le_rfl)⟩
    obtain ⟨-, hhigh⟩ := hn
    simp only [McKusick.wordSize]
    omega
  · obtain ⟨s, hs⟩ : ∃ s, BestFit.BestFitAllocator.construct (some 4096) 65536 = some s := ⟨_, rfl⟩
    have hserves := serves_bestFit BestFit.isMapping_default hs
    refine ⟨s, hs, usage_tests_are_valid_clients (hserves.mono (fun n hn => ?_) le_rfl)⟩
    obtain ⟨-, hhigh⟩ := hn
    simp only [BestFit.wordSize]
    omega

end UsageFactor
