/-
# The speed test of the allocators

Translation of `Labs/CP/src/cock.cpp`: `run_test`, a template over the allocator, without its timers.
The sizes that `generate_test_sizes` yields are an argument; the calls of the allocator are logged.
The test is a valid client of every allocator that serves, and leaves the best-fit allocator as it
was.
-/
import OSLabs.BestFitBump
import OSLabs.UsageFactorSafety

namespace AllocationTest

open Allocation CallLog

variable {σ : Type}

/-! ## `run_test` -/

/-- The variables of `run_test` and the calls so far. -/
structure Progress (σ : Type) where
  allocator : σ
  ptrs : List ℕ := []
  failedAllocs : ℕ := 0
  log : CallLog := []

/-- `TestResult` without the times, with the allocator and the calls. -/
structure TestResult (σ : Type) where
  operations : ℕ
  failedAllocs : ℕ
  allocator : σ
  log : CallLog

/-- An iteration of the loop that allocates. -/
def request (A : Allocator σ) (t : Progress σ) (size : ℕ) : Option (Progress σ) := do
  let (ptr, allocator) ← A.alloc t.allocator size
  let log := t.log ++ [(.alloc size, some ptr)]
  if ptr ≠ 0 then some { t with allocator := allocator, ptrs := t.ptrs ++ [ptr], log := log }
  else some { t with allocator := allocator, failedAllocs := t.failedAllocs + 1, log := log }

/-- The loop that frees. -/
def releaseAll (A : Allocator σ) : List ℕ → σ → CallLog → Option (σ × CallLog)
  | [], allocator, log => some (allocator, log)
  | ptr :: rest, allocator, log => do
    let allocator ← A.free allocator ptr
    releaseAll A rest allocator (log ++ [(.free ptr, none)])

/-- `run_test`. -/
def runTest (A : Allocator σ) (allocator : σ) (sizes : List ℕ) : Option (TestResult σ) := do
  let t ← sizes.foldlM (request A) { allocator := allocator }
  let (allocator, log) ← releaseAll A t.ptrs t.allocator t.log
  some ⟨sizes.length, t.failedAllocs, allocator, log⟩

/-! ## One iteration -/

section Iterations

variable {A : Allocator σ} {sizeOk : ℕ → Prop} {lo hi : ℕ} {allocator₀ : σ}

/-- The invariant of the loop that allocates: the vector holds the pointers of what the test holds, in
the order of the requests, nothing was freed, and all requests of the log either failed or are in the
vector. -/
structure Progress.Ok (A : Allocator σ) (sizeOk : ℕ → Prop) (allocator₀ : σ) (t : Progress σ)
    (done : List ℕ) : Prop where
  holds : ∃ held, Holds A sizeOk allocator₀ t.log t.allocator held ∧ held.map ptr = t.ptrs
  returned : CallLog.returned t.log = t.ptrs
  freed : CallLog.freed t.log = []
  requests : (CallLog.requests t.log).map Prod.fst = done
  failed : ((CallLog.requests t.log).map Prod.snd).count 0 = t.failedAllocs
  counted : t.failedAllocs + t.ptrs.length = done.length

/-- **A request keeps the invariant.** -/
theorem request_ok (hA : Serves A sizeOk lo hi allocator₀) {t : Progress σ} {done : List ℕ}
    (h : t.Ok A sizeOk allocator₀ done) {size : ℕ} (hsize : sizeOk size) :
    ∃ t', request A t size = some t' ∧ t'.Ok A sizeOk allocator₀ (done ++ [size]) := by
  obtain ⟨held, hholds, hptrs⟩ := h.holds
  obtain ⟨p, allocator', hcall, hnull, hsome⟩ := hholds.alloc hA hsize
  have hcounted := h.counted
  have hrequests : CallLog.requests (t.log ++ [(.alloc size, some p)]) =
      CallLog.requests t.log ++ [(size, p)] := requests_append _ _
  unfold request
  simp only [hcall, Option.bind_eq_bind, Option.bind_some]
  by_cases hp : p = 0
  · rw [if_neg (not_not.mpr hp)]
    refine ⟨_, rfl, ⟨held, hnull hp, hptrs⟩, ?_, ?_, ?_, ?_, ?_⟩
    · simpa [CallLog.returned, hp] using h.returned
    · simpa [CallLog.freed] using h.freed
    · simp only [hrequests, List.map_append, h.requests, List.map_cons, List.map_nil]
    · rw [hrequests]
      simp [h.failed, hp]
    · simp only [List.length_append, List.length_singleton]
      omega
  · rw [if_pos hp]
    have hperm := List.perm_append_singleton (⟨p, size⟩ : Allocation) held
    refine ⟨_, rfl, ⟨held ++ [⟨p, size⟩], (hsome hp).of_perm hperm.symm, ?_⟩, ?_, ?_, ?_, ?_, ?_⟩
    · rw [List.map_append, hptrs]
      rfl
    · simpa [CallLog.returned, hp] using h.returned
    · simpa [CallLog.freed] using h.freed
    · simp only [hrequests, List.map_append, h.requests, List.map_cons, List.map_nil]
    · rw [hrequests]
      simp [h.failed, hp]
    · simp only [List.length_append, List.length_singleton]
      omega

/-- **All requests keep the invariant.** -/
theorem requests_ok (hA : Serves A sizeOk lo hi allocator₀) {sizes : List ℕ}
    (hsizes : ∀ n ∈ sizes, sizeOk n) {t : Progress σ} {done : List ℕ}
    (h : t.Ok A sizeOk allocator₀ done) :
    ∃ t', sizes.foldlM (request A) t = some t' ∧
      t'.Ok A sizeOk allocator₀ (done ++ sizes) := by
  induction sizes generalizing t done with
  | nil => exact ⟨t, rfl, by rwa [List.append_nil]⟩
  | cons n sizes ih =>
      obtain ⟨t', hcall, hok⟩ := request_ok hA h (hsizes n List.mem_cons_self)
      obtain ⟨t'', hrest, hdone⟩ := ih (fun m hm => hsizes m (List.mem_cons_of_mem n hm)) hok
      refine ⟨t'', ?_, ?_⟩
      · rw [List.foldlM_cons, hcall]
        exact hrest
      · rwa [List.append_assoc] at hdone

/-- **Releasing all pointers** returns and leaves nothing; they are freed in their order. -/
theorem releaseAll_ok (hA : Serves A sizeOk lo hi allocator₀) (hpos : ∀ n, sizeOk n → 0 < n)
    {log : CallLog} {allocator : σ} {held : List Allocation}
    (h : Holds A sizeOk allocator₀ log allocator held) :
    ∃ allocator', releaseAll A (held.map ptr) allocator log =
        some (allocator', log ++ (held.map ptr).map fun p => (.free p, none)) ∧
      Holds A sizeOk allocator₀ (log ++ (held.map ptr).map fun p => (.free p, none))
        allocator' [] := by
  induction held generalizing allocator log with
  | nil =>
      refine ⟨allocator, ?_, ?_⟩
      · rw [List.map_nil, List.map_nil, List.append_nil]
        rfl
      · rwa [List.map_nil, List.map_nil, List.append_nil]
  | cons a rest ih =>
      obtain ⟨allocator', hcall, hholds⟩ := h.free hA hpos List.mem_cons_self
      rw [List.erase_cons_head] at hholds
      obtain ⟨allocator'', hrest, hdone⟩ := ih hholds
      rw [List.append_assoc, List.singleton_append] at hrest hdone
      refine ⟨allocator'', ?_, hdone⟩
      rw [List.map_cons, releaseAll, hcall]
      exact hrest

end Iterations

/-! ## The test -/

theorem returned_frees (log : CallLog) (ps : List ℕ) :
    CallLog.returned (log ++ ps.map fun p => (.free p, none)) = CallLog.returned log := by
  induction ps using List.reverseRecOn with
  | nil => rw [List.map_nil, List.append_nil]
  | append_singleton ps p ih =>
      rw [List.map_append, ← List.append_assoc, CallLog.returned, List.filterMap_append]
      rw [CallLog.returned] at ih
      rw [ih]
      exact List.append_nil _

theorem requests_frees (log : CallLog) (ps : List ℕ) :
    CallLog.requests (log ++ ps.map fun p => (.free p, none)) = CallLog.requests log := by
  induction ps using List.reverseRecOn with
  | nil => rw [List.map_nil, List.append_nil]
  | append_singleton ps p ih =>
      rw [List.map_append, ← List.append_assoc, List.map_singleton, requests_append, ih]
      exact List.append_nil _

theorem freed_frees (log : CallLog) (ps : List ℕ) :
    CallLog.freed (log ++ ps.map fun p => (.free p, none)) = CallLog.freed log ++ ps := by
  induction ps using List.reverseRecOn with
  | nil => rw [List.map_nil, List.append_nil, List.append_nil]
  | append_singleton ps p ih =>
      rw [List.map_append, ← List.append_assoc, CallLog.freed, List.filterMap_append]
      rw [CallLog.freed] at ih
      rw [ih, List.append_assoc]
      rfl

/-- The test was a valid client: every request was made, in the given order, and failed or returned a
pointer; exactly the returned pointers were freed, in the order in which they were returned, each when
it was live; nothing is live in the end, and the allocator serves again. -/
structure ValidRun (A : Allocator σ) (sizeOk : ℕ → Prop) (lo hi : ℕ) (allocator : σ)
    (sizes : List ℕ) (r : TestResult σ) : Prop where
  run : Run (Client.Told A sizeOk) ⟨allocator, []⟩ r.log ⟨r.allocator, []⟩
  operations : r.operations = sizes.length
  counted : r.failedAllocs + (returned r.log).length = r.operations
  freesLive : FreesLive r.log
  freesInOrder : freed r.log = returned r.log
  serves : Serves A sizeOk lo hi r.allocator

/-- What `run_test` does. -/
theorem runTest_spec {A : Allocator σ} {sizeOk : ℕ → Prop} {lo hi : ℕ} {allocator : σ}
    {sizes : List ℕ} (hA : Serves A sizeOk lo hi allocator) (hpos : ∀ n, sizeOk n → 0 < n)
    (hsizes : ∀ n ∈ sizes, sizeOk n) :
    ∃ (t : Progress σ) (allocator' : σ), t.Ok A sizeOk allocator sizes ∧
      let r : TestResult σ := ⟨sizes.length, t.failedAllocs, allocator',
        t.log ++ t.ptrs.map fun p => (.free p, none)⟩
      runTest A allocator sizes = some r ∧ ValidRun A sizeOk lo hi allocator sizes r := by
  have hstart : Progress.Ok A sizeOk allocator { allocator := allocator } [] :=
    ⟨⟨[], .nil, rfl⟩, rfl, rfl, rfl, rfl, rfl⟩
  obtain ⟨t, hloop, hok⟩ := requests_ok hA hsizes hstart
  rw [List.nil_append] at hok
  obtain ⟨held, hholds, hptrs⟩ := hok.holds
  obtain ⟨allocator', hrelease, hdone⟩ := releaseAll_ok hA hpos hholds
  rw [hptrs] at hrelease hdone
  have hrun := hdone.run
  rw [List.perm_nil.mp hdone.perm] at hrun
  refine ⟨t, allocator', hok, ?_, hrun, rfl, ?_, hdone.frees, ?_,
    hA.of_run (Client.run_of_told hrun)⟩
  · rw [runTest, hloop]
    simp only [Option.bind_eq_bind, Option.bind_some, hrelease]
  · dsimp only
    rw [returned_frees, hok.returned]
    exact hok.counted
  · dsimp only
    rw [freed_frees, returned_frees, hok.freed, hok.returned, List.nil_append]

/-- **`run_test` is a valid client** of every allocator that serves, for all sizes: every request is
counted as a failure or its pointer is freed, once and while it is live. -/
theorem run_test_is_a_valid_client {A : Allocator σ} {sizeOk : ℕ → Prop} {lo hi : ℕ} {allocator : σ}
    {sizes : List ℕ} (hA : Serves A sizeOk lo hi allocator) (hpos : ∀ n, sizeOk n → 0 < n)
    (hsizes : ∀ n ∈ sizes, sizeOk n) :
    ∃ r, runTest A allocator sizes = some r ∧ ValidRun A sizeOk lo hi allocator sizes r := by
  obtain ⟨t, allocator', -, hrun, hvalid⟩ := runTest_spec hA hpos hsizes
  exact ⟨_, hrun, hvalid⟩

/-! ## On the best-fit allocator -/

/-- A log without releases. -/
theorem ne_free_of_freed {log : CallLog} (h : freed log = []) :
    ∀ x ∈ log, ∀ p, x.1 = .free p → p = 0 := by
  rintro ⟨e, r⟩ hx p heq
  dsimp only at heq
  subst heq
  have hnone := List.filterMap_eq_nil_iff.mp h _ hx
  cases hnone

/-- **On the best-fit allocator** the test gets its pointers from one end of the region to the other,
fails exactly where too little is left, and leaves one free block, as at the start. -/
theorem run_test_leaves_best_fit_as_it_was {memory memorySize : ℕ}
    (hmap : IsMapping memory (BestFit.BestFitAllocator.requestedSize memorySize))
    {s : BestFit.BestFitAllocator}
    (hs : BestFit.BestFitAllocator.construct (some memory) memorySize = some s) {sizes : List ℕ}
    (hsizes : ∀ n ∈ sizes, 0 < n ∧ n + 39 < BestFit.wordSize) :
    ∃ r, runTest BestFit.allocator s sizes = some r ∧
      (let answers := BestFit.Bump.answers
        ⟨memory, BestFit.BestFitAllocator.requestedSize memorySize⟩ sizes
      r.failedAllocs = answers.count 0 ∧ (requests r.log).map Prod.snd = answers) ∧
      BestFit.blockList r.allocator = BestFit.blockList s := by
  have hserves := (UsageFactor.serves_bestFit hmap hs).mono
    (fun n (hn : 0 < n ∧ n + 39 < BestFit.wordSize) => hn.2) le_rfl
  obtain ⟨t, allocator', hok, hrun, hvalid⟩ := runTest_spec hserves (fun n hn => hn.1) hsizes
  obtain ⟨held, hholds, -⟩ := hok.holds
  have hwords : ∀ (c : Client BestFit.BestFitAllocator) l c',
      Client.Told BestFit.allocator (fun n => 0 < n ∧ n + 39 < BestFit.wordSize) c l c' →
      Client.Told BestFit.allocator (fun n => n + 39 < BestFit.wordSize) c l c' :=
    fun _ _ _ ⟨hst, hanswer⟩ => ⟨hst.mono fun _ hn => hn.2, hanswer⟩
  have hstart : BestFit.Start memory memorySize ⟨s, []⟩ := ⟨hs, rfl⟩
  refine ⟨_, hrun, ⟨?_, ?_⟩, ?_⟩
  · obtain ⟨hanswers, -⟩ := BestFit.packed_of_run hmap hstart (hholds.run.mono hwords)
      (ne_free_of_freed hok.freed)
    rw [hok.requests] at hanswers
    dsimp only
    rw [← hanswers, hok.failed]
  · obtain ⟨hanswers, -⟩ := BestFit.packed_of_run hmap hstart (hholds.run.mono hwords)
      (ne_free_of_freed hok.freed)
    rw [hok.requests] at hanswers
    dsimp only
    rw [requests_frees, ← hanswers]
  · obtain ⟨l, hinv⟩ := BestFit.inv_of_reachable hmap
      ⟨_, _, hstart, Client.run_of_told (hvalid.run.mono hwords)⟩
    rw [hinv.blockList_of_nothing_live hmap rfl,
      (BestFit.inv_of_construct hmap hs).blockList_of_nothing_live hmap rfl]

/-! ## The test that the program runs -/

/-- The size of the two mappings of `main`. -/
abbrev memorySize : ℕ := 32 * 1024 * 1024

/-- The mapping of `main` at an address. -/
theorem isMapping_main :
    IsMapping 4096 (BestFit.BestFitAllocator.requestedSize memorySize) :=
  ⟨by decide, by decide, by decide, by decide⟩

theorem run_test_is_a_valid_client_both :
    (∃ s lo, McKusick.McKusickAllocator.construct (some 4096) memorySize = some s ∧
      ∃ r, runTest McKusick.allocator s [32, 160] = some r ∧
        ValidRun McKusick.allocator (fun n => 0 < n ∧ n < McKusick.wordSize) lo
          (lo + McKusick.McKusickAllocator.requestedPages memorySize * 4096) s [32, 160] r) ∧
    ∃ s, BestFit.BestFitAllocator.construct (some 4096) memorySize = some s ∧
      ∃ r, runTest BestFit.allocator s [32, 160] = some r ∧
        ValidRun BestFit.allocator (fun n => 0 < n ∧ n + 39 < BestFit.wordSize) 4096
          (4096 + BestFit.BestFitAllocator.requestedSize memorySize) s [32, 160] r := by
  constructor
  · obtain ⟨s, hs⟩ : ∃ s, McKusick.McKusickAllocator.construct (some 4096) memorySize = some s :=
      ⟨_, rfl⟩
    obtain ⟨lo, hserves⟩ := UsageFactor.serves_mcKusick
      ⟨by decide, by decide, ⟨by decide, by decide, by decide, by decide⟩⟩ hs
    refine ⟨s, lo, hs, run_test_is_a_valid_client (hserves.mono (fun n hn => hn.2) le_rfl)
      (fun n hn => hn.1) ?_⟩
    intro n hn
    simp only [List.mem_cons, List.not_mem_nil, or_false] at hn
    rcases hn with rfl | rfl
    · exact ⟨by decide, by decide⟩
    · exact ⟨by decide, by decide⟩
  · obtain ⟨s, hs⟩ : ∃ s, BestFit.BestFitAllocator.construct (some 4096) memorySize = some s :=
      ⟨_, rfl⟩
    have hserves := UsageFactor.serves_bestFit isMapping_main hs
    refine ⟨s, hs, run_test_is_a_valid_client (hserves.mono (fun n hn => hn.2) le_rfl)
      (fun n hn => hn.1) ?_⟩
    intro n hn
    simp only [List.mem_cons, List.not_mem_nil, or_false] at hn
    rcases hn with rfl | rfl
    · exact ⟨by decide, by decide⟩
    · exact ⟨by decide, by decide⟩

/-- Requests of a page of one page: the third no longer fits. -/
theorem run_test_leaves_best_fit_as_it_was_one_page :
    ∃ s, BestFit.BestFitAllocator.construct (some 4096) 4096 = some s ∧
      ∃ r, runTest BestFit.allocator s [1000, 2000, 4000, 900] = some r ∧
        (let answers := BestFit.Bump.answers
          ⟨4096, BestFit.BestFitAllocator.requestedSize 4096⟩ [1000, 2000, 4000, 900]
        r.failedAllocs = answers.count 0 ∧ (requests r.log).map Prod.snd = answers) ∧
        BestFit.blockList r.allocator = BestFit.blockList s := by
  obtain ⟨s, hs⟩ : ∃ s, BestFit.BestFitAllocator.construct (some 4096) 4096 = some s := ⟨_, rfl⟩
  refine ⟨s, hs, run_test_leaves_best_fit_as_it_was BestFit.isMapping_one_page hs ?_⟩
  intro n hn
  simp only [List.mem_cons, List.not_mem_nil, or_false] at hn
  rcases hn with rfl | rfl | rfl | rfl
  · exact ⟨by decide, by decide⟩
  · exact ⟨by decide, by decide⟩
  · exact ⟨by decide, by decide⟩
  · exact ⟨by decide, by decide⟩

end AllocationTest
