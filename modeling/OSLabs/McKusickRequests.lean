/-
# Large requests to the McKusick–Karels allocator

What `alloc` answers to a request for more than one page: the lowest run of free pages that is
long enough, or null when there is none.  Runs are told by the addresses of their pages.
-/
import OSLabs.McKusickSafety

namespace McKusick

open Memory McKusickAllocator

/-! ## Runs of free pages -/

section Runs

variable (s : McKusickAllocator) (free : List ℕ) (k a : ℕ)

/-- There are `k` pages on the list, the first at `a` and each of the others behind the one
before. -/
def FreeRun : Prop := ∀ j < k, ∃ i ∈ free, (s.info i).pageAddr = a + j * pageSize

/-- Page `i` is one of the `k` pages from `a` on. -/
def InRun (i : ℕ) : Prop := a ≤ (s.info i).pageAddr ∧ (s.info i).pageAddr < a + k * pageSize

instance (i : ℕ) : Decidable (InRun s k a i) := inferInstanceAs (Decidable (_ ∧ _))

end Runs

/-- The allocator `s'` is `s` without the lowest run of `k` pages on its free-page list, which
starts at `p`.  The rest of the list keeps its order; no record changes but the links on the list
and those of the run; no bucket changes. -/
structure TakesFirstRun (s : McKusickAllocator) (free : List ℕ) (k p : ℕ) (s' : McKusickAllocator) :
    Prop where
  run : FreeRun s free k p
  lowest : ∀ a, FreeRun s free k a → p ≤ a
  taken : (free.filter fun i => InRun s k p i).length = k
  rest : Linked (links s'.info) s'.freePageInfo (free.filter fun i => ¬ InRun s k p i) none
  data : ∀ i, ¬ InRun s k p i → (s'.info i).data = (s.info i).data
  record : ∀ i, i ∉ free → s'.info i = s.info i
  freelistarr : s'.freelistarr = s.freelistarr
  mem : s'.mem = s.mem

/-- The pointer `p` and the allocator `s'` answer a request for `k` pages to the allocator `s` with
the free pages `free`. -/
structure AnswersFirstFit (s : McKusickAllocator) (free : List ℕ) (k p : ℕ) (s' : McKusickAllocator) :
    Prop where
  null_iff : p = 0 ↔ ∀ a, ¬ FreeRun s free k a
  null_keeps : p = 0 → s' = s
  takes : p ≠ 0 → TakesFirstRun s free k p s'

/-! ## Runs of indices -/

namespace Inv

variable {base n k a f : ℕ} {c : Client McKusickAllocator} {role : ℕ → PageRole}
  {free pre post : List ℕ} {bucket : ℕ → List ℕ}

/-- A page on the free-page list starts where its index says. -/
theorem pageAddr_of_free (h : Inv base n c role free bucket) {i : ℕ} (hi : i ∈ free) :
    (c.heap.info i).pageAddr = base + 4096 * i :=
  (h.roleOk i (h.freeList.bound i hi)).pageAddr

/-- Free pages with adjacent addresses have adjacent indices. -/
theorem freeRun_iff (h : Inv base n c role free bucket) (hk : 0 < k) :
    FreeRun c.heap free k a ↔ ∃ g, a = base + 4096 * g ∧ ∀ j < k, g + j ∈ free := by
  constructor
  · intro hrun
    obtain ⟨g, hg, haddr⟩ := hrun 0 hk
    rw [h.pageAddr_of_free hg] at haddr
    refine ⟨g, by omega, ?_⟩
    intro j hj
    obtain ⟨i, hi, hiaddr⟩ := hrun j hj
    rw [h.pageAddr_of_free hi] at hiaddr
    simp only [pageSize] at hiaddr
    obtain rfl : i = g + j := by omega
    exact hi
  · rintro ⟨g, rfl, hg⟩ j hj
    refine ⟨g + j, hg j hj, ?_⟩
    rw [h.pageAddr_of_free (hg j hj), pageSize]
    omega

/-- Where the run is cut out of the list. -/
theorem inRun_iff (h : Inv base n c role free bucket) {i : ℕ} (hi : i < n) :
    InRun c.heap k (base + 4096 * f) i ↔ i ∈ List.range' f k := by
  rw [InRun, (h.roleOk i hi).pageAddr, List.mem_range'_1, pageSize]
  omega

/-- The pages of a free list that are in a run of it, and the others. -/
theorem filter_inRun (h : Inv base n c role free bucket)
    (hfree : free = pre ++ (List.range' f k ++ post)) :
    (free.filter fun i => InRun c.heap k (base + 4096 * f) i) = List.range' f k ∧
      (free.filter fun i => ¬ InRun c.heap k (base + 4096 * f) i) = pre ++ post := by
  have hnd : (pre ++ (List.range' f k ++ post)).Nodup := hfree ▸ h.freeList.chain.nodup
  obtain ⟨-, hnd', hcross⟩ := List.nodup_append.mp hnd
  obtain ⟨-, -, hcross'⟩ := List.nodup_append.mp hnd'
  have hiff : ∀ i ∈ free, (InRun c.heap k (base + 4096 * f) i ↔ i ∈ List.range' f k) := by
    intro i hi
    exact h.inRun_iff (h.freeList.bound i hi)
  -- The list has no page twice, so a page of the run is not before or behind it.
  have hpre : ∀ i ∈ pre, ¬ InRun c.heap k (base + 4096 * f) i := by
    intro i hi hrun
    have hmem := (hiff i (by simp [hfree, hi])).mp hrun
    exact hcross i hi i (List.mem_append_left _ hmem) rfl
  have hpost : ∀ i ∈ post, ¬ InRun c.heap k (base + 4096 * f) i := by
    intro i hi hrun
    have hmem := (hiff i (by simp [hfree, hi])).mp hrun
    exact hcross' i hmem i hi rfl
  have hmid : ∀ i ∈ List.range' f k, InRun c.heap k (base + 4096 * f) i := by
    intro i hi
    exact (hiff i (hfree ▸ List.mem_append_right _ (List.mem_append_left _ hi))).mpr hi
  subst hfree
  constructor
  · rw [List.filter_append, List.filter_append, List.filter_eq_nil_iff.mpr, List.filter_eq_self.mpr,
      List.filter_eq_nil_iff.mpr, List.nil_append, List.append_nil]
    · exact fun i hi => by simpa using hpost i hi
    · exact fun i hi => by simpa using hmid i hi
    · exact fun i hi => by simpa using hpre i hi
  · rw [List.filter_append, List.filter_append, List.filter_eq_self.mpr, List.filter_eq_nil_iff.mpr,
      List.filter_eq_self.mpr, List.nil_append]
    · exact fun i hi => by simpa using hpost i hi
    · exact fun i hi => by simpa using hmid i hi
    · exact fun i hi => by simpa using hpre i hi

/-- A page outside a run of free pages has an index outside the run. -/
theorem not_mem_of_not_inRun (h : Inv base n c role free bucket) (hmem : ∀ j < k, f + j ∈ free)
    {i : ℕ} (hi : ¬ InRun c.heap k (base + 4096 * f) i) : ¬ (f ≤ i ∧ i < f + k) := by
  rintro ⟨h₁, h₂⟩
  have hin := h.freeList.bound _ (hmem (i - f) (by omega))
  rw [Nat.add_sub_cancel' h₁] at hin
  exact hi ((h.inRun_iff hin).mpr (List.mem_range'_1.mpr ⟨h₁, h₂⟩))

/-- No run of free pages starts below the run at which the search stopped: it would start at a page
that the search passed over. -/
theorem le_of_freeRun (h : Inv base n c role free bucket) (hk : 0 < k)
    (hfree : free = pre ++ (List.range' f k ++ post))
    (hfirst : ∀ g ∈ pre, ∃ j < k, g + j ∉ free) (ha : FreeRun c.heap free k a) :
    base + 4096 * f ≤ a := by
  obtain ⟨g, rfl, hg⟩ := (h.freeRun_iff hk).mp ha
  by_contra hlt
  have hgf : g < f := by omega
  have hsorted := h.freeList.sorted
  have hgfree : g ∈ free := hg 0 hk
  rw [hfree] at hsorted hgfree
  obtain ⟨-, hsorted', -⟩ := List.pairwise_append.mp hsorted
  rcases List.mem_append.mp hgfree with hgpre | hgpost
  · -- The search passed over page `g` because a page of its run was missing.
    obtain ⟨j, hj, hnot⟩ := hfirst g hgpre
    exact hnot (hg j hj)
  -- The rest of the list has no page below `f`.
  rcases List.mem_append.mp hgpost with hgrun | hgpost
  · rw [List.mem_range'_1] at hgrun
    omega
  · have hf : f ∈ List.range' f k := by
      rw [List.mem_range'_1]
      omega
    have hgt := (List.pairwise_append.mp hsorted').2.2 f hf g hgpost
    omega

/-- **What the allocator is left with** when the search has cut out a run. -/
theorem takesFirstRun (h : Inv base n c role free bucket) (size : ℕ) {info : ℕ → PageInfo}
    {head : Option ℕ} (hk : 0 < k) (hfree : free = pre ++ (List.range' f k ++ post))
    (hfirst : ∀ g ∈ pre, ∃ j < k, g + j ∉ free)
    (hF : (c.heap.setPages info head).FreeList n (pre ++ post))
    (hsame : ∀ i, i ∉ free → info i = c.heap.info i)
    (hrest : ∀ i, ¬ (f ≤ i ∧ i < f + k) → (info i).data = (c.heap.info i).data) :
    TakesFirstRun c.heap free k (base + 4096 * f) (c.heap.setPages (Function.update info f
      { info f with size := size, isStartOfBuffer := true }) head) := by
  have hmem : ∀ j < k, f + j ∈ free := by
    intro j hj
    rw [hfree]
    apply List.mem_append_right
    apply List.mem_append_left
    rw [List.mem_range'_1]
    omega
  obtain ⟨htaken, hleft⟩ := h.filter_inRun hfree
  have hne : ∀ i, i ≠ f → Function.update info f
      { info f with size := size, isStartOfBuffer := true } i = info i := by
    intro i hi
    exact Function.update_of_ne hi _ _
  constructor
  · -- the run is on the free list as it was
    exact (h.freeRun_iff hk).mpr ⟨f, rfl, hmem⟩
  · -- and no run of that length starts before it
    intro a ha
    exact h.le_of_freeRun hk hfree hfirst ha
  · rw [htaken, List.length_range']
  · -- what is left is the old list without the run
    rw [hleft]
    apply hF.chain.congr
    intro i hi
    have hif : i ≠ f := by
      intro heq
      rw [← hleft] at hi
      have hout := (List.mem_filter.mp hi).2
      exact h.not_mem_of_not_inRun hmem (by simpa using hout) ⟨heq.ge, by omega⟩
    simp only [links_apply, setPages_info, hne i hif]
  · intro i hi
    have hout := h.not_mem_of_not_inRun hmem hi
    rw [setPages_info, hne i (by omega)]
    exact hrest i hout
  · intro i hi
    have hif : i ≠ f := by
      intro heq
      exact hi (heq ▸ hmem 0 hk)
    rw [setPages_info, hne i hif]
    exact hsame i hi
  · rfl
  · rfl

/-- **A large request is answered first-fit** in every state with the invariant. -/
theorem answersFirstFit (h : Inv base n c role free bucket) {size : ℕ} (hlarge : 4096 < size)
    (hword : size < 2 ^ 64) :
    ∃ p s', c.heap.alloc size = some (p, s') ∧
      AnswersFirstFit c.heap free ((size + 4095) / 4096) p s' := by
  have hk : 0 < (size + 4095) / 4096 := by omega
  rcases h.alloc_large hlarge hword with
    ⟨hnone, hno⟩ | ⟨htwo, pre, f, post, info, head, hfree, hfn, hsome, hfirst, hF, hsame, -, hrest⟩
  · -- also where the page count wraps to 0: no run is as long as the true count
    refine ⟨0, c.heap, hnone, iff_of_true rfl fun a hrun => ?_, fun _ => rfl, fun hp => absurd rfl hp⟩
    obtain ⟨g, -, hg⟩ := (h.freeRun_iff hk).mp hrun
    obtain ⟨j, hj, hnot⟩ := hno g
    exact hnot (hg j hj)
  · have hceil : getRequiredPages size = (size + 4095) / 4096 :=
      getRequiredPages_eq_ceil hword (by omega : getRequiredPages size ≠ 0)
    rw [hceil] at hfree hfirst hrest
    have hbase := h.geometry.base_pos
    have hp : base + 4096 * f ≠ 0 := by omega
    have htakes := h.takesFirstRun size hk hfree hfirst hF hsame hrest
    exact ⟨base + 4096 * f, _, hsome, iff_of_false hp fun hno => hno _ htakes.run,
      fun hzero => absurd hzero hp, fun _ => htakes⟩

end Inv

/-! ## First fit -/

/-- **Large requests are first-fit and complete.**  In every reachable state a request for more
than one page is refused exactly when the free-page list has no run of as many pages as it needs,
and otherwise takes the lowest such run. -/
theorem large_alloc_is_first_fit {memory memorySize : ℕ} (hargs : Args memory memorySize)
    {c : Client McKusickAllocator} (h : Reachable (Start memory memorySize) Step c) {size : ℕ}
    (hlarge : maxBlockSize < size) (hword : size < wordSize) :
    ∃ free p s', Linked (links c.heap.info) c.heap.freePageInfo free none ∧
      c.heap.alloc size = some (p, s') ∧
      AnswersFirstFit c.heap free ((size + 4095) / 4096) p s' := by
  obtain ⟨base, n, -, role, free, bucket, hinv⟩ := sound_of_reachable hargs h
  obtain ⟨p, s', halloc, hanswer⟩ := hinv.answersFirstFit hlarge hword
  exact ⟨free, p, s', hinv.freeList.chain, halloc, hanswer⟩

/-- On four pages, a request for two pages right after the constructor. -/
theorem large_alloc_is_first_fit_four_pages :
    ∃ c free p s', Reachable (Start 4096 16384) Step c ∧
      Linked (links c.heap.info) c.heap.freePageInfo free none ∧
      c.heap.alloc 5000 = some (p, s') ∧ AnswersFirstFit c.heap free 2 p s' := by
  obtain ⟨c, hreach⟩ := exists_reachable_four_pages
  obtain ⟨free, p, s', hchain, halloc, hanswer⟩ := large_alloc_is_first_fit args_four_pages hreach
    (show maxBlockSize < 5000 by decide) (by decide)
  exact ⟨_, free, p, s', hreach, hchain, halloc, hanswer⟩

end McKusick
