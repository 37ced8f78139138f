/-
# Stray pointers and failing calls of the McKusick–Karels allocator

`find_page_info` finds a page exactly for the addresses of the data region, and a call that fails
changes nothing.  The guard of `free` against pointers that start no allocation has no effect: the
size of such a page is 0, and its release takes the branch of the small blocks.
-/
import OSLabs.McKusickSafety

namespace McKusick

open Memory McKusickAllocator

/-! ## Failing calls -/

/-- The address `p` lies in the data region. -/
def InData (s : McKusickAllocator) (p : ℕ) : Prop :=
  s.initialMemory ≤ p ∧ p < s.initialMemory + s.dataPages * pageSize

instance (s : McKusickAllocator) (p : ℕ) : Decidable (InData s p) :=
  inferInstanceAs (Decidable (_ ∧ _))

/-- A request returns, and changes nothing when it returns null; the release of an address outside
the data region changes nothing; `find_page_info` finds the pages of the data region. -/
structure FailuresKeep (s : McKusickAllocator) : Prop where
  alloc : ∀ size < wordSize, ∃ p s', s.alloc size = some (p, s') ∧ (p = 0 → s' = s)
  free : ∀ p < wordSize, ¬ InData s p → s.free p = some s
  findPageInfo : ∀ p < wordSize, s.findPageInfo p =
    if InData s p then some ((p - s.initialMemory) / pageSize) else none

namespace Inv

variable {base n : ℕ} {c : Client McKusickAllocator} {role : ℕ → PageRole} {free : List ℕ}
  {bucket : ℕ → List ℕ}

/-- The data region of an invariant state. -/
theorem inData_iff (h : Inv base n c role free bucket) {p : ℕ} :
    InData c.heap p ↔ base ≤ p ∧ p < base + 4096 * n := by
  rw [InData, h.geometry.base_eq, h.geometry.pages_eq, Nat.mul_comm, pageSize]

/-- `find_page_info` finds nothing outside the data region.  Below it the subtraction wraps, and
the distance to the end of the address space is at least the length of the region. -/
theorem findPageInfo_outside (h : Inv base n c role free bucket) {p : ℕ} (hword : p < 2 ^ 64)
    (hout : ¬ InData c.heap p) : c.heap.findPageInfo p = none := by
  have hpos := h.geometry.base_pos
  have hwrap := h.geometry.no_wrap
  obtain ⟨q, hq⟩ := h.geometry.base_aligned
  rw [h.inData_iff] at hout
  by_cases hzero : p = 0
  · rw [findPageInfo, if_pos hzero]
  have hindex : n ≤ sub64 (p - p % 4096) base / 4096 := by
    rw [Nat.le_div_iff_mul_le (by norm_num)]
    by_cases hlow : p < base
    · -- The index comes out of the wrapped difference, far behind the last page.
      have hsub : sub64 (p - p % 4096) base = p - p % 4096 + 2 ^ 64 - base := by
        rw [sub64, wordSize]
        omega
      omega
    · rw [sub64_of_le (by omega) (by omega)]
      omega
  rw [findPageInfo, if_neg hzero]
  simp only [h.geometry.base_eq, h.geometry.pages_eq, pageSize]
  rw [if_pos hindex]

/-- **Failing calls change nothing** in a state with the invariant. -/
theorem failuresKeep (h : Inv base n c role free bucket) : FailuresKeep c.heap := by
  constructor
  · intro size hword
    obtain ⟨p, s', halloc, ⟨-, hs⟩ | ⟨hp, -⟩⟩ := h.alloc hword
    · refine ⟨p, s', halloc, ?_⟩
      intro _
      exact hs
    · refine ⟨p, s', halloc, ?_⟩
      intro hzero
      exact absurd hzero hp
  · intro p hword hout
    rw [McKusickAllocator.free, h.findPageInfo_outside hword hout]
    split_ifs <;> rfl
  · intro p hword
    split_ifs with hin
    · obtain ⟨hlow, hhigh⟩ := h.inData_iff.mp hin
      rw [h.findPageInfo_eq (i := (p - base) / 4096) (by omega) (by omega) (by omega),
        h.geometry.base_eq, pageSize]
    · exact h.findPageInfo_outside hword hin

end Inv

/-- **Failing calls are no-ops.**  In every reachable state `alloc` changes nothing when it returns
null, `free` changes nothing for an address outside the data region, and `find_page_info` finds the
page of an address exactly in the data region. -/
theorem failing_calls_keep {memory memorySize : ℕ} (hargs : Args memory memorySize)
    {c : Client McKusickAllocator} (h : Reachable (Start memory memorySize) Step c) :
    FailuresKeep c.heap := by
  obtain ⟨base, n, -, role, free, bucket, hinv⟩ := sound_of_reachable hargs h
  exact hinv.failuresKeep

/-- On four pages, right after the constructor. -/
theorem failing_calls_keep_four_pages :
    ∃ c, Reachable (Start 4096 16384) Step c ∧ FailuresKeep c.heap := by
  obtain ⟨c, hreach⟩ := exists_reachable_four_pages
  exact ⟨_, hreach, failing_calls_keep args_four_pages hreach⟩

/-! ## Pages that start no allocation -/

/-- Page `i` is not carved into blocks and is not the first page of a live large buffer. -/
structure StartsNothing (c : Client McKusickAllocator) (bucket : ℕ → List ℕ) (i : ℕ) : Prop where
  not_carved : ∀ b, ¬ PageCarved c bucket i b
  not_first : ∀ x, PageBuffered c i x → x.ptr ≠ (c.heap.info i).pageAddr

/-- `free` of `p` returns and leaves the free-page list, the buckets, the page records and the
memory as they are. -/
def FreeIgnores (s : McKusickAllocator) (p : ℕ) : Prop :=
  ∃ s', s.free p = some s' ∧ s'.freePageInfo = s.freePageInfo ∧ s'.freelistarr = s.freelistarr ∧
    s'.info = s.info ∧ s'.mem = s.mem

/-- A size of 0 belongs to the bucket of the smallest blocks. -/
theorem getBucketIndex_zero : getBucketIndex 0 = 0 := by decide

namespace Inv

variable {base n : ℕ} {c : Client McKusickAllocator} {role : ℕ → PageRole} {free : List ℕ}
  {bucket : ℕ → List ℕ}

/-- A page that starts nothing is free or in the middle of a buffer: it has size 0 and no blocks. -/
theorem size_of_startsNothing (h : Inv base n c role free bucket) {i : ℕ} (hi : i < n)
    (hstart : StartsNothing c bucket i) : (c.heap.info i).size = 0 ∧ ∀ b, role i ≠ .carved b := by
  have hcarved : ∀ b, role i ≠ .carved b := by
    intro b hr
    exact hstart.not_carved b ((h.pageCarved_iff hi).mpr hr)
  refine ⟨?_, hcarved⟩
  -- Only the first page of a buffer and the carved pages have a size other than 0.
  cases hr : role i with
  | free =>
      have hdata := (h.roleOk i hi).of_free hr
      simp only [PageInfo.data, Prod.mk.injEq] at hdata
      exact hdata.2.1
  | carved b => exact absurd hr (hcarved b)
  | buffer f m =>
      have hdata := ((h.roleOk i hi).of_buffer hr).2.2.2.2.1
      simp only [PageInfo.data, Prod.mk.injEq] at hdata
      have hif : i ≠ f := by
        intro heq
        have hbuf : PageBuffered c i ⟨base + 4096 * f, m⟩ :=
          (h.pageBuffered_iff hi).mpr ⟨f, rfl, hr⟩
        apply hstart.not_first _ hbuf
        rw [hdata.1, heq]
      rw [hdata.2.1, if_neg hif]

/-- **`free` into a page that starts nothing** pushes the address on the list of the smallest
blocks. -/
theorem free_startsNothing (h : Inv base n c role free bucket) {i p : ℕ} (hi : i < n)
    (hsize : (c.heap.info i).size = 0) (hlow : base + 4096 * i ≤ p)
    (hhigh : p < base + 4096 * i + 4096) :
    c.heap.free p = some { c.heap with
      mem := c.heap.mem.store64 p (c.heap.freelistarr 0)
      freelistarr := Function.update c.heap.freelistarr 0 p } := by
  have hbase := h.geometry.base_pos
  rw [McKusickAllocator.free, if_neg (by omega), h.findPageInfo_eq hi hlow hhigh]
  -- A size of 0 passes `size <= max_block_size`, and the guard is in the other branch.
  simp only [hsize, getBucketIndex_zero]
  rw [if_pos (Nat.zero_le _)]

/-- An address in a page without blocks is not the head of a bucket. -/
theorem freelistarr_ne (h : Inv base n c role free bucket) {i p b : ℕ} (hb : b < 8)
    (hcarved : ∀ b, role i ≠ .carved b) (hlow : base + 4096 * i ≤ p)
    (hhigh : p < base + 4096 * i + 4096) : c.heap.freelistarr b ≠ p := by
  intro heq
  have hbase := h.geometry.base_pos
  have hchain := h.chain b hb
  cases hbl : bucket b with
  | nil =>
      rw [hbl] at hchain
      have hzero := toPtr_eq_none_iff.mp hchain
      omega
  | cons a rest =>
      rw [hbl] at hchain
      have ha : c.heap.freelistarr b = a := (toPtr_eq_some_iff.mp hchain.1).1
      -- The head of a bucket is a block, and a block lies in a page carved for its bucket.
      obtain ⟨j, hj, hr, hin⟩ := h.isBlock b hb a (by rw [hbl]; exact List.mem_cons_self)
      have hbounds := blocksFrom_bounds hb hin
      have hbs := le_blockSize b
      have hij : j = i := by omega
      exact hcarved b (hij ▸ hr)

/-- **The guard of `free` never helps**: no pointer into a page that starts nothing is ignored. -/
theorem not_freeIgnores (h : Inv base n c role free bucket) {i p : ℕ} (hi : i < n)
    (hstart : StartsNothing c bucket i) (hlow : base + 4096 * i ≤ p)
    (hhigh : p < base + 4096 * i + 4096) : ¬ FreeIgnores c.heap p := by
  rintro ⟨s', hfree, -, hbuckets, -⟩
  obtain ⟨hsize, hcarved⟩ := h.size_of_startsNothing hi hstart
  rw [h.free_startsNothing hi hsize hlow hhigh, Option.some_inj] at hfree
  have hhead : p = c.heap.freelistarr 0 := by
    rw [← hbuckets, ← hfree]
    exact Eq.symm (Function.update_self 0 p c.heap.freelistarr)
  exact h.freelistarr_ne (by norm_num) hcarved hlow hhigh hhead.symm

end Inv

/-- On four pages, a buffer of two pages is allocated and released twice: its first page is free
and starts nothing, and the second release is not ignored. -/
theorem second_release_is_not_ignored :
    ∃ s s₁ s₂, construct (some 4096) 16384 = some s ∧ s.alloc 8192 = some (8192, s₁) ∧
      s₁.free 8192 = some s₂ ∧ Reachable (Start 4096 16384) Step ⟨s₂, []⟩ ∧
      ∃ free bucket, Accounted ⟨s₂, []⟩ free bucket ∧ 0 ∈ free ∧ StartsNothing ⟨s₂, []⟩ bucket 0 ∧
        (s₂.info 0).pageAddr = 8192 ∧ ¬ FreeIgnores s₂ 8192 := by
  have hcalls : (do
      let s ← construct (some 4096) 16384
      let (p, s₁) ← s.alloc 8192
      let s₂ ← s₁.free 8192
      pure (p, (s₂.info 0).pageAddr, (s₂.info 0).size)) = some (8192, 8192, 0) := by decide
  obtain ⟨s, hs, hcalls⟩ := Option.bind_eq_some_iff.mp hcalls
  obtain ⟨⟨p, s₁⟩, halloc, hcalls⟩ := Option.bind_eq_some_iff.mp hcalls
  obtain ⟨s₂, hfree, hcalls⟩ := Option.bind_eq_some_iff.mp hcalls
  simp only [Option.pure_def, Option.some_inj, Prod.mk.injEq] at hcalls
  obtain ⟨rfl, haddr, hsize⟩ := hcalls
  have hreach₁ : Reachable (Start 4096 16384) Step ⟨s₁, [⟨8192, 8192⟩]⟩ :=
    (Reachable.of_init (s := ⟨s, []⟩) ⟨hs, rfl⟩).snoc
      (.allocSome (by decide) (by decide) halloc)
  have hreach₂ : Reachable (Start 4096 16384) Step ⟨s₂, []⟩ :=
    hreach₁.snoc (.freeLive (a := ⟨8192, 8192⟩) List.mem_cons_self hfree)
  obtain ⟨base, n, hn, role, free, bucket, hinv⟩ := sound_of_reachable args_four_pages hreach₂
  have hbase : base = 8192 := by
    have hpage := (hinv.roleOk 0 hn).pageAddr
    rw [haddr] at hpage
    omega
  have hstart : StartsNothing ⟨s₂, []⟩ bucket 0 := by
    constructor
    · intro b hcarved
      have hblock : (s₂.info 0).size = blockSize b := hcarved.size
      have hbs := le_blockSize b
      omega
    · intro x hx
      exact absurd hx.live List.not_mem_nil
  refine ⟨s, s₁, s₂, hs, halloc, hfree, hreach₂, free, bucket, hinv.accounted, ?_, hstart, haddr,
    hinv.not_freeIgnores hn hstart (by omega) (by omega)⟩
  rw [hinv.mem_free]
  refine ⟨hn, ?_⟩
  cases hr : role 0 with
  | free => rfl
  | carved b => exact absurd hr ((hinv.size_of_startsNothing hn hstart).2 b)
  | buffer f m => exact absurd ((hinv.roleOk 0 hn).of_buffer hr).2.2.2.1 List.not_mem_nil

/-- **A stray release is never ignored.**  In every reachable state `free` of any pointer into a
data page that is not carved and does not start a live large buffer changes the allocator. -/
theorem stray_free_is_never_ignored {memory memorySize : ℕ} (hargs : Args memory memorySize)
    {c : Client McKusickAllocator} (h : Reachable (Start memory memorySize) Step c) :
    ∃ free bucket, Accounted c free bucket ∧
      ∀ i < c.heap.dataPages, StartsNothing c bucket i →
        ∀ p, (c.heap.info i).pageAddr ≤ p → p < (c.heap.info i).pageAddr + pageSize →
          ¬ FreeIgnores c.heap p := by
  obtain ⟨base, n, -, role, free, bucket, hinv⟩ := sound_of_reachable hargs h
  refine ⟨free, bucket, hinv.accounted, ?_⟩
  intro i hi hstart p hlow hhigh
  rw [hinv.geometry.pages_eq] at hi
  rw [(hinv.roleOk i hi).pageAddr] at hlow hhigh
  exact hinv.not_freeIgnores hi hstart hlow hhigh

/-- On four pages, right after the constructor. -/
theorem stray_free_is_never_ignored_four_pages :
    ∃ c free bucket, Reachable (Start 4096 16384) Step c ∧ Accounted c free bucket ∧
      ∀ i < c.heap.dataPages, StartsNothing c bucket i →
        ∀ p, (c.heap.info i).pageAddr ≤ p → p < (c.heap.info i).pageAddr + pageSize →
          ¬ FreeIgnores c.heap p := by
  obtain ⟨c, hreach⟩ := exists_reachable_four_pages
  obtain ⟨free, bucket, hacc, hnever⟩ := stray_free_is_never_ignored args_four_pages hreach
  exact ⟨_, free, bucket, hreach, hacc, hnever⟩

end McKusick
