/-
# The constructor of the McKusick–Karels allocator

The two initialisation loops count up to `total_pages - total_meta_pages` and to one less, both as
`size_t`.  With a data page the loops write each record once and link the pages in ascending order.
A memory of at most one page leaves no data page: the second bound wraps to the largest `size_t`.
-/
import OSLabs.McKusickSafety
import OSLabs.CountedLoop

namespace McKusick

open McKusickAllocator

/-! ## The initialisation loops -/

/-- The body of the first loop of the constructor. -/
def initBody (memPtr i : ℕ) (info : ℕ → PageInfo) : ℕ → PageInfo :=
  Function.update info i
    { info i with pageAddr := memPtr + i * pageSize, size := 0, isStartOfBuffer := false }

/-- The body of the second loop of the constructor. -/
def chainBody (i : ℕ) (info : ℕ → PageInfo) : ℕ → PageInfo := setNext info i (some (i + 1))

/-- The two loops of the constructor over `count` data pages, with the indices of the records they
write; `none` when one of them runs out of fuel. -/
def initLoops (memPtr count fuel : ℕ) : Option ((ℕ → PageInfo) × List ℕ) := do
  let s ← countedLoop wordSize count (logged (initBody memPtr)) fuel 0
    (fun _ => ⟨0, 0, none, false⟩, [])
  countedLoop wordSize (sub64 count 1) (logged chainBody) fuel 0 s

/-- The first loop fills the records. -/
theorem foldl_initBody (memPtr n : ℕ) (info : ℕ → PageInfo) :
    (List.range' 0 n).foldl (fun info i => initBody memPtr i info) info =
      initPages memPtr n info := by
  induction n with
  | zero => rfl
  | succ n ih =>
      rw [List.range'_concat, List.foldl_append, ih, Nat.zero_add, Nat.one_mul]
      rfl

/-- The second loop links the records. -/
theorem foldl_chainBody (n : ℕ) (info : ℕ → PageInfo) :
    (List.range' 0 n).foldl (fun info i => chainBody i info) info = chainPages n info := by
  induction n with
  | zero => rfl
  | succ n ih =>
      rw [List.range'_concat, List.foldl_append, ih, Nat.zero_add, Nat.one_mul]
      rfl

/-- **Both loops end**, and write the records below their bounds in ascending order. -/
theorem initLoops_eq {memPtr count fuel : ℕ} (hcount : count < wordSize) (hfuel : count < fuel)
    (hfuel' : sub64 count 1 < fuel) :
    initLoops memPtr count fuel =
      some (chainPages (sub64 count 1) (initPages memPtr count fun _ => ⟨0, 0, none, false⟩),
        List.range' 0 count ++ List.range' 0 (sub64 count 1)) := by
  have hlast : sub64 count 1 < wordSize := Nat.mod_lt _ (by decide)
  rw [initLoops, countedLoop.eq_some hcount hfuel, Option.bind_eq_bind, Option.bind_some,
    countedLoop.eq_some hlast (by rwa [Nat.sub_zero]), foldl_logged, foldl_logged, foldl_initBody,
    foldl_chainBody, List.nil_append, Nat.sub_zero, Nat.sub_zero]

/-- Whatever the fuel, this is what the loops write. -/
theorem initLoops_writes {memPtr count fuel : ℕ} {info : ℕ → PageInfo} {writes : List ℕ}
    (hcount : count < wordSize) (h : initLoops memPtr count fuel = some (info, writes)) :
    writes = List.range' 0 count ++ List.range' 0 (sub64 count 1) := by
  have hlast : sub64 count 1 < wordSize := Nat.mod_lt _ (by decide)
  obtain ⟨s, h₁, h₂⟩ := Option.bind_eq_some_iff.mp h
  have hs := countedLoop.eq_of_some hcount h₁
  rw [foldl_logged] at hs
  have hr := countedLoop.eq_of_some hlast h₂
  rw [hs, foldl_logged] at hr
  rw [(Prod.mk.inj hr).2, List.nil_append, Nat.sub_zero, Nat.sub_zero]

/-! ## When the constructor is right -/

/-- The number of data pages of an allocator for `memorySize` bytes. -/
def dataPagesFor (memorySize : ℕ) : ℕ :=
  sub64 (requestedPages memorySize) (metaPages (requestedPages memorySize))

/-- The constructor on the mapping `memory` is right: the metadata pages have room for a record of
each data page, both loops end and write no other record, and the free-page list has the data pages
in ascending order. -/
structure ConstructsRightly (memory memorySize : ℕ) : Prop where
  room : dataPagesFor memorySize * sizeofPageInfo ≤ metaPages (requestedPages memorySize) * pageSize
  run : ∃ fuel info writes s,
    initLoops (memory + pageSize * metaPages (requestedPages memorySize)) (dataPagesFor memorySize)
      fuel = some (info, writes) ∧
    (∀ i ∈ writes, i < dataPagesFor memorySize) ∧
    construct (some memory) memorySize = some s ∧
    s.info = setNext info (sub64 (dataPagesFor memorySize) 1) none ∧
    Linked (links s.info) s.freePageInfo (List.range (dataPagesFor memorySize)) none ∧
    ∀ i < dataPagesFor memorySize, (s.info i).pageAddr = s.initialMemory + i * pageSize

/-- A mapping has at least one page and fewer than the address space has bytes. -/
theorem requestedPages_bounds {memory memorySize : ℕ}
    (hmap : IsMapping memory (requestedPages memorySize * pageSize)) :
    0 < requestedPages memorySize ∧ requestedPages memorySize < 2 ^ 64 := by
  have hpos := hmap.len_pos
  have hwrap := hmap.no_wrap
  simp only [pageSize] at hpos hwrap
  omega

/-- The data pages are the pages that hold no metadata. -/
theorem dataPagesFor_eq {memory memorySize : ℕ}
    (hmap : IsMapping memory (requestedPages memorySize * pageSize)) :
    dataPagesFor memorySize = requestedPages memorySize - metaPages (requestedPages memorySize) := by
  have hbounds := requestedPages_bounds hmap
  have hle : metaPages (requestedPages memorySize) ≤ requestedPages memorySize := by
    rw [metaPages_eq]
    omega
  exact sub64_of_le hle hbounds.2

/-- The constructor leaves the records as the two loops and its last write do. -/
theorem construct_info {memory memorySize : ℕ} {s : McKusickAllocator}
    (hs : construct (some memory) memorySize = some s) :
    s.info = setNext (chainPages (sub64 (dataPagesFor memorySize) 1)
      (initPages (memory + pageSize * metaPages (requestedPages memorySize))
        (dataPagesFor memorySize) fun _ => ⟨0, 0, none, false⟩))
      (sub64 (dataPagesFor memorySize) 1) none := by
  rw [construct] at hs
  simp only [Option.bind_eq_bind, Option.bind_some, Option.some_inj] at hs
  rw [← hs]
  simp only [dataPagesFor]

/-- With more than a page of memory the constructor is right. -/
theorem constructsRightly {memory memorySize : ℕ} (hword : memorySize < 2 ^ 64)
    (hmap : IsMapping memory (requestedPages memorySize * pageSize)) (hlarge : 4096 < memorySize) :
    ConstructsRightly memory memorySize := by
  have hdata := dataPagesFor_eq hmap
  have hbounds := requestedPages_bounds hmap
  have hroom := sizeofPageInfo_mul_le (requestedPages memorySize)
  obtain ⟨s, hs⟩ : ∃ s, construct (some memory) memorySize = some s := ⟨_, rfl⟩
  obtain ⟨base, n, hn, hinv⟩ := inv_of_construct hword hlarge hmap hs
  have hcount : s.dataPages = dataPagesFor memorySize := by cases hs; rfl
  have hpages : dataPagesFor memorySize = n := by
    rw [← hcount]
    exact hinv.geometry.pages_eq
  have hlast : sub64 (dataPagesFor memorySize) 1 = dataPagesFor memorySize - 1 :=
    sub64_of_le (by omega) (by omega)
  constructor
  · simp only [sizeofPageInfo, pageSize]
    omega
  · have hloops := @initLoops_eq (memory + pageSize * metaPages (requestedPages memorySize))
      (dataPagesFor memorySize) (dataPagesFor memorySize + 1)
      (by simp only [wordSize]; omega) (Nat.lt_succ_self _) (by omega)
    refine ⟨_, _, _, s, hloops, ?_, hs, construct_info hs, ?_, ?_⟩
    · intro i hi
      rw [hlast, List.mem_append, List.mem_range'_1, List.mem_range'_1] at hi
      omega
    · rw [hpages]
      exact hinv.freeList.chain
    · intro i hi
      rw [show s.initialMemory = base from hinv.geometry.base_eq, pageSize, Nat.mul_comm]
      exact (hinv.roleOk i (hpages ▸ hi)).pageAddr

/-- With at most a page of memory there is no data page, and the second loop writes the record of
page 0 all the same. -/
theorem not_constructsRightly {memory memorySize : ℕ} (hsmall : memorySize ≤ 4096)
    (hmap : IsMapping memory (requestedPages memorySize * pageSize)) :
    ¬ ConstructsRightly memory memorySize := by
  rintro ⟨-, fuel, info, writes, s, hloops, hrange, -⟩
  have hpages : requestedPages memorySize = 1 := by
    have hbounds := requestedPages_bounds hmap
    simp only [requestedPages, pageSize, wordSize] at hbounds ⊢
    omega
  have hzero : dataPagesFor memorySize = 0 := by
    rw [dataPagesFor, hpages]
    decide
  rw [hzero] at hloops hrange
  -- The bound of the second loop is `0 - 1`, the largest `size_t`, so the loop has an index 0.
  have hmem : 0 ∈ writes := by
    rw [initLoops_writes (by decide) hloops, List.mem_append, List.mem_range'_1,
      List.mem_range'_1]
    exact Or.inr ⟨le_rfl, by decide⟩
  exact absurd (hrange 0 hmem) (Nat.lt_irrefl 0)

/-- **The constructor is right exactly for more than one page of memory.** -/
theorem constructs_rightly_iff {memory memorySize : ℕ} (hword : memorySize < wordSize)
    (hmap : IsMapping memory (requestedPages memorySize * pageSize)) :
    ConstructsRightly memory memorySize ↔ pageSize < memorySize := by
  constructor
  · intro hright
    by_contra hsmall
    exact not_constructsRightly (by simpa using hsmall) hmap hright
  · exact constructsRightly hword hmap

/-- Four pages are more than one. -/
theorem constructs_rightly_iff_four_pages : ConstructsRightly 4096 16384 ↔ pageSize < 16384 :=
  constructs_rightly_iff (by decide) args_four_pages.mapping

/-- One page of memory, all of which goes to the metadata. -/
theorem one_page_is_not_constructed :
    IsMapping 4096 (requestedPages 4096 * pageSize) ∧ ¬ ConstructsRightly 4096 4096 := by
  have hmap : IsMapping 4096 (requestedPages 4096 * pageSize) :=
    ⟨by decide, by decide, by decide, by decide⟩
  exact ⟨hmap, not_constructsRightly le_rfl hmap⟩

end McKusick
