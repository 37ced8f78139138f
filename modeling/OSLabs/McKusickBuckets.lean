/-
# Bucket computations of the McKusick–Karels allocator

Which sizes a call passes to `get_bucket_index`, and when the evaluation has a meaning:
`__builtin_clzl` has none at zero, and a shift none by 64.  Only a request of one byte asks for the
leading zeros of zero.
-/
import OSLabs.McKusickSafety

namespace McKusick

open McKusickAllocator

/-! ## Evaluations -/

/-- The sizes that a call passes to `get_bucket_index`, in their order. -/
def bucketArguments (s : McKusickAllocator) : HeapEvent → List ℕ
  | .alloc size =>
    if size = 0 ∨ maxBlockSize < size then []
    else if s.freelistarr (getBucketIndex size) = 0 ∧ s.freePageInfo ≠ none then
      -- `split_page` computes the bucket of its block size
      [size, minBlockSize <<< getBucketIndex size]
    else [size]
  | .free ptr =>
    match s.findPageInfo ptr with
    | none => []
    | some page => if (s.info page).size ≤ maxBlockSize then [(s.info page).size] else []
  | .write _ _ => []

/-- `get_bucket_index` of `size` counts the zeros of a value that is not zero, shifts by less than
64, and yields the smallest bucket whose blocks are large enough. -/
structure Evaluates (size : ℕ) : Prop where
  counts : sub64 size 1 ≠ 0
  shifts : 64 - clzl (sub64 size 1) < 64
  bucket : getBucketIndex size < bucketCount
  enough : size ≤ minBlockSize <<< getBucketIndex size
  smallest : getBucketIndex size = 0 ∨ minBlockSize <<< (getBucketIndex size - 1) < size

/-- The bucket that `free` uses for a live small pointer is the one `alloc` took it from. -/
def FreesWhereTaken (c : Client McKusickAllocator) : Prop :=
  ∀ x ∈ c.live, x.size ≤ maxBlockSize →
    (bucketArguments c.heap (.free x.ptr)).map getBucketIndex = [getBucketIndex x.size]

/-- **The call relies on no undefined operation.** -/
structure ComputesBuckets (c : Client McKusickAllocator) (e : HeapEvent) : Prop where
  evaluates : ∀ size ∈ bucketArguments c.heap e, Evaluates size
  sameBucket : FreesWhereTaken c

/-! ## Sizes -/

/-- Of the small sizes only 1 asks for the zeros of zero. -/
theorem not_evaluates_one : ¬ Evaluates 1 := by
  intro h
  exact h.counts (by decide)

theorem evaluates_of_two_le {size : ℕ} (htwo : 2 ≤ size) (hle : size ≤ 4096) : Evaluates size := by
  have hsub : sub64 size 1 = size - 1 := sub64_of_le (by omega) (by omega)
  have hspec := getBucketIndex_spec (by omega : 0 < size) hle
  constructor
  · rw [hsub]
    omega
  · have hbits : 0 < Nat.size (size - 1) := Nat.size_pos.mpr (by omega)
    have hshort : Nat.size (size - 1) ≤ 12 := by
      rw [Nat.size_le]
      omega
    rw [hsub, clzl]
    omega
  · exact hspec.1
  · exact hspec.2.1
  · exact hspec.2.2

/-- A block size has a meaning. -/
theorem evaluates_blockSize {b : ℕ} (hb : b < 8) : Evaluates (blockSize b) := by
  have hlow := le_blockSize b
  have hhigh : blockSize b ≤ 4096 := Nat.le_of_dvd (by norm_num) (blockSize_dvd_pageSize hb)
  exact evaluates_of_two_le (by omega) hhigh

/-! ## Calls -/

/-- A small request computes its bucket, and that of the blocks of a page it splits. -/
theorem bucketArguments_alloc (s : McKusickAllocator) {size : ℕ} (hpos : 0 < size)
    (hle : size ≤ 4096) : bucketArguments s (.alloc size) = [size] ∨
      bucketArguments s (.alloc size) = [size, blockSize (getBucketIndex size)] := by
  have hsmall : ¬ (size = 0 ∨ maxBlockSize < size) := not_or.mpr ⟨by omega, not_lt.mpr hle⟩
  rw [bucketArguments, if_neg hsmall]
  split_ifs with hsplit
  · exact Or.inr rfl
  · exact Or.inl rfl

/-- Other requests compute none. -/
theorem bucketArguments_alloc_of_not (s : McKusickAllocator) {size : ℕ}
    (h : ¬ (0 < size ∧ size ≤ 4096)) : bucketArguments s (.alloc size) = [] := by
  apply if_pos
  show size = 0 ∨ 4096 < size
  omega

namespace Inv

variable {base n : ℕ} {c : Client McKusickAllocator} {role : ℕ → PageRole} {free : List ℕ}
  {bucket : ℕ → List ℕ}

/-- `free` of a live pointer computes the bucket of its blocks, or none for a large one. -/
theorem bucketArguments_free (h : Inv base n c role free bucket) {x : Allocation} (hx : x ∈ c.live) :
    (x.size ≤ 4096 ∧ 0 < x.size ∧ bucketArguments c.heap (.free x.ptr) =
        [blockSize (getBucketIndex x.size)]) ∨
      (4096 < x.size ∧ bucketArguments c.heap (.free x.ptr) = []) := by
  rcases h.liveOk x hx with ⟨hle, hpos, i, hi, hrole, hblock⟩ | ⟨hlarge, f, hf, hptr, hrole⟩
  · left
    refine ⟨hle, hpos, ?_⟩
    obtain ⟨hb, hdata⟩ := (h.roleOk i hi).of_carved hrole
    have hsize : (c.heap.info i).size = blockSize (getBucketIndex x.size) :=
      congrArg (fun d => d.2.1) hdata
    have hbounds := blocksFrom_bounds hb hblock
    have hlow := le_blockSize (getBucketIndex x.size)
    have hpage := h.findPageInfo_eq hi hbounds.1 (by omega)
    have hhigh : blockSize (getBucketIndex x.size) ≤ 4096 :=
      Nat.le_of_dvd (by norm_num) (blockSize_dvd_pageSize hb)
    simp only [bucketArguments, hpage, hsize]
    exact if_pos hhigh
  · right
    refine ⟨hlarge, ?_⟩
    have hdata := ((h.roleOk f hf).of_buffer hrole).2.2.2.2.1
    rw [if_pos rfl] at hdata
    have hsize : (c.heap.info f).size = x.size := congrArg (fun d => d.2.1) hdata
    have hpage := h.findPageInfo_eq (p := x.ptr) hf (by omega) (by omega)
    simp only [bucketArguments, hpage, hsize]
    exact if_neg (not_le.mpr hlarge)

theorem freesWhereTaken (h : Inv base n c role free bucket) : FreesWhereTaken c := by
  intro x hx hsmall
  rcases h.bucketArguments_free hx with ⟨hle, hpos, hargs⟩ | ⟨hlarge, -⟩
  · rw [hargs, List.map_singleton, getBucketIndex_blockSize (getBucketIndex_spec hpos hle).1]
  · exact absurd hsmall (not_le.mpr hlarge)

/-- **A call that does not ask for one byte relies on no undefined operation.** -/
theorem computesBuckets (h : Inv base n c role free bucket) {c' : Client McKusickAllocator}
    {e : HeapEvent} (hst : Step c e c') (hne : e ≠ .alloc 1) : ComputesBuckets c e := by
  refine ⟨?_, h.freesWhereTaken⟩
  intro size hsize
  cases e with
  | alloc m =>
      have hm : m ≠ 1 := fun heq => hne (by rw [heq])
      by_cases hsmall : 0 < m ∧ m ≤ 4096
      · have hself := evaluates_of_two_le (by omega : 2 ≤ m) hsmall.2
        rcases bucketArguments_alloc c.heap hsmall.1 hsmall.2 with hargs | hargs
        · rw [hargs, List.mem_singleton] at hsize
          rw [hsize]
          exact hself
        · rw [hargs] at hsize
          rcases List.mem_pair.mp hsize with rfl | rfl
          · exact hself
          · exact evaluates_blockSize (getBucketIndex_spec hsmall.1 hsmall.2).1
      · rw [bucketArguments_alloc_of_not c.heap hsmall] at hsize
        cases hsize
  | free p =>
      rcases hst.free_inv with ⟨rfl, -, -⟩ | ⟨x, hx, rfl, -, -⟩
      · -- no page holds the null pointer
        cases hsize
      · rcases h.bucketArguments_free hx with ⟨hle, hpos, hargs⟩ | ⟨-, hargs⟩
        · rw [hargs, List.mem_singleton] at hsize
          rw [hsize]
          exact evaluates_blockSize (getBucketIndex_spec hpos hle).1
        · rw [hargs] at hsize
          cases hsize
  | write x v => cases hsize

end Inv

/-- A request of one byte asks for the zeros of zero. -/
theorem not_computesBuckets_alloc_one (c : Client McKusickAllocator) :
    ¬ ComputesBuckets c (.alloc 1) := by
  intro h
  apply not_evaluates_one
  apply h.evaluates
  rcases bucketArguments_alloc c.heap (by decide : 0 < 1) (by decide) with hargs | hargs
  · rw [hargs]
    exact List.mem_cons_self
  · rw [hargs]
    exact List.mem_cons_self

/-- **Bucket computations are defined along a run** exactly if it never asks for one byte. -/
theorem bucket_computations_defined_iff {memory memorySize : ℕ} (hargs : Args memory memorySize)
    {c₀ c : Client McKusickAllocator} {es : List HeapEvent} (hstart : Start memory memorySize c₀)
    (hrun : Run Step c₀ es c) :
    (∀ before e after d d', es = before ++ e :: after → Run Step c₀ before d → Step d e d' →
      ComputesBuckets d e) ↔ HeapEvent.alloc 1 ∉ es := by
  constructor
  · intro h hmem
    obtain ⟨before, after, rfl⟩ := List.append_of_mem hmem
    obtain ⟨d, hbefore, hrest⟩ := hrun.exists_of_append
    cases hrest with
    | cons hst _ => exact not_computesBuckets_alloc_one d (h _ _ _ _ _ rfl hbefore hst)
  · rintro hno before e after d d' rfl hbefore hst
    obtain ⟨base, n, -, role, free, bucket, hinv⟩ :=
      sound_of_reachable hargs ⟨c₀, before, hstart, hbefore⟩
    apply hinv.computesBuckets hst
    rintro rfl
    exact hno (List.mem_append_right _ List.mem_cons_self)

/-- On four pages, a first request of `size` bytes. -/
theorem exists_run_alloc {size : ℕ} (hword : size < wordSize)
    (hcall : ((construct (some 4096) 16384).bind fun s => s.alloc size).map Prod.fst = some 8192) :
    ∃ c₀ c, Start 4096 16384 c₀ ∧ Run Step c₀ [.alloc size] c := by
  obtain ⟨⟨p, s'⟩, hbind, rfl⟩ := Option.map_eq_some_iff.mp hcall
  obtain ⟨s, hs, halloc⟩ := Option.bind_eq_some_iff.mp hbind
  exact ⟨⟨s, []⟩, _, ⟨hs, rfl⟩, .single (.allocSome hword (by decide) halloc)⟩

theorem bucket_computations_defined_four_pages :
    ∃ c₀ c, Start 4096 16384 c₀ ∧ Run Step c₀ [.alloc 64] c ∧
      ∀ before e after d d', [.alloc 64] = before ++ e :: after → Run Step c₀ before d →
        Step d e d' → ComputesBuckets d e := by
  obtain ⟨c₀, c, hstart, hrun⟩ := exists_run_alloc (by decide : 64 < wordSize) (by decide)
  exact ⟨c₀, c, hstart, hrun,
    (bucket_computations_defined_iff args_four_pages hstart hrun).mpr (by decide)⟩

/-- **A request of one byte counts the zeros of zero.** -/
theorem one_byte_counts_zeros_of_zero :
    ∃ c₀ c, Start 4096 16384 c₀ ∧ Run Step c₀ [.alloc 1] c ∧ ¬ ComputesBuckets c₀ (.alloc 1) := by
  obtain ⟨c₀, c, hstart, hrun⟩ := exists_run_alloc (by decide : 1 < wordSize) (by decide)
  exact ⟨c₀, c, hstart, hrun, not_computesBuckets_alloc_one c₀⟩

end McKusick
