/-
# Size arithmetic of the McKusick–Karels allocator

Which bucket a request falls into, how many pages a large request needs, and how
many pages the metadata takes.
-/
import OSLabs.McKusick

namespace McKusick

/-! ## Buckets -/

/-- The block size of a bucket, `MIN_BLOCK_SIZE << bucket`. -/
abbrev blockSize (bucket : ℕ) : ℕ := minBlockSize <<< bucket

/-- Block sizes are powers of two. -/
theorem blockSize_eq_two_pow (b : ℕ) : blockSize b = 2 ^ (b + 5) := by
  rw [blockSize, Nat.shiftLeft_eq, Nat.pow_add, Nat.mul_comm]

/-- A block holds at least one `FreeBlock`. -/
theorem le_blockSize (b : ℕ) : 32 ≤ blockSize b := by
  rw [blockSize_eq_two_pow, Nat.pow_add]
  have := Nat.one_le_two_pow (n := b)
  omega

/-- Blocks tile a page. -/
theorem blockSize_dvd_pageSize {b : ℕ} (hb : b < 8) : blockSize b ∣ 4096 := by
  rw [blockSize_eq_two_pow, show 4096 = 2 ^ 12 from rfl]
  exact Nat.pow_dvd_pow 2 (by omega)

/-- A page has at least one block, and the blocks fill it exactly. -/
theorem blocksPerPage_mul {b : ℕ} (hb : b < 8) :
    4096 / blockSize b * blockSize b = 4096 :=
  Nat.div_mul_cancel (blockSize_dvd_pageSize hb)

/-- A page has a last block. -/
theorem exists_blocksPerPage {b : ℕ} (hb : b < 8) :
    ∃ m, 4096 / blockSize b = m + 1 ∧ blockSize b * m + blockSize b = 4096 := by
  have hmul := blocksPerPage_mul hb
  have hne : 4096 / blockSize b ≠ 0 := fun h => by
    rw [h] at hmul
    omega
  obtain ⟨m, hm⟩ := Nat.exists_eq_succ_of_ne_zero hne
  refine ⟨m, hm, ?_⟩
  rw [hm, Nat.succ_mul, Nat.mul_comm] at hmul
  exact hmul

theorem trailingZeros_two_pow {w k : ℕ} (hk : k < w) : trailingZeros w (2 ^ k) = k := by
  induction w generalizing k with
  | zero => omega
  | succ w ih =>
      cases k with
      | zero => rfl
      | succ k =>
          have hodd : ¬ 2 ^ (k + 1) % 2 = 1 := by rw [pow_succ]; omega
          have hhalf : 2 ^ (k + 1) / 2 = 2 ^ k := by rw [pow_succ]; omega
          rw [trailingZeros, if_neg hodd, hhalf, ih (by omega)]

/-- `__builtin_ctz` inverts the powers of two of an `unsigned int`. -/
theorem ctz_two_pow {k : ℕ} (hk : k < 32) : ctz (2 ^ k) = k := by
  rw [ctz, Nat.mod_eq_of_lt (Nat.pow_lt_pow_right (by norm_num) hk), trailingZeros_two_pow hk]

/-- The bucket of a small request, through the bit length of `size - 1`. -/
theorem getBucketIndex_eq {size : ℕ} (hpos : 0 < size) (hle : size ≤ 4096) :
    getBucketIndex size = max 5 (Nat.size (size - 1)) - 5 := by
  have hsub : sub64 size 1 = size - 1 := by
    rw [sub64, show wordSize = 2 ^ 64 from rfl]; omega
  have hbits : Nat.size (size - 1) ≤ 12 := by
    rw [Nat.size_le]; omega
  have hshift : (1 <<< (64 - clzl (size - 1))) % wordSize = 2 ^ Nat.size (size - 1) := by
    rw [clzl, show 64 - (64 - Nat.size (size - 1)) = Nat.size (size - 1) by omega,
      Nat.shiftLeft_eq, Nat.one_mul]
    exact Nat.mod_eq_of_lt (Nat.pow_lt_pow_right (by norm_num) (by omega))
  have hmax : max minBlockSize (2 ^ Nat.size (size - 1)) = 2 ^ max 5 (Nat.size (size - 1)) := by
    rw [show minBlockSize = 2 ^ 5 from rfl]
    exact ((pow_right_mono₀ (show (1 : ℕ) ≤ 2 by norm_num)).map_max).symm
  rw [getBucketIndex, if_neg (not_lt.mpr hle)]
  simp only [hsub, hshift, hmax]
  rw [ctz_two_pow (by omega)]

/-- **A small request gets the smallest bucket whose blocks are large enough.** -/
theorem getBucketIndex_spec {size : ℕ} (hpos : 0 < size) (hle : size ≤ 4096) :
    getBucketIndex size < 8 ∧ size ≤ blockSize (getBucketIndex size) ∧
      (getBucketIndex size = 0 ∨ blockSize (getBucketIndex size - 1) < size) := by
  have hb := getBucketIndex_eq hpos hle
  have hbits : Nat.size (size - 1) ≤ 12 := by
    rw [Nat.size_le]; omega
  have hupper : size - 1 < 2 ^ Nat.size (size - 1) := Nat.lt_size_self _
  refine ⟨by omega, ?_, ?_⟩
  · rw [blockSize_eq_two_pow, hb]
    have hmono : 2 ^ Nat.size (size - 1) ≤ 2 ^ (max 5 (Nat.size (size - 1)) - 5 + 5) :=
      Nat.pow_le_pow_right (by norm_num) (by omega)
    omega
  · by_cases hsmall : Nat.size (size - 1) ≤ 5
    · exact Or.inl (by omega)
    · right
      rw [blockSize_eq_two_pow, hb]
      have hlow : 2 ^ (max 5 (Nat.size (size - 1)) - 5 - 1 + 5) ≤ size - 1 := by
        rw [← Nat.lt_size]; omega
      omega

/-- The bucket of a block size is the bucket it came from. -/
theorem getBucketIndex_blockSize {b : ℕ} (hb : b < 8) :
    getBucketIndex (blockSize b) = b := by
  interval_cases b <;> decide

/-! ## Pages -/

/-- The page count of a request, when rounding up does not wrap. -/
theorem getRequiredPages_of_no_wrap {n : ℕ} (h : n + 4095 < 2 ^ 64) :
    getRequiredPages n = (n + 4095) / 4096 := by
  have hmod : (n + pageSize - 1) % wordSize = n + 4095 := Nat.mod_eq_of_lt h
  rw [getRequiredPages, hmod]

/-- A request so large that rounding up wraps is taken for one of no pages. -/
theorem getRequiredPages_of_wrap {n : ℕ} (hn : n < 2 ^ 64) (h : 2 ^ 64 ≤ n + 4095) :
    getRequiredPages n = 0 := by
  simp only [getRequiredPages, pageSize, wordSize]
  omega

/-- A request that needs pages at all does not wrap; its pages cover it and a page
fewer would not. -/
theorem getRequiredPages_bounds {n : ℕ} (hn : n < 2 ^ 64) (h : getRequiredPages n ≠ 0) :
    n ≤ getRequiredPages n * 4096 ∧ getRequiredPages n * 4096 < n + 4096 := by
  by_cases hwrap : n + 4095 < 2 ^ 64
  · rw [getRequiredPages_of_no_wrap hwrap] at *
    omega
  · exact absurd (getRequiredPages_of_wrap hn (by omega)) h

/-- A request that needs pages at all needs the exact quotient, rounded up. -/
theorem getRequiredPages_eq_ceil {n : ℕ} (hn : n < 2 ^ 64) (h : getRequiredPages n ≠ 0) :
    getRequiredPages n = (n + 4095) / 4096 := by
  by_cases hwrap : n + 4095 < 2 ^ 64
  · exact getRequiredPages_of_no_wrap hwrap
  · exact absurd (getRequiredPages_of_wrap hn (by omega)) h

/-- A large request that needs pages needs at least two. -/
theorem two_le_getRequiredPages {n : ℕ} (hn : n < 2 ^ 64) (hlarge : 4096 < n)
    (h : getRequiredPages n ≠ 0) : 2 ≤ getRequiredPages n := by
  have := getRequiredPages_bounds hn h
  omega

/-! ## Page counts of the constructor -/

/-- Subtraction of `size_t` values that does not wrap. -/
theorem sub64_of_le {a b : ℕ} (hba : b ≤ a) (ha : a < 2 ^ 64) : sub64 a b = a - b := by
  simp only [sub64, wordSize]
  omega

open McKusickAllocator

/-- The metadata takes a page for every 128 pages, rounded up. -/
theorem metaPages_eq (t : ℕ) : metaPages t = (t + 127) / 128 := by
  simp only [metaPages, sizeofPageInfo, pageSize]
  split_ifs <;> omega

/-- The metadata records of all data pages fit in the metadata pages. -/
theorem sizeofPageInfo_mul_le (t : ℕ) : t * 32 ≤ metaPages t * 4096 := by
  rw [metaPages_eq]
  omega

/-- From two pages on, at least one is left for data. -/
theorem metaPages_lt {t : ℕ} (ht : 2 ≤ t) : metaPages t < t := by
  rw [metaPages_eq]
  omega

/-- A mapping for more than one page of memory has at least two pages. -/
theorem two_le_requestedPages {memorySize : ℕ} (hword : memorySize < 2 ^ 64)
    (hlarge : 4096 < memorySize) (hpos : 0 < requestedPages memorySize) :
    2 ≤ requestedPages memorySize := by
  simp only [requestedPages, pageSize, wordSize] at hpos ⊢
  omega

end McKusick
