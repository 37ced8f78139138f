/-
# Block lists of the McKusick–Karels allocator

The free blocks of a bucket are threaded through the blocks themselves.
`split_page` links the blocks of one page in ascending order in front of the
bucket's list and touches no byte outside the page.
-/
import OSLabs.LinkedChain
import OSLabs.McKusickSizes

namespace McKusick

open Memory

/-! ## The blocks of a page -/

/-- The addresses of the blocks of a page that starts at `start`. -/
def blocksFrom (start bucket : ℕ) : List ℕ :=
  List.range' start (4096 / blockSize bucket) (blockSize bucket)

/-- The `j`-th block of a page. -/
theorem mem_blocksFrom {start b a : ℕ} :
    a ∈ blocksFrom start b ↔ ∃ j < 4096 / blockSize b, a = start + blockSize b * j := by
  rw [blocksFrom, List.mem_range']

/-- A block lies inside its page. -/
theorem blocksFrom_bounds {start b a : ℕ} (hb : b < 8) (ha : a ∈ blocksFrom start b) :
    start ≤ a ∧ a + blockSize b ≤ start + 4096 := by
  obtain ⟨j, hj, rfl⟩ := mem_blocksFrom.mp ha
  have hmul := blocksPerPage_mul hb
  have hle : (j + 1) * blockSize b ≤ 4096 / blockSize b * blockSize b :=
    Nat.mul_le_mul_right _ hj
  rw [Nat.add_mul, Nat.mul_comm j] at hle
  omega

/-- Two different blocks of a page do not overlap. -/
theorem blocksFrom_apart {start b a a' : ℕ} (ha : a ∈ blocksFrom start b)
    (ha' : a' ∈ blocksFrom start b) (hne : a ≠ a') :
    a + blockSize b ≤ a' ∨ a' + blockSize b ≤ a := by
  obtain ⟨j, hj, rfl⟩ := mem_blocksFrom.mp ha
  obtain ⟨j', hj', rfl⟩ := mem_blocksFrom.mp ha'
  rcases Nat.lt_trichotomy j j' with h | h | h
  · left
    have := Nat.mul_le_mul_left (blockSize b) (Nat.succ_le_of_lt h)
    rw [Nat.succ_eq_add_one, Nat.mul_add] at this
    omega
  · exact absurd (by rw [h]) hne
  · right
    have := Nat.mul_le_mul_left (blockSize b) (Nat.succ_le_of_lt h)
    rw [Nat.succ_eq_add_one, Nat.mul_add] at this
    omega

/-- The blocks of an aligned page are aligned to their size. -/
theorem blockSize_dvd_of_mem {start b a : ℕ} (hb : b < 8) (hstart : 4096 ∣ start)
    (ha : a ∈ blocksFrom start b) : blockSize b ∣ a := by
  obtain ⟨j, hj, rfl⟩ := mem_blocksFrom.mp ha
  exact Nat.dvd_add ((blockSize_dvd_pageSize hb).trans hstart) (Nat.dvd_mul_right _ _)

namespace McKusickAllocator

/-! ## `split_page` -/

/-- The loop of `split_page` writes inside the blocks it passes only. -/
theorem linkBlocks_outside {bs m p x : ℕ} {mem : Memory} (hbs : 8 ≤ bs)
    (hx : x < p ∨ p + bs * m ≤ x) : (linkBlocks bs m p mem).2 x = mem x := by
  induction m generalizing p mem with
  | zero => rfl
  | succ m ih =>
      rw [Nat.mul_add, Nat.mul_one] at hx
      rw [linkBlocks, ih (by omega), store64_outside mem (by omega)]

/-- The loop of `split_page` links `m` blocks to one another and stops at the next. -/
theorem linkBlocks_spec {bs m p : ℕ} {mem : Memory} (hbs : 8 ≤ bs) (hp : 0 < p)
    (hend : p + bs * m < 2 ^ 64) :
    (linkBlocks bs m p mem).1 = p + bs * m ∧
      Linked (linkBlocks bs m p mem).2.loadPtr (some p) (List.range' p m bs)
        (some (p + bs * m)) := by
  induction m generalizing p mem with
  | zero => exact ⟨rfl, rfl⟩
  | succ m ih =>
      rw [Nat.mul_add, Nat.mul_one] at hend ⊢
      set mem' := mem.store64 p (p + bs) with hmem
      obtain ⟨hlast, hchain⟩ : (linkBlocks bs m (p + bs) mem').1 = p + bs + bs * m ∧
          Linked (linkBlocks bs m (p + bs) mem').2.loadPtr (some (p + bs))
            (List.range' (p + bs) m bs) (some (p + bs + bs * m)) :=
        ih (by omega) (by omega)
      refine ⟨by rw [linkBlocks, hlast]; omega, ?_⟩
      rw [List.range'_succ, linkBlocks]
      refine ⟨rfl, ?_⟩
      have hsame : (linkBlocks bs m (p + bs) mem').2.loadPtr p = mem'.loadPtr p :=
        loadPtr_congr fun x h₁ h₂ => linkBlocks_outside hbs (by omega)
      have hfirst : (linkBlocks bs m (p + bs) mem').2.loadPtr p = some (p + bs) := by
        rw [hsame, hmem, loadPtr_store64_same mem (by omega), toPtr_of_pos (by omega)]
      rw [hfirst, show p + (bs * m + bs) = p + bs + bs * m by omega]
      exact hchain

/-- The memory after `split_page`. -/
theorem splitPage_mem_outside {s : McKusickAllocator} {page b start x : ℕ} (hb : b < 8)
    (hstart : (s.info page).pageAddr = start) (hpos : 0 < start) (hend : start + 4096 ≤ 2 ^ 64)
    (hx : x < start ∨ start + 4096 ≤ x) : (s.splitPage page (blockSize b)).mem x = s.mem x := by
  have hbs := le_blockSize b
  obtain ⟨m, hm, hmul⟩ := exists_blocksPerPage hb
  have hlast : (linkBlocks (blockSize b) m start s.mem).1 = start + blockSize b * m :=
    (linkBlocks_spec (by omega) hpos (by omega)).1
  simp only [splitPage, hstart, pageSize, hm, Nat.add_sub_cancel]
  rw [store64_outside _ (by rw [hlast]; omega), linkBlocks_outside (by omega) (by omega)]

/-- **`split_page` puts the blocks of the page in front of the bucket's list.** -/
theorem splitPage_chain {s : McKusickAllocator} {page b start : ℕ} {old : List ℕ} (hb : b < 8)
    (hstart : (s.info page).pageAddr = start) (hpos : 0 < start) (hend : start + 4096 ≤ 2 ^ 64)
    (hold : Linked s.mem.loadPtr (toPtr (s.freelistarr b)) old none)
    (hbound : s.freelistarr b < 2 ^ 64)
    (hapart : ∀ a ∈ old, a + 8 ≤ start ∨ start + 4096 ≤ a) :
    Linked (s.splitPage page (blockSize b)).mem.loadPtr
      (toPtr ((s.splitPage page (blockSize b)).freelistarr b)) (blocksFrom start b ++ old)
      none := by
  have hbs := le_blockSize b
  obtain ⟨m, hm, hmul⟩ := exists_blocksPerPage hb
  obtain ⟨hlast, hchain⟩ : (linkBlocks (blockSize b) m start s.mem).1 = start + blockSize b * m ∧
      Linked (linkBlocks (blockSize b) m start s.mem).2.loadPtr (some start)
        (List.range' start m (blockSize b)) (some (start + blockSize b * m)) :=
    linkBlocks_spec (by omega) hpos (by omega)
  have hrest : Linked (s.splitPage page (blockSize b)).mem.loadPtr (toPtr (s.freelistarr b))
      old none :=
    hold.congr fun a ha => loadPtr_congr fun x h₁ h₂ =>
      splitPage_mem_outside hb hstart hpos hend (by have := hapart a ha; omega)
  have hbucket : (s.splitPage page (blockSize b)).freelistarr b = start := by
    simp only [splitPage, getBucketIndex_blockSize hb, hstart, Function.update_self]
  rw [hbucket, toPtr_of_pos hpos]
  refine Linked.append_iff.mpr ⟨toPtr (s.freelistarr b), ?_, hrest⟩
  -- the last block is linked to the old list
  have hblocks : blocksFrom start b = List.range' start m (blockSize b)
      ++ [start + blockSize b * m] := by
    rw [blocksFrom, hm, List.range'_concat]
  have hmem : (s.splitPage page (blockSize b)).mem
      = (linkBlocks (blockSize b) m start s.mem).2.store64 (start + blockSize b * m)
          (s.freelistarr b) := by
    simp only [splitPage, hstart, pageSize, hm, Nat.add_sub_cancel, hlast,
      getBucketIndex_blockSize hb]
  rw [hblocks]
  refine Linked.append_iff.mpr ⟨some (start + blockSize b * m), ?_, rfl, ?_⟩
  · apply hchain.congr
    intro a ha
    obtain ⟨j, hj, rfl⟩ := List.mem_range'.mp ha
    have := Nat.mul_le_mul_left (blockSize b) (Nat.succ_le_of_lt hj)
    rw [Nat.succ_eq_add_one, Nat.mul_add] at this
    rw [hmem, loadPtr_store64_disjoint _ (by omega)]
  · rw [hmem, loadPtr_store64_same _ hbound]
    rfl

end McKusickAllocator

end McKusick
