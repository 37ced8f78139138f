/-
# What `alloc` and `free` do to the block list

`Listed lo hi s l` says that `l` is the block list of `s` in normal form: its blocks
tile the region and no two neighbours are free.  Each call keeps the normal form, and
the lemmas say which used blocks it adds or takes away.
-/
import OSLabs.BestFitBlocks

namespace BestFit

open Memory BestFitAllocator

/-- **The block list of an allocator**, in normal form. -/
structure Listed (lo hi : ℕ) (s : BestFitAllocator) (l : List Block) : Prop where
  head_eq : s.head = lo
  total_eq : s.totalSize = hi - lo
  blocks : Blocks lo hi s.mem l
  noFreePair : NoFreePair (l.map Tile.free)
  roomy : Roomy l ∨ l = [⟨lo, hi - lo, true⟩]

namespace Listed

variable {lo hi size aligned : ℕ} {s : BestFitAllocator} {l pre post : List Block} {b : Block}

/-- A block that is used, or not small, shows that no block is small. -/
theorem roomy_of_mem (h : Listed lo hi s l) (hb : b ∈ l) (hcase : b.free = false ∨ 40 ≤ b.size) :
    Roomy l := by
  rcases h.roomy with hbig | rfl
  · exact hbig
  · obtain rfl := List.mem_singleton.mp hb
    rcases hcase with hfree | hsize
    · exact absurd hfree (by simp)
    · intro c hc
      obtain rfl := List.mem_singleton.mp hc
      exact hsize

theorem size_pos (h : Listed lo hi s l) (hr : Region lo hi) (hb : b ∈ l) : 0 < b.size := by
  rcases h.roomy with hbig | rfl
  · have := hbig b hb
    omega
  · obtain rfl := List.mem_singleton.mp hb
    exact Nat.sub_pos_of_lt hr.lo_lt

/-- The head of the list is its first block. -/
theorem firstAddr_eq (h : Listed lo hi s l) (hr : Region lo hi) : firstAddr l = s.head := by
  rw [h.head_eq]
  cases l with
  | nil => exact absurd h.blocks.tiles hr.lo_lt.ne
  | cons b l => exact h.blocks.tiles.1

/-! ## `alloc` -/

/-- **The search** of `alloc` ends with null when no block fits, and otherwise with the
best one. -/
theorem search (h : Listed lo hi s l) (hr : Region lo hi) (aligned : ℕ) :
    ∃ best, search s.mem aligned (s.totalSize + 1) s.head 0 ((s.totalSize + 1) % wordSize)
        = some best ∧
      ((best = 0 ∧ ∀ c ∈ l, ¬ Fits aligned c) ∨
        ∃ pre b post, l = pre ++ b :: post ∧ IsBestFit aligned pre b post ∧ best = b.addr) := by
  have hlen := h.blocks.length_le fun b hb => h.size_pos hr hb
  have hlimit : (s.totalSize + 1) % wordSize = hi - lo + 1 := by
    have h₁ := hr.lo_pos
    have h₂ := hr.hi_le
    have h₃ := hr.lo_dvd
    rw [h.total_eq]
    simp only [wordSize]
    omega
  have hsmall : ∀ b ∈ l, b.size < hi - lo + 1 := fun b hb => by
    have := h.blocks.tiles.bounds hb
    omega
  obtain ⟨best, min, heq, hstate⟩ := search_spec h.blocks.headers (fun b hb => h.blocks.pos hr hb)
    hsmall (show l.length ≤ s.totalSize + 1 by rw [h.total_eq]; omega)
    (.none (by simp) : SearchState aligned (hi - lo + 1) [] 0 (hi - lo + 1))
  rw [h.firstAddr_eq hr] at heq
  refine ⟨best, by rw [hlimit]; exact heq, ?_⟩
  cases hstate with
  | none hno => exact Or.inl ⟨rfl, hno⟩
  | some pre b post hl hbest => exact Or.inr ⟨pre, b, post, hl, hbest, rfl⟩

/-- A size that does not wrap is rounded up with room for the header. -/
theorem alignedSize_spec (hpos : 0 < size) (hword : size + 39 < wordSize) :
    size + 32 ≤ alignedSize size ∧ alignedSize size ≤ size + 39 ∧ 8 ∣ alignedSize size ∧
      40 ≤ alignedSize size := by
  simp only [wordSize] at hword
  have heq : alignedSize size = (size + 39) / 8 * 8 := by
    simp only [alignedSize, alignDown, sizeofBlockHeader, wordSize]
    rw [Nat.mod_eq_of_lt (by omega)]
  rw [heq]
  exact ⟨by omega, by omega, Nat.dvd_mul_left _ _, by omega⟩

/-- What the best block becomes: it is split when the rest has room for a block. -/
def granted (aligned : ℕ) (b : Block) : List Block :=
  if aligned + 40 ≤ b.size then
    [⟨b.addr, aligned, false⟩, ⟨b.addr + aligned, b.size - aligned, true⟩]
  else [{ b with free := false }]

/-- The granted block starts where the best block did, and is large enough. -/
theorem granted_eq (aligned : ℕ) (b : Block) (hle : aligned ≤ b.size) :
    ∃ x rest, granted aligned b = x :: rest ∧ x.addr = b.addr ∧ x.free = false ∧
      aligned ≤ x.size ∧ ∀ c ∈ rest, c.free = true := by
  rw [granted]
  split_ifs
  · exact ⟨_, _, rfl, rfl, rfl, le_rfl, by simp⟩
  · exact ⟨_, _, rfl, rfl, rfl, hle, by simp⟩

/-- The list after the best block was granted is in normal form. -/
theorem noFreePair_granted (h : NoFreePair ((pre ++ b :: post).map Tile.free))
    (hfree : b.free = true) :
    NoFreePair ((pre ++ granted aligned b ++ post).map Tile.free) := by
  rw [List.map_append, List.map_cons, hfree, NoFreePair.append_true_iff] at h
  obtain ⟨⟨hpre, -⟩, hpost, hhead⟩ := h
  have hpost' : NoFreePair (true :: post.map Tile.free) :=
    NoFreePair.cons_true_iff.mpr ⟨hpost, hhead⟩
  rw [granted]
  split_ifs
  · simpa using NoFreePair.append_false_iff.mpr ⟨hpre, hpost'⟩
  · simpa using NoFreePair.append_false_iff.mpr ⟨hpre, hpost⟩

/-- The memory after the best block was granted. -/
def grantedMem (m : Memory) (aligned : ℕ) (b : Block) : Memory :=
  setIsFree (if aligned + 40 ≤ b.size then splitBlock m b.addr aligned else m) b.addr false

/-- That memory holds the new list. -/
theorem blocks_granted {m : Memory} (h : Blocks lo hi m (pre ++ b :: post)) (hr : Region lo hi)
    (hbig : Roomy (pre ++ b :: post)) (haligned : 40 ≤ aligned) (hdvd : 8 ∣ aligned) :
    Blocks lo hi (grantedMem m aligned b) (pre ++ granted aligned b ++ post) ∧
      Roomy (pre ++ granted aligned b ++ post) := by
  have hpre : ∀ c ∈ pre, 40 ≤ c.size := fun c hc => hbig c (List.mem_append_left _ hc)
  have hpost : ∀ c ∈ post, 40 ≤ c.size := fun c hc => hbig c (by simp [hc])
  rw [granted, grantedMem]
  split_ifs with hsplit
  · have hblocks := h.splitBlock hr hbig haligned hsplit hdvd
    have hbig' : Roomy (pre ++ ⟨b.addr, aligned, b.free⟩ ::
        ⟨b.addr + aligned, b.size - aligned, true⟩ :: post) := by
      simp only [Roomy, List.mem_append, List.mem_cons]
      rintro c (hc | rfl | rfl | hc)
      · exact hpre c hc
      · exact haligned
      · exact Nat.le_sub_of_add_le (by omega)
      · exact hpost c hc
    refine ⟨by simpa using hblocks.setIsFree (f := false) hbig', ?_⟩
    simp only [Roomy, List.mem_append, List.mem_cons] at hbig' ⊢
    rintro c ((hc | rfl | rfl | hc) | hc)
    · exact hpre c hc
    · exact haligned
    · exact Nat.le_sub_of_add_le (by omega)
    · exact absurd hc List.not_mem_nil
    · exact hpost c hc
  · refine ⟨by simpa using h.setIsFree (f := false) hbig, ?_⟩
    simp only [Roomy, List.mem_append, List.mem_cons]
    rintro c ((hc | rfl | hc) | hc)
    · exact hpre c hc
    · exact hbig b (by simp)
    · exact absurd hc List.not_mem_nil
    · exact hpost c hc

/-- Granting a block changes no byte outside the old and the new headers. -/
theorem grantedMem_outside {m : Memory} {z : ℕ} (h : Blocks lo hi m (pre ++ b :: post))
    (haligned : 40 ≤ aligned) (hz : OutsideHeaders (pre ++ b :: post) z)
    (hnew : OutsideHeaders (granted aligned b) z) : grantedMem m aligned b z = m z := by
  rw [grantedMem, setIsFree_outside (hz b (by simp))]
  rw [granted] at hnew
  split_ifs at hnew ⊢ with hsplit
  · have hrest := hnew ⟨b.addr + aligned, b.size - aligned, true⟩ (by simp)
    exact splitBlock_outside h.headers (by omega) hz hrest
  · rfl

/-- A request that no block fits is refused without a change. -/
theorem alloc_none (h : Listed lo hi s l) (hr : Region lo hi) (hpos : 0 < size)
    (hno : ∀ c ∈ l, ¬ Fits (alignedSize size) c) : s.alloc size = some (0, s) := by
  obtain ⟨best, hsearch, ⟨rfl, -⟩ | ⟨pre, b, post, rfl, hbest, -⟩⟩ := h.search hr (alignedSize size)
  · rw [BestFitAllocator.alloc, if_neg hpos.ne']
    simp [hsearch]
  · exact absurd hbest.fits (hno b (by simp))

/-- A request that some block fits is answered with a pointer. -/
theorem alloc_some (h : Listed lo hi s l) (hr : Region lo hi) (hpos : 0 < size) {c : Block}
    (hc : c ∈ l) (hfits : Fits (alignedSize size) c) :
    ∃ p s', s.alloc size = some (p, s') ∧ p ≠ 0 := by
  obtain ⟨best, hsearch, ⟨rfl, hno⟩ | ⟨pre, b, post, rfl, -, rfl⟩⟩ := h.search hr (alignedSize size)
  · exact absurd hfits (hno c hc)
  · have hbpos := h.blocks.pos hr (b := b) (by simp)
    rw [BestFitAllocator.alloc, if_neg hpos.ne']
    simp [hsearch, hbpos.ne']

/-- **`alloc`** returns null and changes nothing when no block fits; otherwise it grants
the best block, and changes no byte outside the headers. -/
theorem alloc (h : Listed lo hi s l) (hr : Region lo hi) (hpos : 0 < size)
    (hword : size + 39 < wordSize) :
    (s.alloc size = some (0, s) ∧ ∀ c ∈ l, ¬ Fits (alignedSize size) c) ∨
      ∃ pre b post s', l = pre ++ b :: post ∧ IsBestFit (alignedSize size) pre b post ∧
        s.alloc size = some (b.addr + 32, s') ∧
        Listed lo hi s' (pre ++ granted (alignedSize size) b ++ post) ∧
        ∀ z, OutsideHeaders (pre ++ b :: post) z →
          OutsideHeaders (granted (alignedSize size) b) z → s'.mem z = s.mem z := by
  obtain ⟨-, -, hdvd, h40⟩ := alignedSize_spec hpos hword
  obtain ⟨best, hsearch, ⟨rfl, hno⟩ | ⟨pre, b, post, rfl, hbest, rfl⟩⟩ :=
    h.search hr (alignedSize size)
  · exact Or.inl ⟨h.alloc_none hr hpos hno, hno⟩
  · have hb : b ∈ pre ++ b :: post := by simp
    have hfits := hbest.fits
    have hbig := h.roomy_of_mem hb (Or.inr (h40.trans hfits.2))
    have hend := h.blocks.end_le hr hb
    have hbpos := h.blocks.pos hr hb
    have hwrap : (alignedSize size + minimumBlockSize) % wordSize = alignedSize size + 40 := by
      have := hfits.2
      have := hr.page_le
      have := (h.blocks.tiles.bounds hb).1
      simp only [minimumBlockSize, sizeofBlockHeader, wordSize]
      omega
    have hsize : BestFit.size s.mem b.addr = b.size :=
      (Threaded.append_iff.mp h.blocks.headers).2.1.1
    obtain ⟨hblocks, hroomy⟩ := blocks_granted h.blocks hr hbig h40 hdvd
    refine Or.inr ⟨pre, b, post, { s with mem := grantedMem s.mem (alignedSize size) b }, rfl,
      hbest, ?_, ⟨h.head_eq, h.total_eq, hblocks, noFreePair_granted h.noFreePair hfits.1,
      Or.inl hroomy⟩, fun z hz hnew => grantedMem_outside h.blocks h40 hz hnew⟩
    rw [BestFitAllocator.alloc, if_neg hpos.ne']
    simp [hsearch, hbpos.ne', hwrap, hsize, grantedMem]

/-! ## `free` -/

/-- The first merge absorbs the next block if it is free. -/
theorem mergeNext_eq (m : Memory) (block : ℕ) :
    mergeNext m block =
      if next m block ≠ 0 ∧ isFree m (next m block) then absorb m block (next m block) else m := by
  simp only [mergeNext, absorb, relinkNext, next_setSize]

/-- The second merge lets the previous block absorb this one if it is free. -/
theorem mergePrev_eq {m : Memory} {block : ℕ} (hfar : Far (prev m block) block) :
    mergePrev m block =
      if prev m block ≠ 0 ∧ isFree m (prev m block) then absorb m (prev m block) block
      else m := by
  set p := prev m block with hp
  set m₁ := setSize m p (BestFit.size m p + BestFit.size m block) with hm₁
  set m₂ := setNext m₁ p (next m block) with hm₂
  have h₁ : SameHeader m m₁ block := sameHeader_setSize m _ hfar
  have h₂ : SameHeader m m₂ block := h₁.trans (sameHeader_setNext m₁ _ hfar)
  have hnext : next m block < 2 ^ 64 := by
    have := read_lt m 8 (block + 16)
    norm_num at this ⊢
    exact this
  have hset : next m₂ p = next m block := next_setNext m₁ _ hnext
  simp only [mergePrev, absorb, relinkNext, ← hp, ← hm₁, h₁.2.2.2, h₁.2.2.1, ← hm₂, h₂.2.2.2,
    h₂.2.2.1, hset]

/-- A block that is free, with the two sides of the list around it, before the merges. -/
structure Freed (lo hi : ℕ) (m : Memory) (pre : List Block) (b : Block) (post : List Block) :
    Prop where
  blocks : Blocks lo hi m (pre ++ b :: post)
  roomy : Roomy (pre ++ b :: post)
  free : b.free = true
  before : NoFreePair (pre.map Tile.free)
  after : NoFreePair (post.map Tile.free)

namespace Freed

variable {m : Memory}

/-- **The first merge**: afterwards no free block follows. -/
theorem mergeNext (h : Freed lo hi m pre b post) (hr : Region lo hi) :
    ∃ b' post', Freed lo hi (mergeNext m b.addr) pre b' post' ∧ b'.addr = b.addr ∧
      (post'.map Tile.free).head? ≠ some true ∧ (∀ c ∈ post', c ∈ post) ∧
      ∀ c : Block, c.free = false → (c ∈ post' ↔ c ∈ post) := by
  obtain ⟨-, ⟨-, -, -, hnext⟩, hpostH⟩ := Threaded.append_iff.mp h.blocks.headers
  rw [mergeNext_eq, hnext]
  cases post with
  | nil => exact ⟨b, [], by simpa using h, rfl, by simp, by simp, by simp⟩
  | cons y post =>
      have hy : y.addr ≠ 0 := (h.blocks.pos hr (b := y) (by simp)).ne'
      have hfree : isFree m y.addr = y.free := hpostH.1.2.1
      rw [firstKey_cons, hfree]
      by_cases hyf : y.free = true
      · rw [if_pos ⟨hy, hyf⟩]
        have hafter := h.after
        rw [List.map_cons, hyf] at hafter
        obtain ⟨hpost, hhead⟩ := NoFreePair.cons_true_iff.mp hafter
        refine ⟨{ b with size := b.size + y.size }, post,
          ⟨h.blocks.absorb hr h.roomy, ?_, h.free, h.before, hpost⟩, rfl, hhead,
          fun c hc => List.mem_cons_of_mem y hc, fun c hc => ?_⟩
        · intro c hc
          rcases List.mem_append.mp hc with hc | hc
          · exact h.roomy c (List.mem_append_left _ hc)
          rcases List.mem_cons.mp hc with rfl | hc
          · exact (h.roomy b (by simp)).trans (Nat.le_add_right _ _)
          · exact h.roomy c (by simp [hc])
        · rw [List.mem_cons]
          refine ⟨Or.inr, fun hmem => hmem.resolve_left ?_⟩
          rintro rfl
          exact absurd hyf (by simp [hc])
      · rw [if_neg (by simp [hyf])]
        exact ⟨b, y :: post, h, rfl, by simpa using hyf, fun c hc => hc, fun c _ => Iff.rfl⟩

/-- Every block of the list starts below the end of the address space. -/
theorem addr_lt (h : Freed lo hi m pre b post) (hr : Region lo hi) :
    ∀ c ∈ pre ++ b :: post, c.addr < 2 ^ 64 := fun c hc => by
  have := h.blocks.end_le hr hc
  have := h.roomy c hc
  omega

/-- The first merge changes no byte outside the headers. -/
theorem mergeNext_outside {z : ℕ} (h : Freed lo hi m pre b post) (hr : Region lo hi)
    (hz : OutsideHeaders (pre ++ b :: post) z) :
    BestFitAllocator.mergeNext m b.addr z = m z := by
  obtain ⟨-, ⟨-, -, -, hnext⟩, -⟩ := Threaded.append_iff.mp h.blocks.headers
  rw [mergeNext_eq, hnext]
  cases post with
  | nil => rfl
  | cons y post =>
      rw [firstKey_cons]
      split_ifs
      · exact absorb_outside h.blocks.headers (h.blocks.spaced h.roomy)
          (fun c hc => h.addr_lt hr c (by simp [hc])) hz
      · rfl

/-- Between blocks that are not free the list is in normal form. -/
theorem noFreePair (h : Freed lo hi m pre b post)
    (hlast : (pre.map Tile.free).getLast? ≠ some true)
    (hhead : (post.map Tile.free).head? ≠ some true) :
    NoFreePair ((pre ++ b :: post).map Tile.free) := by
  rw [List.map_append, List.map_cons, h.free]
  exact NoFreePair.append_true_iff.mpr ⟨⟨h.before, hlast⟩, h.after, hhead⟩

/-- The free block does not count among the used ones. -/
theorem mem_used_iff {c : Block} (hb : b.free = true) (hc : c.free = false) :
    c ∈ pre ++ b :: post ↔ c ∈ pre ∨ c ∈ post := by
  have hne : c ≠ b := by
    rintro rfl
    exact absurd hb (by simp [hc])
  simp [hne]

/-- The header before `b`, null at the head of the list, does not reach into that of `b`. -/
theorem far_prev (h : Freed lo hi m pre b post) (hr : Region lo hi) :
    Far (prev m b.addr) b.addr := by
  obtain ⟨-, ⟨-, -, hprev, -⟩, -⟩ := Threaded.append_iff.mp h.blocks.headers
  rcases List.eq_nil_or_concat' pre with rfl | ⟨pre, x, rfl⟩
  · rw [lastKey_nil] at hprev
    have := (h.blocks.tiles.bounds (b := b) (by simp)).1
    have := hr.page_le
    rw [hprev]
    exact Or.inl (by omega)
  · rw [lastKey_append, lastKey_cons, lastKey_nil] at hprev
    rw [hprev]
    exact Or.inl ((h.blocks.spaced h.roomy).far.1 x (by simp))

/-- **The second merge** restores the normal form. -/
theorem mergePrev (h : Freed lo hi m pre b post) (hr : Region lo hi)
    (hhead : (post.map Tile.free).head? ≠ some true) :
    ∃ l, Blocks lo hi (mergePrev m b.addr) l ∧ Roomy l ∧ NoFreePair (l.map Tile.free) ∧
      ∀ c : Block, c.free = false → (c ∈ l ↔ c ∈ pre ∨ c ∈ post) := by
  obtain ⟨hpreH, ⟨-, -, hprev, -⟩, -⟩ := Threaded.append_iff.mp h.blocks.headers
  rw [mergePrev_eq (h.far_prev hr)]
  rcases List.eq_nil_or_concat' pre with rfl | ⟨pre, x, rfl⟩
  · -- `b` heads the list
    rw [hprev, lastKey_nil, if_neg (by simp)]
    exact ⟨_, h.blocks, h.roomy, h.noFreePair (by simp) hhead, fun c hc => mem_used_iff h.free hc⟩
  · rw [lastKey_append, lastKey_cons, lastKey_nil] at hprev
    have hx : x ∈ pre ++ [x] ++ b :: post := by simp
    have hxpos : x.addr ≠ 0 := (h.blocks.pos hr hx).ne'
    have hfree : isFree m x.addr = x.free := (Threaded.append_iff.mp hpreH).2.1.2.1
    have hblocks := h.blocks
    have hroomy := h.roomy
    rw [List.append_assoc, List.singleton_append] at hblocks hroomy
    rw [hprev, hfree]
    by_cases hxf : x.free = true
    · rw [if_pos ⟨hxpos, hxf⟩]
      have hbefore := h.before
      rw [List.map_append, List.map_cons, hxf, List.map_nil, NoFreePair.append_true_iff] at hbefore
      refine ⟨_, hblocks.absorb hr hroomy, ?_, ?_, fun c hc => ?_⟩
      · intro c hc
        rcases List.mem_append.mp hc with hc | hc
        · exact hroomy c (List.mem_append_left _ hc)
        rcases List.mem_cons.mp hc with rfl | hc
        · exact (hroomy x (by simp)).trans (Nat.le_add_right _ _)
        · exact hroomy c (by simp [hc])
      · rw [List.map_append, List.map_cons, hxf]
        exact NoFreePair.append_true_iff.mpr ⟨hbefore.1, h.after, hhead⟩
      · have hne : c ≠ x := by
          rintro rfl
          exact absurd hxf (by simp [hc])
        rw [mem_used_iff (b := { x with size := x.size + b.size }) hxf hc]
        simp [hne]
    · rw [if_neg (by simp [hxf])]
      exact ⟨_, h.blocks, h.roomy, h.noFreePair (by simpa using hxf) hhead,
        fun c hc => mem_used_iff h.free hc⟩

/-- The second merge changes no byte outside the headers. -/
theorem mergePrev_outside {z : ℕ} (h : Freed lo hi m pre b post) (hr : Region lo hi)
    (hz : OutsideHeaders (pre ++ b :: post) z) :
    BestFitAllocator.mergePrev m b.addr z = m z := by
  obtain ⟨-, ⟨-, -, hprev, -⟩, -⟩ := Threaded.append_iff.mp h.blocks.headers
  rw [mergePrev_eq (h.far_prev hr)]
  rcases List.eq_nil_or_concat' pre with rfl | ⟨pre, x, rfl⟩
  · rw [hprev, lastKey_nil, if_neg (by simp)]
  · rw [lastKey_append, lastKey_cons, lastKey_nil] at hprev
    have hblocks := h.blocks
    have hroomy := h.roomy
    have hlt := h.addr_lt hr
    rw [List.append_assoc, List.singleton_append] at hblocks hroomy hz hlt
    rw [hprev]
    split_ifs
    · exact absorb_outside hblocks.headers (hblocks.spaced hroomy)
        (fun c hc => hlt c (by simp [hc])) hz
    · rfl

end Freed

/-- `free` changes the memory only. -/
theorem free_eq (s : BestFitAllocator) (addr : ℕ) :
    (s.free (addr + 32)).head = s.head ∧ (s.free (addr + 32)).totalSize = s.totalSize ∧
      (s.free (addr + 32)).mem = BestFitAllocator.mergePrev
        (BestFitAllocator.mergeNext (setIsFree s.mem addr true) addr) addr := by
  have hptr : addr + 32 ≠ 0 := Nat.succ_ne_zero _
  simp only [BestFitAllocator.free, hptr, if_false, sizeofBlockHeader, Nat.add_sub_cancel,
    and_self]

/-- **`free`** of a used block takes that block, and no other, from the used ones, and changes
no byte outside the headers. -/
theorem free (h : Listed lo hi s (pre ++ b :: post)) (hr : Region lo hi)
    (hused : b.free = false) :
    ∃ l, Listed lo hi (s.free (b.addr + 32)) l ∧
      (∀ c : Block, c.free = false → (c ∈ l ↔ c ∈ pre ∨ c ∈ post)) ∧
      ∀ z, OutsideHeaders (pre ++ b :: post) z → (s.free (b.addr + 32)).mem z = s.mem z := by
  have hbig := h.roomy_of_mem (b := b) (by simp) (Or.inl hused)
  have hnofree := h.noFreePair
  rw [List.map_append, List.map_cons, hused, NoFreePair.append_false_iff] at hnofree
  have hfreed : Freed lo hi (setIsFree s.mem b.addr true) pre { b with free := true } post := by
    refine ⟨h.blocks.setIsFree hbig, ?_, rfl, hnofree.1, hnofree.2⟩
    intro c hc
    rcases List.mem_append.mp hc with hc | hc
    · exact hbig c (List.mem_append_left _ hc)
    rcases List.mem_cons.mp hc with rfl | hc
    · exact hbig b (by simp)
    · exact hbig c (by simp [hc])
  obtain ⟨b', post', hfreed', haddr, hhead, hsub, hpost⟩ := hfreed.mergeNext hr
  obtain ⟨l, hblocks, hroomy, hfree, hmem⟩ := hfreed'.mergePrev hr hhead
  obtain ⟨hhead', htotal', hmem'⟩ := free_eq s b.addr
  refine ⟨l, ⟨hhead'.trans h.head_eq, htotal'.trans h.total_eq, ?_, hfree, Or.inl hroomy⟩,
    fun c hc => (hmem c hc).trans (or_congr_right (hpost c hc)), fun z hz => ?_⟩
  · simp only [haddr] at hblocks
    rw [hmem']
    exact hblocks
  · -- the merges write into headers that the list had before
    have hb := hz b (by simp)
    have hzfree : OutsideHeaders (pre ++ { b with free := true } :: post) z := fun c hc => by
      rcases List.mem_append.mp hc with hc | hc
      · exact hz c (List.mem_append_left _ hc)
      rcases List.mem_cons.mp hc with rfl | hc
      · exact hb
      · exact hz c (by simp [hc])
    have hzmerged : OutsideHeaders (pre ++ b' :: post') z := fun c hc => by
      rcases List.mem_append.mp hc with hc | hc
      · exact hz c (List.mem_append_left _ hc)
      rcases List.mem_cons.mp hc with rfl | hc
      · rw [haddr]
        exact hb
      · exact hz c (by simp [hsub c hc])
    have hnext := hfreed.mergeNext_outside hr hzfree
    have hprev := hfreed'.mergePrev_outside hr hzmerged
    simp only [haddr] at hnext hprev
    rw [hmem', hprev, hnext, setIsFree_outside hb]

end Listed

end BestFit
