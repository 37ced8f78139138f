/-
# Safety and canonical form of the best-fit allocator

The block list tiles the region, its used blocks are exactly the live allocations, and
the whole list, links included, is a function of the used blocks.
-/
import OSLabs.BestFitInvariant

namespace BestFit

open Memory BestFitAllocator

/-! ## Live allocations are safe -/

namespace Inv

variable {lo hi : ℕ} {c : Client BestFitAllocator} {l : List Block}

/-- Live allocations lie in the region and do not overlap. -/
theorem safeHeap (h : Inv lo hi c l) : SafeHeap lo hi c.live := by
  refine ⟨fun x hx => ?_, h.nodup.of_map.pairwise_of_forall_ne fun x hx y hy hne => ?_⟩
  · obtain ⟨b, hb, hback⟩ := h.backed x hx
    have hptr := hback.ptr_eq
    have hroom := hback.room
    obtain ⟨h₁, h₂⟩ := h.listed.blocks.tiles.bounds hb
    exact ⟨by omega, by omega⟩
  · obtain ⟨b, hb, hback⟩ := h.backed x hx
    obtain ⟨d, hd, hdback⟩ := h.backed y hy
    have hbd : b ≠ d := by
      rintro rfl
      exact hne (List.inj_on_of_nodup_map h.nodup hx hy (hback.ptr_eq.trans hdback.ptr_eq.symm))
    have h₁ := hback.ptr_eq
    have h₂ := hdback.ptr_eq
    have h₃ := hback.room
    have h₄ := hdback.room
    rcases h.listed.blocks.disjoint hb hd hbd with h₅ | h₅
    · exact Or.inl (by omega)
    · exact Or.inr (by omega)

/-- A live allocation meets no header. -/
theorem apart_header (h : Inv lo hi c l) {x : Allocation} {b : Block} (hx : x ∈ c.live)
    (hb : b ∈ l) : x.ptr + x.size ≤ b.addr ∨ b.addr + 32 ≤ x.ptr := by
  obtain ⟨d, hd, hback⟩ := h.backed x hx
  have hptr := hback.ptr_eq
  have hroom := hback.room
  have hbig := h.listed.roomy_of_mem hd (Or.inl hback.used) b hb
  by_cases hbd : b = d
  · subst hbd
    exact Or.inr (by omega)
  · rcases h.listed.blocks.disjoint hb hd hbd with h₁ | h₁
    · exact Or.inr (by omega)
    · exact Or.inl (by omega)

/-- The next block starts where a block ends, and links back to it. -/
theorem next_eq (h : Inv lo hi c l) {b : Block} (hb : b ∈ l)
    (hnext : next c.heap.mem b.addr ≠ 0) :
    next c.heap.mem b.addr = b.addr + size c.heap.mem b.addr ∧
      prev c.heap.mem (next c.heap.mem b.addr) = b.addr := by
  obtain ⟨pre, post, rfl⟩ := List.append_of_mem hb
  obtain ⟨-, ⟨hsize, -, -, hlink⟩, hpost⟩ :=
    Threaded.append_iff.mp h.listed.blocks.headers
  obtain ⟨mid, -, rfl, htiles⟩ := Tiles.append_iff.mp h.listed.blocks.tiles
  cases post with
  | nil => exact absurd hlink hnext
  | cons d post =>
      have haddr : d.addr = b.addr + b.size := htiles.1
      rw [hlink, hsize, firstKey_cons]
      exact ⟨haddr, hpost.1.2.2.1⟩

end Inv

/-- **The allocator refines the abstract one.** -/
theorem refines_safeHeap {lo hi : ℕ} {c c' : Client BestFitAllocator} {es : List HeapEvent}
    (h : Run Step c es c') (hc : ∃ l, Inv lo hi c l) :
    Run (SafeHeap.Step lo hi) c.live es c'.live :=
  Client.refines_safeHeap (fun _ _ _ hI hst => Inv.step hI hst)
    (fun _ hI => hI.elim fun _ hinv => hinv.safeHeap) h hc

/-- A mapping of one page. -/
theorem isMapping_one_page : IsMapping 4096 (requestedSize 4096) :=
  ⟨by decide, by decide, by decide, by decide⟩

/-- A mapping of the default size. -/
theorem isMapping_default : IsMapping 4096 (requestedSize 65536) :=
  ⟨by decide, by decide, by decide, by decide⟩

/-! ## The representation invariant -/

/-- `l` is the list of the blocks from `head` on, and it represents the live allocations. -/
structure Represents (c : Client BestFitAllocator) (l : List Block) : Prop where
  headers : Headers c.heap.mem 0 l 0
  head_eq : firstAddr l = c.heap.head
  head_prev : prev c.heap.mem c.heap.head = 0
  tiles : Tiles c.heap.head l (c.heap.head + c.heap.totalSize)
  next_eq : ∀ b ∈ l, next c.heap.mem b.addr ≠ 0 →
    next c.heap.mem b.addr = b.addr + size c.heap.mem b.addr ∧
      prev c.heap.mem (next c.heap.mem b.addr) = b.addr
  size_dvd : ∀ b ∈ l, 8 ∣ b.size
  size_sum : (l.map Tile.size).sum = c.heap.totalSize
  size_min : ∀ b ∈ l, b.size < 40 → l = [⟨c.heap.head, c.heap.totalSize, true⟩]
  noFreePair : NoFreePair (l.map Tile.free)
  used_iff : ∀ b ∈ l, b.free = false ↔ ∃ x ∈ c.live, Backs b x
  backed : ∀ x ∈ c.live, ∃ b ∈ l, Backs b x
  apart : c.live.Pairwise Allocation.Apart
  apart_header : ∀ x ∈ c.live, ∀ b ∈ l, x.ptr + x.size ≤ b.addr ∨ b.addr + 32 ≤ x.ptr
  aligned : ∀ x ∈ c.live, 8 ∣ x.ptr

/-- A state with the invariant is represented by its block list. -/
theorem Inv.represents {lo hi : ℕ} {c : Client BestFitAllocator} {l : List Block}
    (h : Inv lo hi c l) : Represents c l := by
  have hr := h.region
  have hlisted := h.listed
  have hend : c.heap.head + c.heap.totalSize = hi := by
    rw [hlisted.head_eq, hlisted.total_eq]
    have := hr.lo_lt
    omega
  have htiles : Tiles c.heap.head l (c.heap.head + c.heap.totalSize) := by
    rw [hend, hlisted.head_eq]
    exact hlisted.blocks.tiles
  have hfirst := hlisted.firstAddr_eq hr
  refine ⟨hlisted.blocks.headers, hfirst, ?_, htiles, fun b hb => h.next_eq hb,
    hlisted.blocks.size_dvd, Nat.add_left_cancel htiles.sum_size, fun b hb hsmall => ?_,
    hlisted.noFreePair, fun b hb => ⟨h.used b hb, fun ⟨x, _, hback⟩ => hback.used⟩, h.backed,
    h.safeHeap.apart, fun x hx b hb => h.apart_header hx hb, fun x hx => ?_⟩
  · cases l with
    | nil => exact absurd htiles (by rw [hend, hlisted.head_eq]; exact hr.lo_lt.ne)
    | cons b l =>
        rw [← hfirst]
        exact hlisted.blocks.headers.1.2.2.1
  · rcases hlisted.roomy with hbig | hsingle
    · exact absurd (hbig b hb) (by omega)
    · rw [hlisted.head_eq, hlisted.total_eq]
      exact hsingle
  · obtain ⟨b, hb, hback⟩ := h.backed x hx
    rw [hback.ptr_eq]
    exact Nat.dvd_add (hlisted.blocks.addr_dvd hr hb) (by norm_num)

/-- **The representation invariant.**  In every state a client can reach from the
constructor the block list tiles the region, no two neighbours are free, the used blocks are
exactly the live allocations, and these meet neither each other nor a header. -/
theorem bestfit_keeps_representation {memory memorySize : ℕ}
    (hmap : IsMapping memory (requestedSize memorySize)) {c : Client BestFitAllocator}
    (h : Reachable (Start memory memorySize) Step c) :
    c.heap.head = memory ∧ c.heap.totalSize = requestedSize memorySize ∧
      (∃ l, Represents c l) ∧ (∀ size, size + 39 < wordSize → (c.heap.alloc size).isSome) := by
  obtain ⟨l, hinv⟩ := inv_of_reachable hmap h
  refine ⟨hinv.listed.head_eq, ?_, ⟨l, hinv.represents⟩, fun size hword => ?_⟩
  · rw [hinv.listed.total_eq, Nat.add_sub_cancel_left]
  · obtain ⟨p, s', heq, -⟩ := hinv.alloc hword
    rw [heq]
    rfl

/-- On one page, a client that holds two blocks and has given back the one between them. -/
theorem bestfit_keeps_representation_one_page :
    ∃ c, Reachable (Start 4096 4096) Step c ∧ c.live = [⟨4496, 300⟩, ⟨4128, 100⟩] ∧
      ∃ l, Represents c l := by
  have hplay : ((construct (some 4096) 4096).bind fun s =>
      (Client.play allocator (fun size => size + 39 < wordSize) ⟨s, []⟩
        [.alloc 100, .alloc 200, .alloc 300, .free 4264]).map (Prod.map id Client.live)) =
      some ([(.alloc 100, some 4128), (.alloc 200, some 4264), (.alloc 300, some 4496),
        (.free 4264, none)], [⟨4496, 300⟩, ⟨4128, 100⟩]) := by decide +kernel
  obtain ⟨s, c, hs, hrun, hlive⟩ := Client.exists_run_of_play hplay
  have hreach : Reachable (Start 4096 4096) Step c := ⟨_, _, ⟨hs, rfl⟩, Client.run_of_told hrun⟩
  exact ⟨c, hreach, hlive, (bestfit_keeps_representation isMapping_one_page hreach).2.2.1⟩

/-! ## The block list as data -/

/-- A `BlockHeader` with its address. -/
structure Header where
  addr : ℕ
  size : ℕ
  isFree : Bool
  next : ℕ
  prev : ℕ
  deriving DecidableEq, Repr

/-- The headers met on the `next` links from `current`. -/
def walk (m : Memory) : (fuel current : ℕ) → Option (List Header)
  | 0, current => if current = 0 then some [] else none
  | fuel + 1, current =>
    if current = 0 then some []
    else (walk m fuel (next m current)).map
      (⟨current, size m current, isFree m current, next m current, prev m current⟩ :: ·)

/-- The block list of the allocator, as the loop of `alloc` walks it. -/
def blockList (s : BestFitAllocator) : Option (List Header) :=
  walk s.mem (s.totalSize + 1) s.head

/-- The blocks of `l` with the links of a list that comes after `p`. -/
def withLinks : (p : ℕ) → List Block → List Header
  | _, [] => []
  | p, b :: l => ⟨b.addr, b.size, b.free, firstAddr l, p⟩ :: withLinks b.addr l

/-- The walk reads back the list that is in memory. -/
theorem walk_eq {m : Memory} {p fuel : ℕ} {l : List Block} (h : Headers m p l 0)
    (hpos : ∀ b ∈ l, 0 < b.addr) (hfuel : l.length ≤ fuel) :
    walk m fuel (firstAddr l) = some (withLinks p l) := by
  induction l generalizing p fuel with
  | nil => cases fuel <;> rfl
  | cons b l ih =>
      obtain ⟨fuel, rfl⟩ : ∃ k, fuel = k + 1 :=
        Nat.exists_eq_add_one.mpr (lt_of_lt_of_le (Nat.succ_pos _) hfuel)
      obtain ⟨⟨hsize, hfree, hprev, hnext⟩, hrest⟩ := h
      have hb : b.addr ≠ 0 := (hpos b List.mem_cons_self).ne'
      have hwalk := ih hrest (fun d hd => hpos d (List.mem_cons_of_mem b hd))
        (Nat.le_of_succ_le_succ hfuel)
      rw [firstAddr, firstKey_cons, walk, if_neg hb, hnext, hwalk, hsize, hfree, hprev]
      rfl

/-- The address and the size of every block that backs a live allocation. -/
def liveBlocks (c : Client BestFitAllocator) : List (ℕ × ℕ) :=
  c.live.map fun x => (x.ptr - sizeofBlockHeader, size c.heap.mem (x.ptr - sizeofBlockHeader))

namespace Inv

variable {lo hi : ℕ} {c c' : Client BestFitAllocator} {l l' : List Block}

/-- The block list of a state with the invariant. -/
theorem blockList_eq (h : Inv lo hi c l) : blockList c.heap = some (withLinks 0 l) := by
  have hlen := h.listed.blocks.length_le fun b hb => h.listed.size_pos h.region hb
  rw [blockList, ← h.listed.firstAddr_eq h.region]
  refine walk_eq h.listed.blocks.headers (fun b hb => h.listed.blocks.pos h.region hb) ?_
  rw [h.listed.total_eq]
  exact hlen.trans (Nat.le_succ _)

/-- The header of a block holds its size. -/
theorem size_eq (h : Inv lo hi c l) {b : Block} (hb : b ∈ l) :
    size c.heap.mem b.addr = b.size := by
  obtain ⟨pre, post, rfl⟩ := List.append_of_mem hb
  exact (Threaded.append_iff.mp h.listed.blocks.headers).2.1.1

/-- The live blocks are the used blocks of the list. -/
theorem mem_liveBlocks (h : Inv lo hi c l) (b : Block) (hb : b.free = false) :
    (b.addr, b.size) ∈ liveBlocks c ↔ b ∈ l := by
  constructor
  · intro hmem
    obtain ⟨x, hx, heq⟩ := List.mem_map.mp hmem
    obtain ⟨d, hd, hback⟩ := h.backed x hx
    rw [hback.ptr_eq, sizeofBlockHeader, Nat.add_sub_cancel, h.size_eq hd] at heq
    obtain ⟨haddr, hsize⟩ := Prod.mk.inj heq
    have hbd : b = d := by
      cases b
      cases d
      simp only [Tile.mk.injEq]
      exact ⟨haddr.symm, hsize.symm, hb.trans hback.used.symm⟩
    rw [hbd]
    exact hd
  · intro hmem
    obtain ⟨x, hx, hback⟩ := h.used b hmem hb
    refine List.mem_map.mpr ⟨x, hx, ?_⟩
    rw [hback.ptr_eq, sizeofBlockHeader, Nat.add_sub_cancel, h.size_eq hmem]

/-- **Normal form.**  States of one region with the same used blocks have the same list. -/
theorem eq_of_used (h : Inv lo hi c l) (h' : Inv lo hi c' l')
    (hused : ∀ b : Block, b.free = false → (b ∈ l ↔ b ∈ l')) :
    blockList c.heap = blockList c'.heap := by
  rw [h.blockList_eq, h'.blockList_eq,
    Tiles.eq_of_used h.listed.blocks.tiles h'.listed.blocks.tiles
      (fun b hb => h.listed.size_pos h.region hb) (fun b hb => h'.listed.size_pos h'.region hb)
      h.listed.noFreePair h'.listed.noFreePair hused]

/-- Freeing distinct live pointers one after the other takes exactly their blocks from the
used ones. -/
theorem free_all (h : Inv lo hi c l) {ps : List ℕ} (hnd : ps.Nodup)
    (hlive : ∀ p ∈ ps, p ∈ c.live.map Allocation.ptr) :
    ∃ c' l', Inv lo hi c' l' ∧ c'.heap = ps.foldl BestFitAllocator.free c.heap ∧
      ∀ b : Block, b.free = false → (b ∈ l' ↔ b ∈ l ∧ b.addr + 32 ∉ ps) := by
  induction ps generalizing c l with
  | nil => exact ⟨c, l, h, rfl, by simp⟩
  | cons p ps ih =>
      obtain ⟨hp, hnd'⟩ := List.nodup_cons.mp hnd
      obtain ⟨x, hx, rfl⟩ := List.mem_map.mp (hlive p List.mem_cons_self)
      obtain ⟨l₁, h₁, hmem₁, -⟩ := h.free_live hx
      obtain ⟨c', l', h', heap_eq, hmem'⟩ := ih h₁ hnd' fun q hq =>
        (mem_map_ptr_erase h.nodup hx q).mpr
          ⟨hlive q (List.mem_cons_of_mem _ hq), fun heq => hp (heq ▸ hq)⟩
      refine ⟨c', l', h', heap_eq, fun b hb => ?_⟩
      rw [hmem' b hb, hmem₁ b hb, List.mem_cons, not_or, and_assoc]

end Inv

/-! ## Canonical form -/

/-- **The block list is a canonical function of the live blocks**, for the allocator that
the constructor makes of the mapping `memory`. -/
structure Canonical (memory memorySize : ℕ) : Prop where
  finite : ∀ c, Reachable (Start memory memorySize) Step c → (blockList c.heap).isSome
  determined : ∀ c c', Reachable (Start memory memorySize) Step c →
    Reachable (Start memory memorySize) Step c' →
    (∀ q, q ∈ liveBlocks c ↔ q ∈ liveBlocks c') → blockList c.heap = blockList c'.heap
  anyOrder : ∀ c, Reachable (Start memory memorySize) Step c → ∀ ps qs : List ℕ, ps.Nodup →
    (∀ p ∈ ps, p ∈ c.live.map Allocation.ptr) → ps.Perm qs →
    blockList (ps.foldl BestFitAllocator.free c.heap)
      = blockList (qs.foldl BestFitAllocator.free c.heap)
  allocFree : ∀ c, Reachable (Start memory memorySize) Step c → ∀ size p s',
    size + 39 < wordSize → c.heap.alloc size = some (p, s') →
    blockList (s'.free p) = blockList c.heap
  allFreed : ∀ c, Reachable (Start memory memorySize) Step c → c.live = [] →
    blockList c.heap = some [⟨memory, requestedSize memorySize, true, 0, 0⟩]

/-- An allocation followed by its release restores the list. -/
theorem Inv.alloc_free {lo hi size p : ℕ} {c : Client BestFitAllocator} {l : List Block}
    {s' : BestFitAllocator} (h : Inv lo hi c l) (hword : size + 39 < wordSize)
    (halloc : c.heap.alloc size = some (p, s')) :
    blockList (s'.free p) = blockList c.heap := by
  obtain ⟨p', s'', heq, hcase⟩ := h.alloc hword
  rw [heq] at halloc
  cases halloc
  rcases hcase with ⟨rfl, rfl⟩ | ⟨x, l₁, rfl, hused, hx, h₁, hmem₁⟩
  · rfl
  obtain ⟨l₂, h₂, hmem₂, -⟩ := h₁.free_live List.mem_cons_self
  have hsame : ∀ b : Block, b.free = false → (b ∈ l₂ ↔ b ∈ l) := by
    intro b hb
    rw [hmem₂ b hb, hmem₁ b hb]
    constructor
    · rintro ⟨rfl | hmem, hne⟩
      · exact absurd rfl hne
      · exact hmem
    · intro hmem
      refine ⟨Or.inr hmem, fun haddr => hx ?_⟩
      rwa [← h₁.eq_of_addr_eq ((hmem₁ b hb).mpr (Or.inr hmem))
        ((hmem₁ x hused).mpr (Or.inl rfl)) (Nat.add_right_cancel haddr)]
  have hlist := h₂.eq_of_used h hsame
  simpa only using hlist

/-- When nothing is live, there is one free block. -/
theorem Inv.blockList_of_nothing_live {memory memorySize : ℕ}
    (hmap : IsMapping memory (requestedSize memorySize)) {c : Client BestFitAllocator}
    {l : List Block} (h : Inv memory (memory + requestedSize memorySize) c l) (hlive : c.live = []) :
    blockList c.heap = some [⟨memory, requestedSize memorySize, true, 0, 0⟩] := by
  obtain ⟨s, hs⟩ : ∃ s, construct (some memory) memorySize = some s := ⟨_, rfl⟩
  have hstart := inv_of_construct hmap hs
  rw [h.eq_of_used hstart fun b hb => ?_, hstart.blockList_eq]
  · rfl
  · apply iff_of_false
    · intro hmem
      obtain ⟨x, hx, -⟩ := h.used b hmem hb
      rw [hlive] at hx
      exact absurd hx List.not_mem_nil
    · intro hmem
      obtain rfl := List.mem_singleton.mp hmem
      exact absurd hb (by simp)

/-- **The block list is canonical.** -/
theorem bestfit_list_is_canonical {memory memorySize : ℕ}
    (hmap : IsMapping memory (requestedSize memorySize)) : Canonical memory memorySize := by
  refine ⟨fun c hc => ?_, fun c c' hc hc' hlive => ?_, fun c hc ps qs hnd hps hperm => ?_,
    fun c hc size p s' hword halloc => ?_, fun c hc hlive => ?_⟩
  · obtain ⟨l, hinv⟩ := inv_of_reachable hmap hc
    rw [hinv.blockList_eq]
    rfl
  · obtain ⟨l, hinv⟩ := inv_of_reachable hmap hc
    obtain ⟨l', hinv'⟩ := inv_of_reachable hmap hc'
    apply hinv.eq_of_used hinv'
    intro b hb
    rw [← hinv.mem_liveBlocks b hb, ← hinv'.mem_liveBlocks b hb]
    exact hlive _
  · obtain ⟨l, hinv⟩ := inv_of_reachable hmap hc
    obtain ⟨c₁, l₁, h₁, heq₁, hmem₁⟩ := hinv.free_all hnd hps
    obtain ⟨c₂, l₂, h₂, heq₂, hmem₂⟩ := hinv.free_all (hperm.nodup_iff.mp hnd)
      fun q hq => hps q (hperm.mem_iff.mpr hq)
    rw [← heq₁, ← heq₂]
    apply h₁.eq_of_used h₂
    intro b hb
    rw [hmem₁ b hb, hmem₂ b hb, hperm.mem_iff]
  · obtain ⟨l, hinv⟩ := inv_of_reachable hmap hc
    exact hinv.alloc_free hword halloc
  · obtain ⟨l, hinv⟩ := inv_of_reachable hmap hc
    exact hinv.blockList_of_nothing_live hmap hlive

/-- In the default region, two clients that hold the third of three blocks and gave back the others,
each in an order of its own. -/
theorem bestfit_list_is_canonical_default :
    ∃ s c d, construct (some 4096) 65536 = some s ∧
      Run Step ⟨s, []⟩ [.alloc 100, .alloc 200, .alloc 300, .free 4128, .free 4264] c ∧
      Run Step ⟨s, []⟩ [.alloc 100, .alloc 200, .alloc 300, .free 4264, .free 4128] d ∧
      c.live = [⟨4496, 300⟩] ∧ blockList c.heap = blockList d.heap ∧
      blockList d.heap = some [⟨4096, 368, true, 4464, 0⟩, ⟨4464, 336, false, 4800, 4096⟩,
        ⟨4800, 64832, true, 0, 4464⟩] := by
  have hone : ((construct (some 4096) 65536).bind fun s =>
      (Client.play allocator (fun size => size + 39 < wordSize) ⟨s, []⟩
        [.alloc 100, .alloc 200, .alloc 300, .free 4128, .free 4264]).map
          (Prod.map id fun c => (c.live, liveBlocks c))) =
      some ([(.alloc 100, some 4128), (.alloc 200, some 4264), (.alloc 300, some 4496),
        (.free 4128, none), (.free 4264, none)], [⟨4496, 300⟩], [(4464, 336)]) := by decide +kernel
  have hother : ((construct (some 4096) 65536).bind fun s =>
      (Client.play allocator (fun size => size + 39 < wordSize) ⟨s, []⟩
        [.alloc 100, .alloc 200, .alloc 300, .free 4264, .free 4128]).map
          (Prod.map id fun c => (liveBlocks c, blockList c.heap))) =
      some ([(.alloc 100, some 4128), (.alloc 200, some 4264), (.alloc 300, some 4496),
        (.free 4264, none), (.free 4128, none)], [(4464, 336)],
        some [⟨4096, 368, true, 4464, 0⟩, ⟨4464, 336, false, 4800, 4096⟩,
          ⟨4800, 64832, true, 0, 4464⟩]) := by decide +kernel
  obtain ⟨s, c, hs, hc, hview⟩ := Client.exists_run_of_play hone
  obtain ⟨s', d, hs', hd, hview'⟩ := Client.exists_run_of_play hother
  obtain rfl : s = s' := Option.some.inj (hs.symm.trans hs')
  obtain ⟨hlive, hblocks⟩ := Prod.mk.inj hview
  obtain ⟨hblocks', hlist⟩ := Prod.mk.inj hview'
  refine ⟨s, c, d, hs, Client.run_of_told hc, Client.run_of_told hd, hlive, ?_, hlist⟩
  apply (bestfit_list_is_canonical isMapping_default).determined
  · exact ⟨_, _, ⟨hs, rfl⟩, Client.run_of_told hc⟩
  · exact ⟨_, _, ⟨hs, rfl⟩, Client.run_of_told hd⟩
  · rw [hblocks, hblocks']
    exact fun _ => Iff.rfl

end BestFit
