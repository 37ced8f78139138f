/-
# The invariant of the best-fit allocator and its client

The block list is in normal form, and the used blocks are exactly those that back a live
allocation.  The constructor establishes the invariant and every client step keeps it.
-/
import OSLabs.BestFitCalls

namespace BestFit

open Memory BestFitAllocator

/-- The used block `b` backs the allocation `x`: the pointer is behind the header, and
the rest of the block has room for the requested size. -/
structure Backs (b : Block) (x : Allocation) : Prop where
  used : b.free = false
  ptr_eq : x.ptr = b.addr + 32
  size_pos : 0 < x.size
  room : x.size + 32 ≤ b.size

/-- **The invariant.** -/
structure Inv (lo hi : ℕ) (c : Client BestFitAllocator) (l : List Block) : Prop where
  region : Region lo hi
  listed : Listed lo hi c.heap l
  nodup : (c.live.map Allocation.ptr).Nodup
  backed : ∀ x ∈ c.live, ∃ b ∈ l, Backs b x
  used : ∀ b ∈ l, b.free = false → ∃ x ∈ c.live, Backs b x

/-! ## The constructor -/

/-- The constructor succeeds on every mapping, with a single free block. -/
theorem inv_of_construct {memory memorySize : ℕ} {s : BestFitAllocator}
    (hmap : IsMapping memory (requestedSize memorySize))
    (hs : construct (some memory) memorySize = some s) :
    Inv memory (memory + requestedSize memorySize) ⟨s, []⟩
      [⟨memory, requestedSize memorySize, true⟩] := by
  set total := requestedSize memorySize with htotal
  have hlen := hmap.len_pos
  have hpos := hmap.ne_null
  have hwrap := hmap.no_wrap
  have hlt : total < 2 ^ 64 := by omega
  obtain ⟨k, hk⟩ := hmap.aligned
  have hs' := Option.some.inj hs
  subst hs'
  refine ⟨⟨by omega, by omega, hwrap, by omega⟩, ⟨rfl, ?_, ⟨⟨⟨?_, ?_, ?_, ?_⟩, trivial⟩,
    ⟨rfl, rfl⟩, ?_⟩, List.isChain_singleton _, ?_⟩, List.nodup_nil, by simp, by simp⟩
  · rw [← htotal, Nat.add_sub_cancel_left]
  · simp only [size_setPrev, size_setNext, size_setIsFree]
    exact size_setSize _ _ hlt
  · simp
  · simp
  · simp
  · intro b hb
    obtain rfl := List.mem_singleton.mp hb
    exact Nat.dvd_mul_left 8 _
  · rw [Nat.add_sub_cancel_left]
    exact Or.inr rfl

namespace Inv

variable {lo hi : ℕ} {c : Client BestFitAllocator} {l : List Block} {b b' : Block}
  {x : Allocation}

/-! ## Blocks and allocations -/

theorem eq_of_addr_eq (h : Inv lo hi c l) (hb : b ∈ l) (hb' : b' ∈ l)
    (heq : b.addr = b'.addr) : b = b' :=
  h.listed.blocks.tiles.eq_of_addr_eq (fun _ hd => h.listed.size_pos h.region hd) hb hb' heq

/-- A live pointer belongs to one block. -/
theorem ptr_mem_iff (h : Inv lo hi c l) (p : ℕ) :
    p ∈ c.live.map Allocation.ptr ↔ ∃ b ∈ l, b.free = false ∧ p = b.addr + 32 := by
  constructor
  · intro hp
    obtain ⟨x, hx, rfl⟩ := List.mem_map.mp hp
    obtain ⟨b, hb, hback⟩ := h.backed x hx
    exact ⟨b, hb, hback.used, hback.ptr_eq⟩
  · rintro ⟨b, hb, hused, rfl⟩
    obtain ⟨x, hx, hback⟩ := h.used b hb hused
    exact List.mem_map.mpr ⟨x, hx, hback.ptr_eq⟩

/-! ## Steps -/

/-- A byte of a live allocation lies in no header. -/
theorem outsideHeaders {y : ℕ} (h : Inv lo hi c l) (hx : x ∈ c.live) (hy : x.Covers y) :
    OutsideHeaders l y := by
  intro b hb
  obtain ⟨d, hd, hback⟩ := h.backed x hx
  have hbig := h.listed.roomy_of_mem hd (Or.inl hback.used) b hb
  have hptr := hback.ptr_eq
  have hroom := hback.room
  obtain ⟨h₁, h₂⟩ := hy
  by_cases hbd : b = d
  · subst hbd
    exact Or.inr (by omega)
  · rcases h.listed.blocks.disjoint hb hd hbd with h₃ | h₃
    · exact Or.inr (by omega)
    · exact Or.inl (by omega)

/-- The used blocks after a block was granted. -/
theorem mem_granted_iff {aligned : ℕ} {pre post : List Block} {b x d : Block} {rest : List Block}
    (hgranted : Listed.granted aligned b = x :: rest) (hrest : ∀ d ∈ rest, d.free = true)
    (hb : b.free = true) (hd : d.free = false) :
    d ∈ pre ++ Listed.granted aligned b ++ post ↔ d = x ∨ d ∈ pre ++ b :: post := by
  have hne : d ≠ b := by
    rintro rfl
    exact absurd hb (by simp [hd])
  have hnot : d ∉ rest := fun hmem => absurd (hrest d hmem) (by simp [hd])
  rw [hgranted]
  simp only [List.mem_append, List.mem_cons, hne, hnot, or_false, false_or]
  tauto

/-- **What a request does**: null changes nothing and means that no block fits; otherwise the best
block is granted, and no byte of a live allocation changes. -/
theorem alloc_best (h : Inv lo hi c l) {size : ℕ} (hpos : 0 < size) (hword : size + 39 < wordSize) :
    (c.heap.alloc size = some (0, c.heap) ∧ ∀ d ∈ l, ¬ Fits (alignedSize size) d) ∨
      ∃ pre b post s', l = pre ++ b :: post ∧ IsBestFit (alignedSize size) pre b post ∧
        c.heap.alloc size = some (b.addr + 32, s') ∧
        Inv lo hi ⟨s', ⟨b.addr + 32, size⟩ :: c.live⟩
          (pre ++ Listed.granted (alignedSize size) b ++ post) ∧
        ∀ y ∈ c.live, ∀ z, y.Covers z → s'.mem z = c.heap.mem z := by
  rcases h.listed.alloc h.region hpos hword with
    ⟨heq, hno⟩ | ⟨pre, b, post, s', rfl, hbest, heq, hlisted, hbytes⟩
  · exact Or.inl ⟨heq, hno⟩
  obtain ⟨hroom, -, -, -⟩ := Listed.alignedSize_spec hpos hword
  obtain ⟨x, rest, hgranted, haddr, hused, hsize, hrest⟩ :=
    Listed.granted_eq (alignedSize size) b hbest.fits.2
  have hmem : ∀ d : Block, d.free = false →
      (d ∈ pre ++ Listed.granted (alignedSize size) b ++ post ↔ d = x ∨ d ∈ pre ++ b :: post) :=
    fun d hd => mem_granted_iff hgranted hrest hbest.fits.1 hd
  have hx : x ∈ pre ++ Listed.granted (alignedSize size) b ++ post :=
    (hmem x hused).mpr (Or.inl rfl)
  have hback : Backs x ⟨b.addr + 32, size⟩ := ⟨hused, by rw [haddr], hpos, hroom.trans hsize⟩
  -- The new pointer is not live: its block was free.
  have hnew : b.addr + 32 ∉ c.live.map Allocation.ptr := by
    intro hp
    obtain ⟨d, hd, hdused, hdaddr⟩ := (h.ptr_mem_iff _).mp hp
    obtain rfl := h.eq_of_addr_eq (b := b) (by simp) hd (Nat.add_right_cancel hdaddr)
    exact absurd hbest.fits.1 (by simp [hdused])
  have hinv : Inv lo hi ⟨s', ⟨b.addr + 32, size⟩ :: c.live⟩
      (pre ++ Listed.granted (alignedSize size) b ++ post) := by
    refine ⟨h.region, hlisted, List.nodup_cons.mpr ⟨hnew, h.nodup⟩, fun y hy => ?_,
      fun d hd hdused => ?_⟩
    · rcases List.mem_cons.mp hy with rfl | hy
      · exact ⟨x, hx, hback⟩
      · obtain ⟨d, hd, hdback⟩ := h.backed y hy
        exact ⟨d, (hmem d hdback.used).mpr (Or.inr hd), hdback⟩
    · rcases (hmem d hdused).mp hd with rfl | hd
      · exact ⟨_, List.mem_cons_self, hback⟩
      · obtain ⟨y, hy, hyback⟩ := h.used d hd hdused
        exact ⟨y, List.mem_cons_of_mem _ hy, hyback⟩
  refine Or.inr ⟨pre, b, post, s', rfl, hbest, heq, hinv, fun y hy z hz => ?_⟩
  apply hbytes z (h.outsideHeaders hy hz)
  intro d hd
  exact hinv.outsideHeaders (List.mem_cons_of_mem _ hy) hz d (by simp [hd])

/-- **`alloc` returns.**  Null changes nothing; otherwise one used block is added, and it
backs the new allocation. -/
theorem alloc (h : Inv lo hi c l) {size : ℕ} (hword : size + 39 < wordSize) :
    ∃ p s', c.heap.alloc size = some (p, s') ∧
      ((p = 0 ∧ s' = c.heap) ∨
        ∃ x l', p = x.addr + 32 ∧ x.free = false ∧ x ∉ l ∧
          Inv lo hi ⟨s', ⟨p, size⟩ :: c.live⟩ l' ∧
          ∀ d : Block, d.free = false → (d ∈ l' ↔ d = x ∨ d ∈ l)) := by
  by_cases hzero : size = 0
  · exact ⟨0, c.heap, by rw [BestFitAllocator.alloc, if_pos hzero], Or.inl ⟨rfl, rfl⟩⟩
  rcases h.alloc_best (Nat.pos_of_ne_zero hzero) hword with
    ⟨heq, -⟩ | ⟨pre, b, post, s', rfl, hbest, heq, hinv, -⟩
  · exact ⟨0, c.heap, heq, Or.inl ⟨rfl, rfl⟩⟩
  obtain ⟨x, rest, hgranted, haddr, hused, -, hrest⟩ :=
    Listed.granted_eq (alignedSize size) b hbest.fits.2
  refine ⟨b.addr + 32, s', heq, Or.inr ⟨x, _, by rw [haddr], hused, fun hmem => ?_, hinv,
    fun d hd => mem_granted_iff hgranted hrest hbest.fits.1 hd⟩⟩
  obtain rfl := h.eq_of_addr_eq hmem (show b ∈ pre ++ b :: post by simp) haddr
  exact absurd hbest.fits.1 (by simp [hused])

/-- **`free` of a live pointer** takes the block behind it from the used ones, and changes no byte
of a live allocation. -/
theorem free_live (h : Inv lo hi c l) (hx : x ∈ c.live) :
    ∃ l', Inv lo hi ⟨c.heap.free x.ptr, c.live.erase x⟩ l' ∧
      (∀ d : Block, d.free = false → (d ∈ l' ↔ d ∈ l ∧ d.addr + 32 ≠ x.ptr)) ∧
      ∀ y ∈ c.live, ∀ z, y.Covers z → (c.heap.free x.ptr).mem z = c.heap.mem z := by
  obtain ⟨b, hb, hback⟩ := h.backed x hx
  obtain ⟨pre, post, rfl⟩ := List.append_of_mem hb
  obtain ⟨l', hlisted, hmem, hbytes⟩ := h.listed.free h.region hback.used
  have hiff : ∀ d : Block, d.free = false →
      (d ∈ l' ↔ d ∈ pre ++ b :: post ∧ d.addr + 32 ≠ x.ptr) := by
    intro d hd
    rw [hmem d hd, hback.ptr_eq]
    have hpos := h.listed.size_pos h.region hb
    have hb' : ∀ d ∈ pre, d.addr ≠ b.addr := fun d hdpre heq => by
      have hd : d ∈ pre ++ b :: post := List.mem_append_left _ hdpre
      have := (List.pairwise_append.mp h.listed.blocks.tiles.pairwise).2.2 d hdpre b
        List.mem_cons_self
      have := h.listed.size_pos h.region hd
      omega
    have hb'' : ∀ d ∈ post, d.addr ≠ b.addr := fun d hdpost heq => by
      have := (List.pairwise_cons.mp
        (List.pairwise_append.mp h.listed.blocks.tiles.pairwise).2.1).1 d hdpost
      omega
    -- What is free after the call may have grown, but no used block has.
    constructor
    · rintro (hd | hd)
      · exact ⟨by simp [hd], fun heq => hb' d hd (Nat.add_right_cancel heq)⟩
      · exact ⟨by simp [hd], fun heq => hb'' d hd (Nat.add_right_cancel heq)⟩
    · rintro ⟨hd, hne⟩
      rcases List.mem_append.mp hd with hd | hd
      · exact Or.inl hd
      rcases List.mem_cons.mp hd with rfl | hd
      · exact absurd rfl hne
      · exact Or.inr hd
  refine ⟨l', ⟨h.region, ?_, nodup_map_ptr_erase x h.nodup, fun y hy => ?_, fun d hd hdused => ?_⟩,
    hiff, fun y hy z hz => ?_⟩
  · rw [hback.ptr_eq]
    exact hlisted
  · obtain ⟨d, hd, hdback⟩ := h.backed y (List.mem_of_mem_erase hy)
    have hne := ((mem_map_ptr_erase h.nodup hx y.ptr).mp (List.mem_map_of_mem hy)).2
    exact ⟨d, (hiff d hdback.used).mpr ⟨hd, by rw [← hdback.ptr_eq]; exact hne⟩, hdback⟩
  · obtain ⟨hd, hne⟩ := (hiff d hdused).mp hd
    obtain ⟨y, hy, hyback⟩ := h.used d hd hdused
    have hyx : y ≠ x := by
      rintro rfl
      exact hne hyback.ptr_eq.symm
    exact ⟨y, (List.mem_erase_of_ne hyx).mpr hy, hyback⟩
  · rw [hback.ptr_eq]
    exact hbytes z (h.outsideHeaders hy hz)

/-- A write inside a live allocation keeps the invariant. -/
theorem write {y : ℕ} {v : UInt8} (h : Inv lo hi c l) (hx : x ∈ c.live) (hy : x.Covers y) :
    Inv lo hi ⟨allocator.store c.heap y v, c.live⟩ l := by
  refine ⟨h.region, ⟨h.listed.head_eq, h.listed.total_eq, h.listed.blocks.frame fun b hb => ?_,
    h.listed.noFreePair, h.listed.roomy⟩, h.nodup, h.backed, h.used⟩
  have hout := h.outsideHeaders hx hy b hb
  refine fields_congr fun z h₁ h₂ => Function.update_of_ne ?_ _ _
  rintro rfl
  omega

end Inv

/-! ## Runs -/

/-- **Every step of a client keeps the invariant.** -/
theorem Inv.step {lo hi : ℕ} {c c' : Client BestFitAllocator} {e : HeapEvent}
    (h : ∃ l, Inv lo hi c l) (hst : Step c e c') : ∃ l, Inv lo hi c' l := by
  obtain ⟨l, hinv⟩ := h
  cases hst with
  | allocNull hword halloc =>
      obtain ⟨p, s', heq, hcase⟩ := hinv.alloc hword
      rw [show allocator.alloc c.heap _ = c.heap.alloc _ from rfl, heq] at halloc
      cases halloc
      rcases hcase with ⟨-, rfl⟩ | ⟨x, l', hp, -⟩
      · exact ⟨l, hinv⟩
      · exact absurd hp (Nat.succ_ne_zero _).symm
  | allocSome hword hp halloc =>
      obtain ⟨p, s', heq, hcase⟩ := hinv.alloc hword
      rw [show allocator.alloc c.heap _ = c.heap.alloc _ from rfl, heq] at halloc
      cases halloc
      rcases hcase with ⟨rfl, -⟩ | ⟨x, l', -, -, -, hinv', -⟩
      · exact absurd rfl hp
      · exact ⟨l', hinv'⟩
  | freeNull hfree =>
      cases hfree
      exact ⟨l, hinv⟩
  | freeLive hx hfree =>
      cases hfree
      obtain ⟨l', hinv', -⟩ := hinv.free_live hx
      exact ⟨l', hinv'⟩
  | write hx hy => exact ⟨l, hinv.write hx hy⟩

/-- **Every reachable state satisfies the invariant.** -/
theorem inv_of_reachable {memory memorySize : ℕ}
    (hmap : IsMapping memory (requestedSize memorySize)) {c : Client BestFitAllocator}
    (h : Reachable (Start memory memorySize) Step c) :
    ∃ l, Inv memory (memory + requestedSize memorySize) c l := by
  refine h.invariant ?_ fun c e c' hI hst => Inv.step hI hst
  rintro ⟨s, live⟩ ⟨hs, rfl⟩
  exact ⟨_, inv_of_construct hmap hs⟩

end BestFit
