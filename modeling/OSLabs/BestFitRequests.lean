/-
# The requests of the best-fit allocator

What `alloc` answers to a request, over the whole range of `size_t`.  A request whose
rounding does not wrap is given the lowest of the smallest blocks that fit.  A request whose
rounding wraps is rounded to 32 bytes or less, so that almost every free block seems to fit.
-/
import OSLabs.BestFitSafety

namespace BestFit

open Memory BestFitAllocator

/-! ## Requests that are honoured -/

/-- The rounding of the request does not wrap, or no free block is as large as the wrapped size. -/
def Honoured (s : BestFitAllocator) (size : ℕ) : Prop :=
  size + 39 < wordSize ∨ ∀ l, blockList s = some l → ∀ b ∈ l, b.isFree = true →
    b.size < (size + 39) % wordSize / 8 * 8

/-- A step of a client that asks for any `size_t` which is honoured. -/
def HonouredStep (c : Client BestFitAllocator) (e : HeapEvent) (c' : Client BestFitAllocator) :
    Prop :=
  Client.Step allocator (· < wordSize) c e c' ∧ ∀ size, e = .alloc size → Honoured c.heap size

/-- A free block of the list, as its header shows it. -/
theorem mem_withLinks {p : ℕ} {l : List Block} {d : Header} (hd : d ∈ withLinks p l) :
    ∃ b ∈ l, d.addr = b.addr ∧ d.size = b.size ∧ d.isFree = b.free := by
  induction l generalizing p with
  | nil => exact absurd hd List.not_mem_nil
  | cons b l ih =>
      rcases List.mem_cons.mp hd with rfl | hd
      · exact ⟨b, List.mem_cons_self, rfl, rfl, rfl⟩
      · obtain ⟨x, hx, heq⟩ := ih hd
        exact ⟨x, List.mem_cons_of_mem b hx, heq⟩

theorem exists_mem_withLinks {p : ℕ} {l : List Block} {b : Block} (hb : b ∈ l) :
    ∃ d ∈ withLinks p l, d.size = b.size ∧ d.isFree = b.free := by
  induction l generalizing p with
  | nil => exact absurd hb List.not_mem_nil
  | cons x l ih =>
      rcases List.mem_cons.mp hb with rfl | hb
      · exact ⟨_, List.mem_cons_self, rfl, rfl⟩
      · obtain ⟨d, hd, heq⟩ := ih hb
        exact ⟨d, List.mem_cons_of_mem _ hd, heq⟩

namespace Inv

variable {lo hi size : ℕ} {c c' : Client BestFitAllocator} {l : List Block}

/-- A request that wraps is honoured if no block of the list fits. -/
theorem honoured_iff (h : Inv lo hi c l) (hwrap : ¬ size + 39 < wordSize) :
    Honoured c.heap size ↔ ∀ b ∈ l, ¬ Fits (alignedSize size) b := by
  have hsmall : Honoured c.heap size ↔ ∀ d ∈ withLinks 0 l, d.isFree = true →
      d.size < alignedSize size := by
    rw [Honoured, or_iff_right hwrap, h.blockList_eq]
    exact ⟨fun hd => hd _ rfl, fun hd l' heq => Option.some_inj.mp heq ▸ hd⟩
  rw [hsmall]
  constructor
  · intro hd b hb hfits
    obtain ⟨d, hd', hsize, hfree⟩ := exists_mem_withLinks (p := 0) hb
    have hlt := hd d hd' (hfree.trans hfits.1)
    have hle := hfits.2
    omega
  · intro hno d hd hfree
    obtain ⟨b, hb, -, hsize, hfree'⟩ := mem_withLinks hd
    rw [hsize]
    exact Nat.lt_of_not_le fun hle => hno b hb ⟨hfree'.symm.trans hfree, hle⟩

/-- An honoured request that wraps is refused without a change. -/
theorem alloc_wrapped (h : Inv lo hi c l) (hwrap : ¬ size + 39 < wordSize)
    (hon : Honoured c.heap size) : c.heap.alloc size = some (0, c.heap) := by
  have hpos : 0 < size := by
    simp only [wordSize] at hwrap
    omega
  exact h.listed.alloc_none h.region hpos ((h.honoured_iff hwrap).mp hon)

end Inv

/-- **Every honoured step keeps the invariant.** -/
theorem Inv.honouredStep {lo hi : ℕ} {c c' : Client BestFitAllocator} {e : HeapEvent}
    (h : ∃ l, Inv lo hi c l) (hst : HonouredStep c e c') : ∃ l, Inv lo hi c' l := by
  obtain ⟨l, hinv⟩ := h
  obtain ⟨hst, hon⟩ := hst
  cases e with
  | alloc size =>
      by_cases hword : size + 39 < wordSize
      · refine Inv.step (e := .alloc size) ⟨l, hinv⟩ ?_
        cases hst with
        | allocNull _ halloc => exact .allocNull hword halloc
        | allocSome _ hp halloc => exact .allocSome hword hp halloc
      · obtain ⟨-, rfl⟩ := hst.alloc_inv (hinv.alloc_wrapped hword (hon size rfl))
        exact ⟨l, hinv⟩
  | free p =>
      refine Inv.step (e := .free p) ⟨l, hinv⟩ ?_
      cases hst with
      | freeNull hfree => exact .freeNull hfree
      | freeLive ha hfree => exact .freeLive ha hfree
  | write x v =>
      obtain ⟨a, ha, hx, rfl⟩ := hst.write_inv
      exact ⟨l, hinv.write ha hx⟩

/-- **Every state that honoured requests reach satisfies the invariant.** -/
theorem inv_of_honoured {memory memorySize : ℕ}
    (hmap : IsMapping memory (requestedSize memorySize)) {c : Client BestFitAllocator}
    (h : Reachable (Start memory memorySize) HonouredStep c) :
    ∃ l, Inv memory (memory + requestedSize memorySize) c l := by
  refine h.invariant ?_ fun c e c' hI hst => Inv.honouredStep hI hst
  rintro ⟨s, live⟩ ⟨hs, rfl⟩
  exact ⟨_, inv_of_construct hmap hs⟩

/-! ## The best fit -/

/-- `b` is the lowest of the smallest free blocks of at least `aligned` bytes. -/
structure IsLowestBest (aligned : ℕ) (l : List Block) (b : Block) : Prop where
  mem : b ∈ l
  fits : Fits aligned b
  smallest : ∀ d ∈ l, Fits aligned d → b.size ≤ d.size
  lowest : ∀ d ∈ l, Fits aligned d → d.size = b.size → b.addr ≤ d.addr

/-- The pointer `p` and the allocator `s'` answer a request for `aligned` bytes, header included,
to the allocator `s` with the blocks `l`. -/
structure AnswersBestFit (aligned : ℕ) (s : BestFitAllocator) (l : List Block) (p : ℕ)
    (s' : BestFitAllocator) : Prop where
  null_iff : p = 0 ↔ ∀ b ∈ l, ¬ Fits aligned b
  null_keeps : p = 0 → s' = s
  grants : p ≠ 0 → ∃ pre b post, l = pre ++ b :: post ∧ IsLowestBest aligned l b ∧
    p = b.addr + sizeofBlockHeader ∧
    (aligned + minimumBlockSize ≤ b.size → blockList s' = some (withLinks 0
      (pre ++ ⟨b.addr, aligned, false⟩ :: ⟨b.addr + aligned, b.size - aligned, true⟩ :: post))) ∧
    (¬ aligned + minimumBlockSize ≤ b.size → b.size ≤ aligned + 32 ∧
      blockList s' = some (withLinks 0 (pre ++ ⟨b.addr, b.size, false⟩ :: post)))

/-- The first of the smallest blocks that fit is the lowest one. -/
theorem IsBestFit.isLowestBest {aligned lo hi : ℕ} {pre post : List Block} {b : Block}
    (h : IsBestFit aligned pre b post) (htiles : Tiles lo (pre ++ b :: post) hi) :
    IsLowestBest aligned (pre ++ b :: post) b := by
  have hafter := (List.pairwise_cons.mp (List.pairwise_append.mp htiles.pairwise).2.1).1
  refine ⟨by simp, h.fits, fun d hd hfits => ?_, fun d hd hfits hsize => ?_⟩
  · rcases List.mem_append.mp hd with hd | hd
    · exact (h.before d hd hfits).le
    rcases List.mem_cons.mp hd with rfl | hd
    · exact le_rfl
    · exact h.after d hd hfits
  · rcases List.mem_append.mp hd with hd | hd
    · exact absurd hsize (h.before d hd hfits).ne'
    rcases List.mem_cons.mp hd with rfl | hd
    · exact le_rfl
    · exact (Nat.le_add_right _ _).trans (hafter d hd)

/-- The rounding of a request that does not wrap. -/
theorem alignedSize_eq {size : ℕ} (hword : size + 39 < wordSize) :
    alignedSize size = (size + 39) / 8 * 8 := by
  rw [alignedSize, alignDown, Nat.mod_eq_of_lt hword]

/-- **`alloc` answers with the best fit** in every state with the invariant. -/
theorem Inv.answersBestFit {lo hi size : ℕ} {c : Client BestFitAllocator} {l : List Block}
    (h : Inv lo hi c l) (hpos : 0 < size) (hword : size + 39 < wordSize) :
    ∃ p s', c.heap.alloc size = some (p, s') ∧
      AnswersBestFit ((size + 39) / 8 * 8) c.heap l p s' := by
  have hbest := h.alloc_best hpos hword
  obtain ⟨-, -, hdvd, -⟩ := Listed.alignedSize_spec hpos hword
  rw [alignedSize_eq hword] at hbest hdvd
  rcases hbest with ⟨heq, hno⟩ | ⟨pre, b, post, s', rfl, hbest, heq, hinv, -⟩
  · exact ⟨0, c.heap, heq, iff_of_true rfl hno, fun _ => rfl, fun hp => absurd rfl hp⟩
  have hb : b ∈ pre ++ b :: post := by simp
  have hne : b.addr + 32 ≠ 0 := Nat.succ_ne_zero _
  have hlist := hinv.blockList_eq
  refine ⟨b.addr + 32, s', heq, iff_of_false hne fun hno => hno b hb hbest.fits,
    fun hp => absurd hp hne, fun _ => ⟨pre, b, post, rfl,
      hbest.isLowestBest h.listed.blocks.tiles, rfl, fun hsplit => ?_, fun hsplit => ?_⟩⟩
  · rw [Listed.granted, if_pos hsplit] at hlist
    simpa using hlist
  · rw [Listed.granted, if_neg hsplit] at hlist
    refine ⟨?_, by simpa using hlist⟩
    -- sizes are multiples of 8, so a rest below 40 bytes is at most 32
    have hsize := h.listed.blocks.size_dvd b hb
    simp only [minimumBlockSize, sizeofBlockHeader] at hsplit
    omega

/-- **`alloc` is best fit and complete.**  In every state that honoured requests reach, a request
whose rounding does not wrap is refused exactly when no free block is large enough, and is granted
the lowest of the smallest such blocks, which is split when the rest has room for a block. -/
theorem alloc_is_best_fit {memory memorySize : ℕ}
    (hmap : IsMapping memory (requestedSize memorySize)) {c : Client BestFitAllocator}
    (h : Reachable (Start memory memorySize) HonouredStep c) {size : ℕ} (hpos : 1 ≤ size)
    (hword : size + 39 < wordSize) :
    ∃ l p s', blockList c.heap = some (withLinks 0 l) ∧ c.heap.alloc size = some (p, s') ∧
      AnswersBestFit ((size + 39) / 8 * 8) c.heap l p s' := by
  obtain ⟨l, hinv⟩ := inv_of_honoured hmap h
  obtain ⟨p, s', heq, hanswer⟩ := hinv.answersBestFit hpos hword
  exact ⟨l, p, s', hinv.blockList_eq, heq, hanswer⟩

/-- In the default region, right after the constructor. -/
theorem alloc_is_best_fit_default :
    ∃ c l p s', Reachable (Start 4096 65536) HonouredStep c ∧
      blockList c.heap = some (withLinks 0 l) ∧ c.heap.alloc 100 = some (p, s') ∧
      AnswersBestFit 136 c.heap l p s' := by
  obtain ⟨s, hs⟩ : ∃ s, construct (some 4096) 65536 = some s := ⟨_, rfl⟩
  have hreach : Reachable (Start 4096 65536) HonouredStep ⟨s, []⟩ := .of_init ⟨hs, rfl⟩
  obtain ⟨l, p, s', hanswer⟩ := alloc_is_best_fit isMapping_default
    hreach (by decide) (show 100 + 39 < wordSize by decide)
  exact ⟨_, l, p, s', hreach, hanswer⟩

/-! ## All of `size_t` -/

/-- The blocks from `head` on are finitely many and tile the region of `s`. -/
def TilesRegion (s : BestFitAllocator) (l : List Block) : Prop :=
  blockList s = some (withLinks 0 l) ∧ Tiles s.head l (s.head + s.totalSize)

/-- `alloc` answers a request safely: with null, which it must when the request is larger than any
block can be, or with a block that has room for it; and the list stays a tiling of the region. -/
def AllocSafe (s : BestFitAllocator) (size : ℕ) : Prop :=
  ∃ p s', s.alloc size = some (p, s') ∧ (s.totalSize < size + sizeofBlockHeader → p = 0) ∧
    s'.head = s.head ∧ s'.totalSize = s.totalSize ∧ ∃ l, TilesRegion s' l ∧
      (p ≠ 0 → ∃ b ∈ l, b.free = false ∧ p = b.addr + sizeofBlockHeader ∧
        p + size ≤ b.addr + b.size)

theorem Inv.tilesRegion {lo hi : ℕ} {c : Client BestFitAllocator} {l : List Block}
    (h : Inv lo hi c l) : TilesRegion c.heap l := by
  have hlt := h.region.lo_lt
  refine ⟨h.blockList_eq, ?_⟩
  rw [h.listed.head_eq, h.listed.total_eq, Nat.add_sub_cancel' hlt.le]
  exact h.listed.blocks.tiles

/-- **An honoured request is answered safely.** -/
theorem Inv.allocSafe {lo hi size : ℕ} {c : Client BestFitAllocator} {l : List Block}
    (h : Inv lo hi c l) (hpos : 0 < size) (hon : Honoured c.heap size) :
    AllocSafe c.heap size := by
  by_cases hword : size + 39 < wordSize
  · rcases h.alloc_best hpos hword with
      ⟨heq, -⟩ | ⟨pre, b, post, s', rfl, hbest, heq, hinv, -⟩
    · exact ⟨0, c.heap, heq, fun _ => rfl, rfl, rfl, l, h.tilesRegion, fun hp => absurd rfl hp⟩
    obtain ⟨hroom, -, -, -⟩ := Listed.alignedSize_spec hpos hword
    obtain ⟨x, hx, hback⟩ := hinv.backed _ List.mem_cons_self
    have hptr := hback.ptr_eq
    have hsize := hback.room
    have hbounds := h.listed.blocks.tiles.bounds (b := b) (by simp)
    have hfits := hbest.fits.2
    refine ⟨b.addr + 32, s', heq, fun hlarge => ?_, ?_, ?_, _, hinv.tilesRegion,
      fun _ => ⟨x, hx, hback.used, hptr, ?_⟩⟩
    · rw [h.listed.total_eq, sizeofBlockHeader] at hlarge
      omega
    · rw [h.listed.head_eq]
      exact hinv.listed.head_eq
    · rw [h.listed.total_eq]
      exact hinv.listed.total_eq
    · dsimp only at hptr hsize
      omega
  · exact ⟨0, c.heap, h.alloc_wrapped hword hon, fun _ => rfl, rfl, rfl, l, h.tilesRegion,
      fun hp => absurd rfl hp⟩

/-- **A request that is not honoured** is answered with a pointer, though it is larger than the
region. -/
theorem Inv.not_allocSafe {lo hi size : ℕ} {c : Client BestFitAllocator} {l : List Block}
    (h : Inv lo hi c l) (hno : ¬ Honoured c.heap size) : ¬ AllocSafe c.heap size := by
  have hwrap : ¬ size + 39 < wordSize := fun hword => hno (Or.inl hword)
  rw [h.honoured_iff hwrap] at hno
  obtain ⟨b, hb, hfits⟩ : ∃ b ∈ l, Fits (alignedSize size) b := by
    by_contra hnone
    exact hno fun b hb hfits => hnone ⟨b, hb, hfits⟩
  simp only [wordSize] at hwrap
  obtain ⟨p, s', heq, hp⟩ := h.listed.alloc_some h.region (by omega) hb hfits
  rintro ⟨p', s'', heq', hnull, -⟩
  rw [heq] at heq'
  cases heq'
  refine hp (hnull ?_)
  have hpage := h.region.page_le
  have hend := h.region.hi_le
  rw [h.listed.total_eq]
  omega

/-- **`alloc` is safe for exactly the honoured requests.**  Every state that honoured requests
reach has a list that tiles the region, and there a request is answered safely if and only if it
is honoured. -/
theorem alloc_safe_iff_honoured {memory memorySize : ℕ}
    (hmap : IsMapping memory (requestedSize memorySize)) {c : Client BestFitAllocator}
    (h : Reachable (Start memory memorySize) HonouredStep c) :
    (∃ l, TilesRegion c.heap l) ∧ ∀ size, 1 ≤ size → size < wordSize →
      (AllocSafe c.heap size ↔ Honoured c.heap size) := by
  obtain ⟨l, hinv⟩ := inv_of_honoured hmap h
  refine ⟨⟨l, hinv.tilesRegion⟩, fun size hpos _ => ⟨fun hsafe => ?_, hinv.allocSafe hpos⟩⟩
  by_contra hno
  exact hinv.not_allocSafe hno hsafe

/-- In the default region, right after the constructor. -/
theorem alloc_safe_iff_honoured_default :
    ∃ c, Reachable (Start 4096 65536) HonouredStep c ∧ AllocSafe c.heap 100 := by
  obtain ⟨s, hs⟩ : ∃ s, construct (some 4096) 65536 = some s := ⟨_, rfl⟩
  have hreach : Reachable (Start 4096 65536) HonouredStep ⟨s, []⟩ := .of_init ⟨hs, rfl⟩
  exact ⟨_, hreach, ((alloc_safe_iff_honoured isMapping_default
    hreach).2 100 (by decide) (by decide)).mpr (Or.inl (by decide))⟩

/-- A new allocator of 65536 bytes answers a request for `2 ^ 64 - 39` bytes with a pointer. -/
theorem wrapped_request_is_granted :
    ∃ c p s', Reachable (Start 4096 65536) (Client.Step allocator (· < wordSize)) c ∧
      c.heap.alloc (wordSize - 39) = some (p, s') ∧ p ≠ 0 ∧
      ¬ AllocSafe c.heap (wordSize - 39) := by
  have hcall : ((construct (some 4096) 65536).bind fun s => s.alloc (wordSize - 39)).map Prod.fst
      = some 4128 := by decide
  obtain ⟨⟨p, s'⟩, hbind, rfl⟩ := Option.map_eq_some_iff.mp hcall
  obtain ⟨s, hs, halloc⟩ := Option.bind_eq_some_iff.mp hbind
  refine ⟨⟨s, []⟩, 4128, s', .of_init ⟨hs, rfl⟩, halloc, by decide, ?_⟩
  rintro ⟨p', s'', heq, hnull, -⟩
  rw [halloc] at heq
  cases heq
  cases hs
  exact absurd (hnull (by decide)) (by decide)

end BestFit
