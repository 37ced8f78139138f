/-
# Requests without releases

As long as nothing is given back, the best-fit allocator hands out its region from one end to the
other: there is one free block, behind all others, and a request fails exactly when it does not fit
into what is left.
-/
import OSLabs.BestFitSafety
import OSLabs.ClientLog

namespace BestFit

open BestFitAllocator CallLog

/-! ## A region that is handed out from one end to the other -/

/-- Where the next block starts, and how many bytes are left. -/
structure Bump where
  next : ℕ
  left : ℕ
  deriving DecidableEq, Repr

/-- The answer to a request, and what is left after it.  A rest that is too small for a block goes with
the block. -/
def Bump.alloc (b : Bump) (size : ℕ) : ℕ × Bump :=
  let aligned := alignedSize size
  if size = 0 ∨ b.left < aligned then (0, b)
  else if aligned + minimumBlockSize ≤ b.left then
    (b.next + sizeofBlockHeader, ⟨b.next + aligned, b.left - aligned⟩)
  else (b.next + sizeofBlockHeader, ⟨b.next + b.left, 0⟩)

/-- The answers to requests that are made one after the other. -/
def Bump.answers : Bump → List ℕ → List ℕ
  | _, [] => []
  | b, size :: sizes => (b.alloc size).1 :: (b.alloc size).2.answers sizes

/-- What is left after the requests. -/
def Bump.after (b : Bump) (sizes : List ℕ) : Bump := sizes.foldl (fun b size => (b.alloc size).2) b

theorem Bump.answers_append (b : Bump) (sizes : List ℕ) (size : ℕ) :
    b.answers (sizes ++ [size]) = b.answers sizes ++ [((b.after sizes).alloc size).1] := by
  induction sizes generalizing b with
  | nil => rfl
  | cons n sizes ih =>
      rw [List.cons_append, Bump.answers, ih]
      rfl

theorem Bump.after_append (b : Bump) (sizes : List ℕ) (size : ℕ) :
    b.after (sizes ++ [size]) = ((b.after sizes).alloc size).2 := by
  rw [Bump.after, List.foldl_append]
  rfl

/-! ## The block list -/

/-- All blocks are used but the last, which is what is left. -/
structure Packed (lo hi : ℕ) (b : Bump) (c : Client BestFitAllocator) : Prop where
  packed : ∃ used : List Block, (∀ x ∈ used, x.free = false) ∧
    Inv lo hi c (used ++ if b.left = 0 then [] else [⟨b.next, b.left, true⟩])

namespace Packed

variable {lo hi : ℕ} {b : Bump} {c c' : Client BestFitAllocator}

/-- The only free block stands at the end. -/
theorem eq_of_free {used pre post : List Block} {x y : Block} (hused : ∀ z ∈ used, z.free = false)
    (hy : y.free = true) (heq : pre ++ y :: post = used ++ [x]) :
    pre = used ∧ y = x ∧ post = [] := by
  rcases List.eq_nil_or_concat' post with rfl | ⟨post, z, rfl⟩
  · obtain ⟨hpre, hlast⟩ := List.append_inj' heq rfl
    exact ⟨hpre, (List.cons.inj hlast).1, rfl⟩
  · rw [← List.cons_append, ← List.append_assoc] at heq
    obtain ⟨hpre, -⟩ := List.append_inj' heq rfl
    have hmem : y ∈ used := by
      rw [← hpre]
      simp
    rw [hused y hmem] at hy
    cases hy

theorem used_snoc {used : List Block} {x : Block} (hused : ∀ z ∈ used, z.free = false)
    (hx : x.free = false) : ∀ z ∈ used ++ [x], z.free = false := by
  intro z hz
  rcases List.mem_append.mp hz with hz | hz
  · exact hused z hz
  · rw [List.mem_singleton.mp hz]
    exact hx

/-- **A request** is answered from the one end. -/
theorem alloc (h : Packed lo hi b c) {size p : ℕ} {s' : BestFitAllocator}
    (hword : size + 39 < wordSize) (halloc : c.heap.alloc size = some (p, s')) :
    p = (b.alloc size).1 ∧
      Packed lo hi (b.alloc size).2 ⟨s', if p = 0 then c.live else ⟨p, size⟩ :: c.live⟩ := by
  obtain ⟨used, hused, hinv⟩ := h.packed
  by_cases hzero : size = 0
  · subst hzero
    rw [BestFitAllocator.alloc, if_pos rfl] at halloc
    obtain ⟨rfl, rfl⟩ := Prod.mk.inj (Option.some_inj.mp halloc)
    rw [Bump.alloc, if_pos (Or.inl rfl), if_pos rfl]
    exact ⟨rfl, used, hused, hinv⟩
  · have hpos : 0 < size := Nat.pos_of_ne_zero hzero
    obtain ⟨-, -, -, h40⟩ := Listed.alignedSize_spec hpos hword
    rcases hinv.alloc_best hpos hword with ⟨hnull, hno⟩ | ⟨pre, y, post, s, hl, hbest, hsome, hnew, -⟩
    · -- Not even the block at the end is large enough.
      rw [halloc] at hnull
      obtain ⟨rfl, rfl⟩ := Prod.mk.inj (Option.some_inj.mp hnull)
      have hless : b.left < alignedSize size := by
        by_contra hle
        have hne : b.left ≠ 0 := by omega
        rw [if_neg hne] at hno
        exact hno ⟨b.next, b.left, true⟩ (by simp) ⟨rfl, Nat.le_of_not_lt hle⟩
      rw [Bump.alloc, if_pos (Or.inr hless), if_pos rfl]
      exact ⟨rfl, used, hused, hinv⟩
    · rw [halloc] at hsome
      obtain ⟨rfl, rfl⟩ := Prod.mk.inj (Option.some_inj.mp hsome)
      have hfree := hbest.fits.1
      by_cases hleft : b.left = 0
      · -- Without a free block nothing fits.
        rw [if_pos hleft, List.append_nil] at hl
        have hmem : y ∈ used := by
          rw [hl]
          simp
        rw [hused y hmem] at hfree
        cases hfree
      · rw [if_neg hleft] at hl
        obtain ⟨rfl, rfl, rfl⟩ := eq_of_free hused hfree hl.symm
        have hfits : alignedSize size ≤ b.left := hbest.fits.2
        have hcond : ¬ (size = 0 ∨ b.left < alignedSize size) := by omega
        have hptr : b.next + 32 ≠ 0 := by omega
        rw [Bump.alloc, if_neg hcond, if_neg hptr]
        dsimp only
        rw [List.append_nil, Listed.granted] at hnew
        by_cases hsplit : alignedSize size + 40 ≤ b.left
        · rw [if_pos hsplit] at hnew ⊢
          refine ⟨rfl, pre ++ [⟨b.next, alignedSize size, false⟩], used_snoc hused rfl, ?_⟩
          rw [if_neg (by dsimp only; omega), List.append_assoc]
          exact hnew
        · rw [if_neg hsplit] at hnew ⊢
          refine ⟨rfl, pre ++ [⟨b.next, b.left, false⟩], used_snoc hused rfl, ?_⟩
          rw [if_pos rfl, List.append_nil]
          exact hnew

/-- Writing into what the client holds changes no block. -/
theorem write (h : Packed lo hi b c) {x : Allocation} {z : ℕ} {v : UInt8} (hx : x ∈ c.live)
    (hz : x.Covers z) : Packed lo hi b ⟨allocator.store c.heap z v, c.live⟩ := by
  obtain ⟨used, hused, hinv⟩ := h.packed
  exact ⟨used, hused, hinv.write hx hz⟩

end Packed

/-! ## Runs -/

/-- As long as nothing is given back, the answers and the block list are those of the one end. -/
theorem packed_of_run {memory memorySize : ℕ}
    (hmap : IsMapping memory (requestedSize memorySize)) {c c' : Client BestFitAllocator}
    (hc : Start memory memorySize c) {log : CallLog}
    (h : Run (Client.Told allocator fun size => size + 39 < wordSize) c log c')
    (hkept : ∀ x ∈ log, ∀ p, x.1 = .free p → p = 0) :
    (requests log).map Prod.snd =
        Bump.answers ⟨memory, requestedSize memorySize⟩ ((requests log).map Prod.fst) ∧
      Packed memory (memory + requestedSize memorySize)
        (Bump.after ⟨memory, requestedSize memorySize⟩ ((requests log).map Prod.fst)) c' := by
  revert hkept
  apply h.history (I := fun log c' => (∀ x ∈ log, ∀ p, x.1 = .free p → p = 0) →
    (requests log).map Prod.snd =
        Bump.answers ⟨memory, requestedSize memorySize⟩ ((requests log).map Prod.fst) ∧
      Packed memory (memory + requestedSize memorySize)
        (Bump.after ⟨memory, requestedSize memorySize⟩ ((requests log).map Prod.fst)) c')
  · obtain ⟨hs, hlive⟩ := hc
    obtain ⟨heap, live⟩ := c
    obtain rfl : live = [] := hlive
    have hlen := hmap.len_pos
    refine fun _ => ⟨rfl, [], fun x hx => absurd hx List.not_mem_nil, ?_⟩
    rw [if_neg (by show requestedSize memorySize ≠ 0; omega)]
    exact inv_of_construct hmap hs
  · rintro log u ⟨e, r⟩ t - ih ⟨hst, hanswer⟩ hkept
    obtain ⟨hanswers, hpacked⟩ := ih fun x hx => hkept x (List.mem_append_left _ hx)
    have hlast := hkept (e, r) (List.mem_append_right _ (List.mem_singleton_self _))
    dsimp only at hst hanswer hlast
    rw [requests_append]
    cases e with
    | alloc size =>
      obtain ⟨⟨p, s'⟩, halloc⟩ : ∃ y, u.heap.alloc size = some y := by
        cases hst with
        | allocNull _ hcall => exact ⟨_, hcall⟩
        | allocSome _ _ hcall => exact ⟨_, hcall⟩
      obtain ⟨hword, rfl⟩ := hst.alloc_inv halloc
      obtain ⟨rfl, hnext⟩ := hpacked.alloc hword halloc
      have hr : r = some ((Bump.after ⟨memory, requestedSize memorySize⟩
          ((requests log).map Prod.fst)).alloc size).1 := by
        rw [hanswer, Client.answer, show allocator.alloc u.heap size = _ from halloc]
        rfl
      rw [hr, requests_alloc]
      simp only [List.map_append, List.map_cons, List.map_nil]
      rw [Bump.answers_append, Bump.after_append, ← hanswers]
      exact ⟨rfl, hnext⟩
    | free p =>
      obtain rfl := hlast p rfl
      have hnone : requests [(HeapEvent.free 0, r)] = [] := rfl
      rw [hnone, List.append_nil]
      refine ⟨hanswers, ?_⟩
      rcases hst.free_inv with ⟨-, hfree, hlive⟩ | ⟨a, ha, hptr, -⟩
      · obtain ⟨heap, live⟩ := t
        obtain rfl : heap = u.heap := (Option.some_inj.mp hfree).symm
        obtain rfl : live = u.live := hlive
        exact hpacked
      · -- No live pointer is null.
        obtain ⟨used, -, hinv⟩ := hpacked.packed
        obtain ⟨y, hy, hback⟩ := hinv.backed a ha
        have := hback.ptr_eq
        omega
    | write z v =>
      have hnone : requests [(HeapEvent.write z v, r)] = [] := rfl
      rw [hnone, List.append_nil]
      refine ⟨hanswers, ?_⟩
      obtain ⟨x, hx, hz, rfl⟩ := hst.write_inv
      exact hpacked.write hx hz

/-- **Requests without releases**: as long as nothing is given back, every request is answered from
the one end of the region, and fails exactly when what is left is too small. -/
theorem requests_without_releases_bump {memory memorySize : ℕ}
    (hmap : IsMapping memory (requestedSize memorySize)) {c c' : Client BestFitAllocator}
    (hc : Start memory memorySize c) {log : CallLog}
    (h : Run (Client.Told allocator fun size => size + 39 < wordSize) c log c')
    (hkept : ∀ x ∈ log, ∀ p, x.1 = .free p → p = 0) :
    (requests log).map Prod.snd =
      Bump.answers ⟨memory, requestedSize memorySize⟩ ((requests log).map Prod.fst) :=
  (packed_of_run hmap hc h hkept).1

/-- The first request gets the start of the region. -/
theorem requests_without_releases_bump_one_page :
    ∃ s log c', construct (some 4096) 4096 = some s ∧
      Run (Client.Told allocator fun size => size + 39 < wordSize) ⟨s, []⟩ log c' ∧
      (requests log).map Prod.fst = [1000] ∧ (requests log).map Prod.snd = [4096 + 32] := by
  obtain ⟨s, hs⟩ : ∃ s, construct (some 4096) 4096 = some s := ⟨_, rfl⟩
  have hinv := inv_of_construct isMapping_one_page hs
  have hword : 1000 + 39 < wordSize := by decide
  obtain ⟨p, s', halloc, -⟩ := hinv.alloc hword
  have hstep : ∃ c', Client.Told allocator (fun size => size + 39 < wordSize) ⟨s, []⟩
      (.alloc 1000, some p) c' := by
    have hanswer : some p = Client.answer allocator ⟨s, []⟩ (.alloc 1000) := by
      rw [Client.answer, show allocator.alloc s 1000 = some (p, s') from halloc]
      rfl
    by_cases hp : p = 0
    · exact ⟨_, .allocNull hword (hp ▸ halloc), hanswer⟩
    · exact ⟨_, .allocSome hword hp halloc, hanswer⟩
  obtain ⟨c', hstep⟩ := hstep
  have hrun := Run.single hstep
  have hbump : Bump.answers ⟨4096, requestedSize 4096⟩ [1000] = [4096 + 32] := by decide
  refine ⟨s, _, c', hs, hrun, rfl, ?_⟩
  exact (requests_without_releases_bump isMapping_one_page ⟨hs, rfl⟩ hrun (by simp)).trans hbump

end BestFit
