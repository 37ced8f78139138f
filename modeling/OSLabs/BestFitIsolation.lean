/-
# The best-fit allocator and its client do not disturb each other

The `BlockHeader`s lie between the bytes that the allocator hands out.  No call changes a byte
of an allocation that stays live, and no byte that a client writes changes what the allocator
answers or what its block list holds.
-/
import OSLabs.BestFitSafety

namespace BestFit

open Memory BestFitAllocator

/-! ## The client is not disturbed -/

/-- No call changes a byte of an allocation that is live before and after it. -/
def KeepsBytes (c : Client BestFitAllocator) : Prop :=
  ∀ e c', Step c e c' → e.isCall = true → ∀ x ∈ c.live, x ∈ c'.live → ∀ y, x.Covers y →
    c'.heap.mem y = c.heap.mem y

theorem Inv.keepsBytes {lo hi : ℕ} {c : Client BestFitAllocator} {l : List Block}
    (h : Inv lo hi c l) : KeepsBytes c := by
  intro e c' hst hcall x hx _ y hy
  cases e with
  | alloc size =>
    by_cases hzero : size = 0
    · have hnull : c.heap.alloc size = some (0, c.heap) := by
        rw [BestFitAllocator.alloc, if_pos hzero]
      obtain ⟨-, rfl⟩ := hst.alloc_inv hnull
      rfl
    have hword : size + 39 < wordSize := by
      cases hst with
      | allocNull hn _ => exact hn
      | allocSome hn _ _ => exact hn
    rcases h.alloc_best (Nat.pos_of_ne_zero hzero) hword with
      ⟨halloc, -⟩ | ⟨pre, b, post, s, rfl, -, halloc, -, hbytes⟩
    · obtain ⟨-, rfl⟩ := hst.alloc_inv halloc
      rfl
    · obtain ⟨-, rfl⟩ := hst.alloc_inv halloc
      exact hbytes x hx y hy
  | free p =>
    rcases hst.free_inv with ⟨-, hfree, -⟩ | ⟨a, ha, rfl, hfree, -⟩
    · have hheap : c.heap = c'.heap := Option.some_inj.mp hfree
      rw [hheap]
    · obtain ⟨l', -, -, hbytes⟩ := h.free_live ha
      have hheap : c.heap.free a.ptr = c'.heap := Option.some_inj.mp hfree
      rw [← hheap]
      exact hbytes x hx y hy
  | write addr byte => exact absurd hcall Bool.false_ne_true

/-! ## The allocator is not disturbed -/

/-- **Twins**: two clients that hold the same allocations of allocators with the same blocks. -/
def Twins (c d : Client BestFitAllocator) : Prop :=
  d.live = c.live ∧ ∃ lo hi l, Inv lo hi c l ∧ Inv lo hi d l

namespace Twins

variable {c c' d d' : Client BestFitAllocator} {e : HeapEvent}

/-- A write of the first client. -/
theorem write_left (h : Twins c d) (hcall : e.isCall = false) (hst : Step c e c') :
    Twins c' d := by
  obtain ⟨hlive, lo, hi, l, hinv, hinv'⟩ := h
  cases e with
  | alloc size => exact absurd hcall.symm Bool.false_ne_true
  | free p => exact absurd hcall.symm Bool.false_ne_true
  | write x v =>
    obtain ⟨a, ha, hx, rfl⟩ := hst.write_inv
    exact ⟨hlive, lo, hi, l, hinv.write ha hx, hinv'⟩

/-- A write of the second client. -/
theorem write_right (h : Twins c d) (hcall : e.isCall = false) (hst : Step d e d') :
    Twins c d' := by
  obtain ⟨hlive, lo, hi, l, hinv, hinv'⟩ := h
  cases e with
  | alloc size => exact absurd hcall.symm Bool.false_ne_true
  | free p => exact absurd hcall.symm Bool.false_ne_true
  | write x v =>
    obtain ⟨a, ha, hx, rfl⟩ := hst.write_inv
    exact ⟨hlive, lo, hi, l, hinv, hinv'.write ha hx⟩

/-- **Both ask for the same**: the best block of their one list is the same, so they are told the
same. -/
theorem alloc (h : Twins c d) {size : ℕ} (hst : Step c (.alloc size) c')
    (hst' : Step d (.alloc size) d') :
    Client.answer allocator c (.alloc size) = Client.answer allocator d (.alloc size) ∧
      Twins c' d' := by
  have hsame : ∀ p s s', c.heap.alloc size = some (p, s) → d.heap.alloc size = some (p, s') →
      Client.answer allocator c (.alloc size) = Client.answer allocator d (.alloc size) := by
    intro p s s' halloc halloc'
    show (c.heap.alloc size).map Prod.fst = (d.heap.alloc size).map Prod.fst
    rw [halloc, halloc']
    rfl
  have hword : size + 39 < wordSize := by
    cases hst with
    | allocNull hn _ => exact hn
    | allocSome hn _ _ => exact hn
  by_cases hzero : size = 0
  · have hnull : ∀ s : BestFitAllocator, s.alloc size = some (0, s) := fun s => by
      rw [BestFitAllocator.alloc, if_pos hzero]
    obtain ⟨-, rfl⟩ := hst.alloc_inv (hnull c.heap)
    obtain ⟨-, rfl⟩ := hst'.alloc_inv (hnull d.heap)
    exact ⟨hsame _ _ _ (hnull c.heap) (hnull d.heap), h⟩
  obtain ⟨hlive, lo, hi, l, hinv, hinv'⟩ := h
  have hpos := Nat.pos_of_ne_zero hzero
  -- Which block fits best depends on the list alone, and the lists are the same.
  rcases hinv.alloc_best hpos hword with
    ⟨halloc, hno⟩ | ⟨pre, b, post, s, rfl, hbest, halloc, hnew, -⟩
  · rcases hinv'.alloc_best hpos hword with
      ⟨halloc', -⟩ | ⟨pre, b, post, s', rfl, hbest, -⟩
    · obtain ⟨-, rfl⟩ := hst.alloc_inv halloc
      obtain ⟨-, rfl⟩ := hst'.alloc_inv halloc'
      exact ⟨hsame _ _ _ halloc halloc', hlive, lo, hi, l, hinv, hinv'⟩
    · exact absurd hbest.fits (hno b (by simp))
  · rcases hinv'.alloc_best hpos hword with
      ⟨-, hno⟩ | ⟨pre', b', post', s', heq, hbest', halloc', hnew', -⟩
    · exact absurd hbest.fits (hno b (by simp))
    · obtain ⟨rfl, rfl, rfl⟩ := hbest.unique hbest' heq
      have hne : b.addr + 32 ≠ 0 := Nat.succ_ne_zero _
      obtain ⟨-, rfl⟩ := hst.alloc_inv halloc
      obtain ⟨-, rfl⟩ := hst'.alloc_inv halloc'
      rw [if_neg hne, if_neg hne]
      exact ⟨hsame _ _ _ halloc halloc', by rw [hlive], lo, hi, _, hnew, hnew'⟩

/-- **Both give back the same**: the list is determined by the blocks that stay used. -/
theorem free (h : Twins c d) {p : ℕ} (hst : Step c (.free p) c') (hst' : Step d (.free p) d') :
    Twins c' d' := by
  obtain ⟨hlive, lo, hi, l, hinv, hinv'⟩ := h
  have hpos : ∀ a ∈ c.live, a.ptr ≠ 0 := fun a ha => by
    obtain ⟨b, -, hback⟩ := hinv.backed a ha
    rw [hback.ptr_eq]
    exact Nat.succ_ne_zero _
  obtain ⟨heap, live⟩ := c'
  obtain ⟨heap', live'⟩ := d'
  rcases hst.free_inv with ⟨rfl, hfree, hlive₁⟩ | ⟨a, ha, rfl, hfree, hlive₁⟩
  · rcases hst'.free_inv with ⟨-, hfree', hlive₂⟩ | ⟨b, hb, hzero, -, -⟩
    · cases hfree
      cases hfree'
      dsimp only at hlive₁ hlive₂
      subst hlive₁ hlive₂
      exact ⟨hlive, lo, hi, l, hinv, hinv'⟩
    · exact absurd hzero (hpos b (hlive ▸ hb))
  · rcases hst'.free_inv with ⟨hzero, -, -⟩ | ⟨b, hb, hptr, hfree', hlive₂⟩
    · exact absurd hzero (hpos a ha)
    · rw [hlive] at hb hlive₂
      obtain rfl : b = a := List.inj_on_of_nodup_map hinv.nodup hb ha hptr
      obtain ⟨l₁, h₁, hmem₁, -⟩ := hinv.free_live ha
      obtain ⟨l₂, h₂, hmem₂, -⟩ := hinv'.free_live (hlive ▸ ha)
      have hlist : l₁ = l₂ := Tiles.eq_of_used h₁.listed.blocks.tiles h₂.listed.blocks.tiles
        (fun x hx => h₁.listed.size_pos h₁.region hx) (fun x hx => h₂.listed.size_pos h₂.region hx)
        h₁.listed.noFreePair h₂.listed.noFreePair fun x hx => by rw [hmem₁ x hx, hmem₂ x hx]
      cases hfree
      cases hfree'
      dsimp only at hlive₁ hlive₂
      subst hlive₁ hlive₂ hlist
      rw [hlive] at h₂
      exact ⟨rfl, lo, hi, l₁, h₁, h₂⟩

/-- **A call of both clients**: they are told the same, and stay twins. -/
theorem call (h : Twins c d) (hcall : e.isCall = true) (hst : Step c e c') (hst' : Step d e d') :
    Client.answer allocator c e = Client.answer allocator d e ∧ Twins c' d' := by
  cases e with
  | alloc size => exact h.alloc hst hst'
  | free p => exact ⟨rfl, h.free hst hst'⟩
  | write x v => exact absurd hcall Bool.false_ne_true

end Twins

/-! ## Both together -/

/-- The same allocations and the same block list, in the same region. -/
structure SameList (c d : Client BestFitAllocator) : Prop where
  live : d.live = c.live
  head : d.heap.head = c.heap.head
  totalSize : d.heap.totalSize = c.heap.totalSize
  blockList : ∃ l, blockList c.heap = some l ∧ blockList d.heap = some l

theorem Twins.sameList {c d : Client BestFitAllocator} (h : Twins c d) : SameList c d := by
  obtain ⟨hlive, lo, hi, l, hinv, hinv'⟩ := h
  exact ⟨hlive, hinv'.listed.head_eq.trans hinv.listed.head_eq.symm,
    hinv'.listed.total_eq.trans hinv.listed.total_eq.symm, _, hinv.blockList_eq,
    hinv'.blockList_eq⟩

/-- **The allocator and its client cannot disturb each other.**  In every reachable state no call
changes a byte of an allocation that stays live; and two histories with the same calls, whatever
their clients write, are told the same pointers and leave the same block list. -/
theorem bestfit_isolated {memory memorySize : ℕ}
    (hmap : IsMapping memory (requestedSize memorySize)) :
    (∀ c, Reachable (Start memory memorySize) Step c → KeepsBytes c) ∧
    ∀ c₀ c d₀ d ls ms, Start memory memorySize c₀ → Start memory memorySize d₀ →
      Run (Client.Told allocator fun size => size + 39 < wordSize) c₀ ls c →
      Run (Client.Told allocator fun size => size + 39 < wordSize) d₀ ms d →
      (Client.calls ls).map Prod.fst = (Client.calls ms).map Prod.fst →
      Client.calls ls = Client.calls ms ∧ SameList c d := by
  refine ⟨fun c h => ?_, fun c₀ c d₀ d ls ms hc hd h h' hsame => ?_⟩
  · obtain ⟨l, hinv⟩ := inv_of_reachable hmap h
    exact hinv.keepsBytes
  · -- Both histories start from what the one constructor call leaves.
    have hstart : Twins c₀ d₀ := by
      obtain ⟨s, live⟩ := c₀
      obtain ⟨s', live'⟩ := d₀
      obtain ⟨hs, rfl⟩ := hc
      obtain ⟨hs', rfl⟩ := hd
      exact ⟨rfl, _, _, _, inv_of_construct hmap hs, inv_of_construct hmap hs'⟩
    obtain ⟨hcalls, htwins⟩ := Client.Told.twin (R := Twins)
      (fun s t e s' ht he hst => ht.write_left he hst)
      (fun s t e t' ht he hst => ht.write_right he hst)
      (fun s t e s' t' ht he hst hst' => ht.call he hst hst') h h' hsame hstart
    exact ⟨hcalls, htwins.sameList⟩

/-- On one page, two clients that write different bytes into the block they are given. -/
theorem bestfit_isolated_one_page :
    ∃ c d, Reachable (Start 4096 4096) Step c ∧ KeepsBytes c ∧ c.heap.mem 4128 = 1 ∧
      d.heap.mem 4128 = 2 ∧ SameList c d := by
  have hcall : ((construct (some 4096) 4096).bind fun s => s.alloc 100).map Prod.fst
      = some 4128 := by decide
  obtain ⟨⟨p, s'⟩, hbind, rfl⟩ := Option.map_eq_some_iff.mp hcall
  obtain ⟨s, hs, halloc⟩ := Option.bind_eq_some_iff.mp hbind
  have hstart : Start 4096 4096 ⟨s, []⟩ := ⟨hs, rfl⟩
  have hgiven : Step ⟨s, []⟩ (.alloc 100) ⟨s', [⟨4128, 100⟩]⟩ :=
    .allocSome (by decide) (by decide) halloc
  have hwrite : ∀ v, Step ⟨s', [⟨4128, 100⟩]⟩ (.write 4128 v)
      ⟨allocator.store s' 4128 v, [⟨4128, 100⟩]⟩ := fun v =>
    .write (a := ⟨4128, 100⟩) List.mem_cons_self ⟨le_rfl, by decide⟩
  have hrun : ∀ v, Run (Client.Told allocator fun size => size + 39 < wordSize) ⟨s, []⟩
      [(.alloc 100, some 4128), (.write 4128 v, none)]
      ⟨allocator.store s' 4128 v, [⟨4128, 100⟩]⟩ := by
    intro v
    refine .cons ⟨hgiven, ?_⟩ (.cons ⟨hwrite v, rfl⟩ (.nil _))
    exact (congrArg (Option.map Prod.fst) halloc).symm
  have hreach : Reachable (Start 4096 4096) Step _ :=
    ((Reachable.of_init hstart).snoc hgiven).snoc (hwrite 1)
  obtain ⟨hbytes, hlists⟩ := @bestfit_isolated 4096 4096
    isMapping_one_page
  refine ⟨_, _, hreach, hbytes _ hreach, ?_, ?_,
    (hlists _ _ _ _ _ _ hstart hstart (hrun 1) (hrun 2) rfl).2⟩
  · exact Function.update_self 4128 1 s'.mem
  · exact Function.update_self 4128 2 s'.mem

end BestFit
