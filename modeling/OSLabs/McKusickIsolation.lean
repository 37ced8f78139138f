/-
# The McKusick–Karels allocator and its client do not disturb each other

The links of the free lists lie in the memory that the allocator hands out.  No call changes a
byte of an allocation that stays live, and no byte that a client writes changes what the
allocator answers or what its lists hold.
-/
import OSLabs.McKusickSafety

namespace McKusick

open Memory McKusickAllocator

/-! ## The client is not disturbed -/

/-- No call changes a byte of an allocation that is live before and after it. -/
def KeepsBytes (c : Client McKusickAllocator) : Prop :=
  ∀ e c', Step c e c' → e.isCall = true → ∀ x ∈ c.live, x ∈ c'.live → ∀ y, x.Covers y →
    c'.heap.mem y = c.heap.mem y

theorem Sound.keepsBytes {base n : ℕ} {c : Client McKusickAllocator} (h : Sound base n c) :
    KeepsBytes c := by
  obtain ⟨role, free, bucket, hinv⟩ := h
  intro e c' hst hcall x hx hx' y hy
  cases e with
  | alloc size =>
    have hword : size < 2 ^ 64 := by
      cases hst with
      | allocNull hn _ => exact hn
      | allocSome hn _ _ => exact hn
    obtain ⟨p, s, m', halloc, -, hframe, -⟩ := hinv.alloc_twin hinv hword
    obtain ⟨-, rfl⟩ := hst.alloc_inv halloc
    exact hframe x hx y hy
  | free p =>
    rcases hst.free_inv with ⟨-, hfree, -⟩ | ⟨a, ha, rfl, hfree, hlive⟩
    · have hheap : some c.heap = some c'.heap := (free_null c.heap).symm.trans hfree
      rw [Option.some_inj.mp hheap]
    · obtain ⟨s, m', hfree', -, hframe, -⟩ := hinv.free_twin hinv ha
      have hheap : some s = some c'.heap := hfree'.symm.trans hfree
      rw [hlive] at hx'
      -- `x` is live behind the call, so it is not what was given back.
      have hother := (mem_map_ptr_erase hinv.nodup ha x.ptr).mp (List.mem_map_of_mem hx')
      rw [← Option.some_inj.mp hheap]
      exact hframe x hx hother.2 y hy
  | write addr byte => exact absurd hcall Bool.false_ne_true

/-! ## The allocator is not disturbed -/

/-- **Twins**: two clients that hold the same allocations of allocators that differ in bytes only,
with the same lists. -/
def Twins (c d : Client McKusickAllocator) : Prop :=
  ∃ m, d = ⟨c.heap.withMem m, c.live⟩ ∧ ∃ base n role free bucket,
    Inv base n c role free bucket ∧ Inv base n d role free bucket

namespace Twins

variable {c c' d d' : Client McKusickAllocator} {e : HeapEvent}

/-- A write of the first client. -/
theorem write_left (h : Twins c d) (hcall : e.isCall = false) (hst : Step c e c') :
    Twins c' d := by
  obtain ⟨m, rfl, base, n, role, free, bucket, hinv, hinv'⟩ := h
  cases e with
  | alloc size => exact absurd hcall.symm Bool.false_ne_true
  | free p => exact absurd hcall.symm Bool.false_ne_true
  | write x v =>
    obtain ⟨a, ha, hx, rfl⟩ := hst.write_inv
    exact ⟨m, rfl, base, n, role, free, bucket, hinv.write ha hx, hinv'⟩

/-- A write of the second client. -/
theorem write_right (h : Twins c d) (hcall : e.isCall = false) (hst : Step d e d') :
    Twins c d' := by
  obtain ⟨m, rfl, base, n, role, free, bucket, hinv, hinv'⟩ := h
  cases e with
  | alloc size => exact absurd hcall.symm Bool.false_ne_true
  | free p => exact absurd hcall.symm Bool.false_ne_true
  | write x v =>
    obtain ⟨a, ha, hx, rfl⟩ := hst.write_inv
    exact ⟨Function.update m x v, rfl, base, n, role, free, bucket, hinv, hinv'.write ha hx⟩

/-- **A call of both clients**: they are told the same, and stay twins. -/
theorem call (h : Twins c d) (hcall : e.isCall = true) (hst : Step c e c') (hst' : Step d e d') :
    Client.answer allocator c e = Client.answer allocator d e ∧ Twins c' d' := by
  obtain ⟨m, rfl, base, n, role, free, bucket, hinv, hinv'⟩ := h
  cases e with
  | alloc size =>
    have hword : size < 2 ^ 64 := by
      cases hst with
      | allocNull hn _ => exact hn
      | allocSome hn _ _ => exact hn
    obtain ⟨p, s, m', halloc, halloc', -, hcase⟩ := hinv.alloc_twin hinv' hword
    obtain ⟨-, rfl⟩ := hst.alloc_inv halloc
    obtain ⟨-, rfl⟩ := hst'.alloc_inv halloc'
    refine ⟨?_, m', rfl, ?_⟩
    · show (c.heap.alloc size).map Prod.fst = ((c.heap.withMem m).alloc size).map Prod.fst
      rw [halloc, halloc']
      rfl
    · rcases hcase with ⟨rfl, rfl, rfl⟩ | ⟨hp, role', free', bucket', hnew, hnew'⟩
      · exact ⟨base, n, role, free, bucket, hinv, hinv'⟩
      · rw [if_neg hp]
        exact ⟨base, n, role', free', bucket', hnew, hnew'⟩
  | free p =>
    refine ⟨rfl, ?_⟩
    -- No live pointer is null, so both give back null or both a live pointer.
    have hpos : ∀ a ∈ c.live, a.ptr ≠ 0 := by
      intro a ha
      obtain ⟨len, hext, -, -⟩ := hinv.extent_of_live ha
      have hbase := hinv.geometry.base_pos
      exact Nat.ne_of_gt (hbase.trans_le hext.within.1)
    obtain ⟨heap, live⟩ := c'
    obtain ⟨heap', live'⟩ := d'
    rcases hst.free_inv with ⟨rfl, hfree, hlive⟩ | ⟨a, ha, rfl, hfree, hlive⟩
    · rcases hst'.free_inv with ⟨-, hfree', hlive'⟩ | ⟨b, hb, hzero, -, -⟩
      · cases (free_null c.heap).symm.trans hfree
        cases (free_null (c.heap.withMem m)).symm.trans hfree'
        dsimp only at hlive hlive'
        subst hlive hlive'
        exact ⟨m, rfl, base, n, role, free, bucket, hinv, hinv'⟩
      · exact absurd hzero (hpos b hb)
    · rcases hst'.free_inv with ⟨hzero, -, -⟩ | ⟨b, hb, hptr, hfree', hlive'⟩
      · exact absurd hzero (hpos a ha)
      · obtain rfl : b = a := List.inj_on_of_nodup_map hinv.nodup hb ha hptr
        obtain ⟨s, m', hput, hput', -, role', free', bucket', hnew, hnew'⟩ :=
          hinv.free_twin hinv' ha
        cases hput.symm.trans hfree
        cases hput'.symm.trans hfree'
        dsimp only at hlive hlive'
        subst hlive hlive'
        exact ⟨m', rfl, base, n, role', free', bucket', hnew, hnew'⟩
  | write x v => exact absurd hcall Bool.false_ne_true

end Twins

/-! ## Both together -/

/-- The same free lists and the same page metadata. -/
structure SameLists (c d : Client McKusickAllocator) : Prop where
  live : d.live = c.live
  freelistarr : d.heap.freelistarr = c.heap.freelistarr
  freePageInfo : d.heap.freePageInfo = c.heap.freePageInfo
  info : d.heap.info = c.heap.info
  pageList : ∃ free, Linked (links c.heap.info) c.heap.freePageInfo free none ∧
    Linked (links d.heap.info) d.heap.freePageInfo free none
  bucketList : ∀ b < bucketCount, ∃ blocks,
    Linked c.heap.mem.loadPtr (toPtr (c.heap.freelistarr b)) blocks none ∧
      Linked d.heap.mem.loadPtr (toPtr (d.heap.freelistarr b)) blocks none

theorem Twins.sameLists {c d : Client McKusickAllocator} (h : Twins c d) : SameLists c d := by
  obtain ⟨m, rfl, base, n, role, free, bucket, hinv, hinv'⟩ := h
  exact ⟨rfl, rfl, rfl, rfl, ⟨free, hinv.freeList.chain, hinv'.freeList.chain⟩,
    fun b hb => ⟨bucket b, hinv.chain b hb, hinv'.chain b hb⟩⟩

/-- **The allocator and its client cannot disturb each other.**  In every reachable state no call
changes a byte of an allocation that stays live; and two histories with the same calls, whatever
their clients write, are told the same pointers and leave the same lists. -/
theorem mckusick_isolated {memory memorySize : ℕ} (hargs : Args memory memorySize) :
    (∀ c, Reachable (Start memory memorySize) Step c → KeepsBytes c) ∧
    ∀ c₀ c d₀ d ls ms, Start memory memorySize c₀ → Start memory memorySize d₀ →
      Run (Client.Told allocator (· < wordSize)) c₀ ls c →
      Run (Client.Told allocator (· < wordSize)) d₀ ms d →
      (Client.calls ls).map Prod.fst = (Client.calls ms).map Prod.fst →
      Client.calls ls = Client.calls ms ∧ SameLists c d := by
  refine ⟨fun c h => ?_, fun c₀ c d₀ d ls ms hc hd h h' hsame => ?_⟩
  · obtain ⟨base, n, -, hsound⟩ := sound_of_reachable hargs h
    exact hsound.keepsBytes
  · -- Both histories start from what the one constructor call leaves.
    have hstart : Twins c₀ d₀ := by
      obtain ⟨s, live⟩ := c₀
      obtain ⟨s', live'⟩ := d₀
      obtain ⟨hs, rfl⟩ := hc
      obtain ⟨hs', rfl⟩ := hd
      obtain rfl : s = s' := Option.some_inj.mp (hs.symm.trans hs')
      obtain ⟨base, n, -, hinv⟩ := inv_of_construct hargs.word hargs.large hargs.mapping hs
      exact ⟨s.mem, rfl, base, n, _, _, _, hinv, hinv⟩
    obtain ⟨hcalls, htwins⟩ := Client.Told.twin (R := Twins)
      (fun s t e s' ht he hst => ht.write_left he hst)
      (fun s t e t' ht he hst => ht.write_right he hst)
      (fun s t e s' t' ht he hst hst' => ht.call he hst hst') h h' hsame hstart
    exact ⟨hcalls, htwins.sameLists⟩

/-- On four pages, two clients that write different bytes into the page they are given. -/
theorem mckusick_isolated_four_pages :
    ∃ c d, Reachable (Start 4096 16384) Step c ∧ KeepsBytes c ∧ c.heap.mem 8192 = 1 ∧
      d.heap.mem 8192 = 2 ∧ SameLists c d := by
  have hcall : ((construct (some 4096) 16384).bind fun s => s.alloc 4096).map Prod.fst
      = some 8192 := by decide
  obtain ⟨⟨p, s'⟩, hbind, rfl⟩ := Option.map_eq_some_iff.mp hcall
  obtain ⟨s, hs, halloc⟩ := Option.bind_eq_some_iff.mp hbind
  have hstart : Start 4096 16384 ⟨s, []⟩ := ⟨hs, rfl⟩
  have hgiven : Step ⟨s, []⟩ (.alloc 4096) ⟨s', [⟨8192, 4096⟩]⟩ :=
    .allocSome (by decide) (by decide) halloc
  have hwrite : ∀ v, Step ⟨s', [⟨8192, 4096⟩]⟩ (.write 8192 v)
      ⟨allocator.store s' 8192 v, [⟨8192, 4096⟩]⟩ := fun v =>
    .write (a := ⟨8192, 4096⟩) List.mem_cons_self ⟨le_rfl, by decide⟩
  have hrun : ∀ v, Run (Client.Told allocator (· < wordSize)) ⟨s, []⟩
      [(.alloc 4096, some 8192), (.write 8192 v, none)]
      ⟨allocator.store s' 8192 v, [⟨8192, 4096⟩]⟩ := by
    intro v
    refine .cons ⟨hgiven, ?_⟩ (.cons ⟨hwrite v, rfl⟩ (.nil _))
    exact (congrArg (Option.map Prod.fst) halloc).symm
  have hreach : Reachable (Start 4096 16384) Step _ :=
    ((Reachable.of_init hstart).snoc hgiven).snoc (hwrite 1)
  obtain ⟨hbytes, hlists⟩ := mckusick_isolated args_four_pages
  refine ⟨_, _, hreach, hbytes _ hreach, ?_, ?_,
    (hlists _ _ _ _ _ _ hstart hstart (hrun 1) (hrun 2) rfl).2⟩
  · exact Function.update_self 8192 1 s'.mem
  · exact Function.update_self 8192 2 s'.mem

end McKusick
