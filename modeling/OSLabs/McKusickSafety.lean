/-
# Safety and accounting of the McKusick–Karels allocator

Live allocations never overlap and stay in the data region; every data page is in
exactly one of three situations; a large allocation and its release cancel.
-/
import OSLabs.McKusickCalls

namespace McKusick

open Memory McKusickAllocator

/-! ## No overlapping memory -/

/-- The allocator never handed out overlapping memory, and its next call returns. -/
structure NoOverlap (c : Client McKusickAllocator) : Prop where
  apart : c.live.Pairwise Allocation.Apart
  within : ∀ a ∈ c.live,
    a.Within c.heap.initialMemory (c.heap.initialMemory + c.heap.dataPages * pageSize)
  metadata : c.heap.metadataMemory + c.heap.dataPages * sizeofPageInfo ≤ c.heap.initialMemory
  alignedSmall : ∀ a ∈ c.live, a.size ≤ maxBlockSize →
    minBlockSize <<< getBucketIndex a.size ∣ a.ptr
  alignedLarge : ∀ a ∈ c.live, maxBlockSize < a.size → pageSize ∣ a.ptr
  allocReturns : ∀ size < wordSize, (c.heap.alloc size).isSome
  freeReturns : ∀ a ∈ c.live, (c.heap.free a.ptr).isSome

/-- A sound state has no overlap. -/
theorem Sound.noOverlap {base n : ℕ} {c : Client McKusickAllocator} (h : Sound base n c) :
    NoOverlap c := by
  obtain ⟨role, free, bucket, hinv⟩ := h
  have hg := hinv.geometry
  have hsafe := hinv.safeHeap
  refine ⟨hsafe.apart, fun a ha => ?_, ?_, fun a ha hle => ?_, fun a ha hlarge => ?_,
    fun size hword => ?_, fun a ha => ?_⟩
  · rw [hg.base_eq, hg.pages_eq, Nat.mul_comm]
    exact hsafe.within a ha
  · rw [hg.base_eq, hg.pages_eq, Nat.mul_comm]
    exact hg.metadata
  · rcases hinv.liveOk a ha with ⟨-, hpos, i, -, -, hin⟩ | ⟨hlarge, -⟩
    · exact blockSize_dvd_of_mem (getBucketIndex_spec hpos hle).1
        (Nat.dvd_add hg.base_aligned (Nat.dvd_mul_right _ _)) hin
    · exact absurd hle (not_le.mpr hlarge)
  · rcases hinv.liveOk a ha with ⟨hle, -⟩ | ⟨-, f, -, hptr, -⟩
    · exact absurd hle (not_le.mpr hlarge)
    · rw [hptr]
      exact Nat.dvd_add hg.base_aligned (Nat.dvd_mul_right _ _)
  · obtain ⟨p, s', heq, -⟩ := hinv.alloc hword
    rw [heq]
    rfl
  · obtain ⟨s', _, _, _, heq, -⟩ := hinv.free_live ha
    rw [heq]
    rfl

/-- **The allocator refines the abstract one**: along every run the live allocations
follow a run of `SafeHeap` over the data region. -/
theorem refines_safeHeap {base n : ℕ} {c c' : Client McKusickAllocator} {es : List HeapEvent}
    (h : Run Step c es c') (hc : Sound base n c) :
    Run (SafeHeap.Step base (base + 4096 * n)) c.live es c'.live := by
  refine Client.refines_safeHeap (I := Sound base n) (fun c e c' hI hst => hI.step hst) ?_ h hc
  rintro c ⟨role, free, bucket, hinv⟩
  exact hinv.safeHeap

/-- **No overlapping memory.**  In every state a client can reach from the constructor,
distinct live allocations have disjoint ranges, each range lies in the data region behind
the metadata, and each pointer is aligned to its block size or to a page. -/
theorem mckusick_never_overlaps {memory memorySize : ℕ} (hargs : Args memory memorySize)
    {c : Client McKusickAllocator} (h : Reachable (Start memory memorySize) Step c) :
    NoOverlap c := by
  obtain ⟨base, n, -, hsound⟩ := sound_of_reachable hargs h
  exact hsound.noOverlap

/-- A mapping of four pages. -/
theorem args_four_pages : Args 4096 16384 :=
  ⟨by decide, by decide, ⟨by decide, by decide, by decide, by decide⟩⟩

/-- On four pages, a client right after the constructor. -/
theorem exists_reachable_four_pages : ∃ c, Reachable (Start 4096 16384) Step c := by
  obtain ⟨s, hs⟩ : ∃ s, construct (some 4096) 16384 = some s := ⟨_, rfl⟩
  exact ⟨⟨s, []⟩, .of_init ⟨hs, rfl⟩⟩

/-- On four pages, a client that holds a large buffer and two blocks of one page. -/
theorem mckusick_never_overlaps_four_pages :
    ∃ c, Reachable (Start 4096 16384) Step c ∧
      c.live = [⟨16512, 100⟩, ⟨16384, 100⟩, ⟨8192, 5000⟩] ∧ NoOverlap c := by
  have hplay : ((construct (some 4096) 16384).bind fun s =>
      (Client.play allocator (· < wordSize) ⟨s, []⟩ [.alloc 5000, .alloc 100, .alloc 100]).map
        (Prod.map id Client.live)) =
      some ([(.alloc 5000, some 8192), (.alloc 100, some 16384), (.alloc 100, some 16512)],
        [⟨16512, 100⟩, ⟨16384, 100⟩, ⟨8192, 5000⟩]) := by decide +kernel
  obtain ⟨s, c, hs, hrun, hlive⟩ := Client.exists_run_of_play hplay
  have hreach : Reachable (Start 4096 16384) Step c := ⟨_, _, ⟨hs, rfl⟩, Client.run_of_told hrun⟩
  exact ⟨c, hreach, hlive, mckusick_never_overlaps args_four_pages hreach⟩

/-! ## Exact accounting -/

/-- Situation (i): the page is on the free-page list once, and its record is clear. -/
structure PageFree (c : Client McKusickAllocator) (free : List ℕ) (i : ℕ) : Prop where
  once : free.count i = 1
  size : (c.heap.info i).size = 0
  flag : (c.heap.info i).isStartOfBuffer = false

/-- Situation (ii): the page is carved for bucket `b`, and each of its blocks is on the
bucket's list once or live once, and on no other list. -/
structure PageCarved (c : Client McKusickAllocator) (bucket : ℕ → List ℕ) (i b : ℕ) : Prop where
  bucket_lt : b < bucketCount
  size : (c.heap.info i).size = minBlockSize <<< b
  once : ∀ a ∈ blocksFrom (c.heap.info i).pageAddr b,
    (bucket b).count a + (c.live.map Allocation.ptr).count a = 1
  elsewhere : ∀ a ∈ blocksFrom (c.heap.info i).pageAddr b, ∀ b' < bucketCount, b' ≠ b →
    a ∉ bucket b'

/-- Situation (iii): the page belongs to the live large buffer `x`, which takes the pages
it needs from a first page on; the first page alone is flagged and holds the size. -/
structure PageBuffered (c : Client McKusickAllocator) (i : ℕ) (x : Allocation) : Prop where
  live : x ∈ c.live
  large : maxBlockSize < x.size
  run : ∃ f, f ≤ i ∧ i < f + (x.size + 4095) / 4096 ∧
    f + (x.size + 4095) / 4096 ≤ c.heap.dataPages ∧
    ∀ j, f ≤ j → j < f + (x.size + 4095) / 4096 →
      (c.heap.info j).pageAddr = x.ptr + (j - f) * pageSize ∧
      (c.heap.info j).size = (if j = f then x.size else 0) ∧
      (c.heap.info j).isStartOfBuffer = decide (j = f)

/-- Exactly one of three propositions holds. -/
def ExactlyOne (p q r : Prop) : Prop :=
  (p ∧ ¬ q ∧ ¬ r) ∨ (¬ p ∧ q ∧ ¬ r) ∨ (¬ p ∧ ¬ q ∧ r)

/-- Every page and every block is accounted for: the lists are finite and acyclic, the
free pages ascend, and each data page is in exactly one of the three situations, for one
bucket and one buffer at most. -/
structure Accounted (c : Client McKusickAllocator) (free : List ℕ) (bucket : ℕ → List ℕ) :
    Prop where
  freeChain : Linked (links c.heap.info) c.heap.freePageInfo free none
  freeSorted : free.Pairwise fun i j => (c.heap.info i).pageAddr < (c.heap.info j).pageAddr
  freeNodup : free.Nodup
  freeBound : ∀ i ∈ free, i < c.heap.dataPages
  bucketChain : ∀ b < bucketCount,
    Linked c.heap.mem.loadPtr (toPtr (c.heap.freelistarr b)) (bucket b) none
  bucketNodup : ∀ b < bucketCount, (bucket b).Nodup
  bucketBlock : ∀ b < bucketCount, ∀ a ∈ bucket b, ∃ i < c.heap.dataPages,
    PageCarved c bucket i b ∧ a ∈ blocksFrom (c.heap.info i).pageAddr b
  exactlyOne : ∀ i < c.heap.dataPages, ExactlyOne (PageFree c free i)
    (∃ b, PageCarved c bucket i b) (∃ x, PageBuffered c i x)
  oneBucket : ∀ i b b', PageCarved c bucket i b → PageCarved c bucket i b' → b = b'
  oneBuffer : ∀ i < c.heap.dataPages, ∀ x x', PageBuffered c i x → PageBuffered c i x' → x = x'

namespace Inv

variable {base n : ℕ} {c : Client McKusickAllocator} {role : ℕ → PageRole} {free : List ℕ}
  {bucket : ℕ → List ℕ}

/-- Situation (i) is the role of a free page. -/
theorem pageFree_iff (h : Inv base n c role free bucket) {i : ℕ} (hi : i < n) :
    PageFree c free i ↔ role i = .free := by
  constructor
  · intro hp
    have hmem : i ∈ free := List.count_pos_iff.mp (by rw [hp.once]; exact Nat.one_pos)
    exact ((h.mem_free i).mp hmem).2
  · intro hr
    have hdata := (h.roleOk i hi).of_free hr
    simp only [PageInfo.data, Prod.mk.injEq] at hdata
    exact ⟨List.count_eq_one_of_mem h.freeList.chain.nodup ((h.mem_free i).mpr ⟨hi, hr⟩),
      hdata.2.1, hdata.2.2⟩

/-- Situation (ii) is the role of a carved page. -/
theorem pageCarved_iff (h : Inv base n c role free bucket) {i b : ℕ} (hi : i < n) :
    PageCarved c bucket i b ↔ role i = .carved b := by
  have haddr := (h.roleOk i hi).pageAddr
  constructor
  · intro hp
    have hb : b < 8 := hp.bucket_lt
    have hsize : (c.heap.info i).size = blockSize b := hp.size
    have hbs := le_blockSize b
    have hbs' : blockSize b ≤ 4096 := Nat.le_of_dvd (by norm_num) (blockSize_dvd_pageSize hb)
    -- a free page has size 0, a page of a buffer 0 or more than a page
    cases hr : role i with
    | free =>
        have hdata := (h.roleOk i hi).of_free hr
        simp only [PageInfo.data, Prod.mk.injEq] at hdata
        omega
    | carved b' =>
        obtain ⟨hb', hdata⟩ := (h.roleOk i hi).of_carved hr
        simp only [PageInfo.data, Prod.mk.injEq] at hdata
        rw [hdata.2.1] at hsize
        rw [← getBucketIndex_blockSize hb, ← getBucketIndex_blockSize hb', hsize]
    | buffer f m =>
        obtain ⟨⟨hm, -⟩, -, -, -, hdata, -⟩ := (h.roleOk i hi).of_buffer hr
        simp only [PageInfo.data, Prod.mk.injEq] at hdata
        rw [hdata.2.1] at hsize
        split_ifs at hsize <;> omega
  · intro hr
    obtain ⟨hb, hdata⟩ := (h.roleOk i hi).of_carved hr
    simp only [PageInfo.data, Prod.mk.injEq] at hdata
    have hblock : ∀ a ∈ blocksFrom (c.heap.info i).pageAddr b, IsBlock base n role b a := by
      intro a ha
      rw [haddr] at ha
      exact ⟨i, hi, hr, ha⟩
    refine ⟨hb, hdata.2.1, fun a ha => ?_, fun a ha b' hb' hne hmem => ?_⟩
    · -- a block is in its bucket or live, never both
      have hacc := h.account b a (hblock a ha)
      by_cases hmem : a ∈ bucket b
      · rw [List.count_eq_one_of_mem (h.chain b hb).nodup hmem,
          List.count_eq_zero_of_not_mem (hacc.mp hmem)]
      · have hlive : a ∈ c.live.map Allocation.ptr := by
          by_contra hnot
          exact hmem (hacc.mpr hnot)
        rw [List.count_eq_zero_of_not_mem hmem, List.count_eq_one_of_mem h.nodup hlive]
    · exact hne (h.bucket_unique (h.isBlock b' hb' a hmem) (hblock a ha))

/-- Situation (iii) is the role of a page of a live large buffer. -/
theorem pageBuffered_iff (h : Inv base n c role free bucket) {i : ℕ} (hi : i < n)
    {x : Allocation} :
    PageBuffered c i x ↔ ∃ f, x.ptr = base + 4096 * f ∧ role i = .buffer f x.size := by
  constructor
  · intro hp
    obtain ⟨f', hf', hptr, hr, hpages, hfit, hall⟩ := h.exists_buffer hp.live hp.large
    have hword := ((h.roleOk f' hf').of_buffer hr).1.2
    have hceil := getRequiredPages_eq_ceil hword (by omega)
    obtain ⟨f, h₁, h₂, hle, hrun⟩ := hp.run
    rw [h.geometry.pages_eq] at hle
    have hfirst := (hrun f le_rfl (by omega)).1
    rw [(h.roleOk f (by omega)).pageAddr, Nat.sub_self, Nat.zero_mul, Nat.add_zero] at hfirst
    have hff : f = f' := by omega
    subst hff
    exact ⟨f, hptr, hall i h₁ (by omega)⟩
  · rintro ⟨f, hptr, hr⟩
    obtain ⟨⟨hm, hword⟩, ⟨h₁, h₂⟩, hfit, hlive, -, hall⟩ := (h.roleOk i hi).of_buffer hr
    have hceil := getRequiredPages_eq_ceil hword (by omega)
    have hx : x ∈ c.live := by
      rw [← hptr] at hlive
      exact hlive
    rw [hceil] at h₂ hfit hall
    refine ⟨hx, hm, f, h₁, h₂, by rw [h.geometry.pages_eq]; exact hfit, fun j hj₁ hj₂ => ?_⟩
    have hdata := ((h.roleOk j (by omega)).of_buffer (hall j hj₁ hj₂)).2.2.2.2.1
    simp only [PageInfo.data, Prod.mk.injEq] at hdata
    refine ⟨?_, hdata.2.1, hdata.2.2⟩
    rw [hdata.1, hptr, pageSize]
    omega

/-- **An invariant state accounts for every page and block.** -/
theorem accounted (h : Inv base n c role free bucket) : Accounted c free bucket := by
  have hn := h.geometry.pages_eq
  refine ⟨h.freeList.chain, ?_, h.freeList.chain.nodup, ?_, h.chain,
    fun b hb => (h.chain b hb).nodup, ?_, ?_, ?_, ?_⟩
  · apply h.freeList.sorted.imp_of_mem
    intro i j hi hj hij
    rwa [h.layout.addr_lt_iff (h.freeList.bound i hi) (h.freeList.bound j hj)]
  · rw [hn]
    exact h.freeList.bound
  · intro b hb a ha
    obtain ⟨i, hi, hr, hin⟩ := h.isBlock b hb a ha
    refine ⟨i, by rw [hn]; exact hi, (h.pageCarved_iff hi).mpr hr, ?_⟩
    rw [(h.roleOk i hi).pageAddr]
    exact hin
  · intro i hi
    rw [hn] at hi
    simp only [ExactlyOne, h.pageFree_iff hi, h.pageCarved_iff hi, h.pageBuffered_iff hi]
    cases hr : role i with
    | free => simp
    | carved b => simp
    | buffer f m =>
        have hsome : ∃ x : Allocation, x.ptr = base + 4096 * f ∧ m = x.size :=
          ⟨⟨base + 4096 * f, m⟩, rfl, rfl⟩
        simpa using hsome
  · intro i b b' hp hp'
    have hsize : blockSize b = blockSize b' := hp.size.symm.trans hp'.size
    rw [← getBucketIndex_blockSize hp.bucket_lt, ← getBucketIndex_blockSize hp'.bucket_lt, hsize]
  · intro i hi x x' hp hp'
    rw [hn] at hi
    obtain ⟨f, hptr, hr⟩ := (h.pageBuffered_iff hi).mp hp
    obtain ⟨f', hptr', hr'⟩ := (h.pageBuffered_iff hi).mp hp'
    rw [hr] at hr'
    obtain ⟨rfl, hsize⟩ := PageRole.buffer.inj hr'
    cases x
    cases x'
    simp_all

/-! ## Large allocations cancel with their release -/

/-- **A large allocation followed by its release restores the state.** -/
theorem alloc_free_large (h : Inv base n c role free bucket) {size p : ℕ} {s' : McKusickAllocator}
    (hlarge : 4096 < size) (hword : size < 2 ^ 64) (halloc : c.heap.alloc size = some (p, s'))
    (hp : p ≠ 0) : s'.free p = some c.heap := by
  rcases h.alloc_large hlarge hword with
    ⟨hnone, -⟩ | ⟨htwo, pre, f, post, info, head, hfree, hfn, hsome, -, hF, hsame, hrun, hrest⟩
  · rw [hnone] at halloc
    cases halloc
    exact absurd rfl hp
  · have hinv := h.takeRun hlarge hword htwo hfree hF hrun hrest
    rw [hsome] at halloc
    cases halloc
    obtain ⟨f', info', head', free', hptr, hmemrun, heq, hF', hperm, hrun', hrest', hsame'⟩ :=
      hinv.free_large (x := ⟨base + 4096 * f, size⟩) List.mem_cons_self hlarge
    obtain rfl : f' = f := by simp only at hptr; omega
    rw [heq, Option.some_inj, setPages_setPages]
    simp only at hmemrun hperm hrun' hrest' hsame'
    have hpermFree : free.Perm free' := by
      rw [hfree]
      have hmid : (pre ++ (List.range' f' (getRequiredPages size) ++ post)).Perm
          (List.range' f' (getRequiredPages size) ++ (pre ++ post)) := by
        rw [← List.append_assoc, ← List.append_assoc]
        exact List.perm_append_comm.append_right post
      exact hmid.trans hperm.symm
    refine (eq_of_freeList h.freeList hF' hpermFree (fun i => ?_) (fun i hi => ?_) rfl).symm
    · -- a page of the run was clear before, and is clear again
      by_cases hin : i ∈ List.range' f' (getRequiredPages size)
      · have hifree : i ∈ free := by
          rw [hfree]
          exact List.mem_append_right _ (List.mem_append_left _ hin)
        obtain ⟨hi, hr⟩ := (h.mem_free i).mp hifree
        rw [setPages_info, hrun' i hin, (h.roleOk i hi).of_free hr,
          (hinv.roleOk i hi).pageAddr]
      · have hif : i ≠ f' := by
          rintro rfl
          exact hin (by rw [List.mem_range'_1]; omega)
        rw [setPages_info, hrest' i hin, setPages_info, Function.update_of_ne hif]
        rw [List.mem_range'_1] at hin
        exact (hrest i hin).symm
    · have hin : i ∉ List.range' f' (getRequiredPages size) ++ (pre ++ post) := by
        intro hmem
        exact hi (hpermFree.mem_iff.mpr (hperm.mem_iff.mpr hmem))
      have hif : i ≠ f' := by
        rintro rfl
        exact hin (List.mem_append_left _ (by rw [List.mem_range'_1]; omega))
      rw [setPages_info, hsame' i hin, setPages_info, Function.update_of_ne hif]
      exact (hsame i hi).symm

/-- **Two live large buffers can be released in either order.** -/
theorem free_large_comm (h : Inv base n c role free bucket) {x y : Allocation} (hx : x ∈ c.live)
    (hy : y ∈ c.live) (hne : x ≠ y) (hxl : 4096 < x.size) (hyl : 4096 < y.size) :
    ∃ s, (c.heap.free x.ptr).bind (fun s => s.free y.ptr) = some s ∧
      (c.heap.free y.ptr).bind (fun s => s.free x.ptr) = some s := by
  obtain ⟨f, info₁, head₁, free₁, hfx, hrx, heq₁, hF₁, hperm₁, hrun₁, hrest₁, hsame₁⟩ :=
    h.free_large hx hxl
  obtain ⟨g, info₂, head₂, free₂, hgy, hry, heq₂, hF₂, hperm₂, hrun₂, hrest₂, hsame₂⟩ :=
    h.free_large hy hyl
  have hinv₁ := h.putRun hx hxl hfx hF₁ hperm₁ hrun₁ hrest₁
  have hinv₂ := h.putRun hy hyl hgy hF₂ hperm₂ hrun₂ hrest₂
  obtain ⟨g', info₁₂, head₁₂, free₁₂, hgy', -, heq₁₂, hF₁₂, hperm₁₂, hrun₁₂, hrest₁₂, hsame₁₂⟩ :=
    hinv₁.free_large ((List.mem_erase_of_ne hne.symm).mpr hy) hyl
  obtain ⟨f', info₂₁, head₂₁, free₂₁, hfx', -, heq₂₁, hF₂₁, hperm₂₁, hrun₂₁, hrest₂₁, hsame₂₁⟩ :=
    hinv₂.free_large ((List.mem_erase_of_ne hne).mpr hx) hxl
  obtain rfl : g' = g := by omega
  obtain rfl : f' = f := by omega
  simp only [setPages_info] at hrun₁₂ hrest₁₂ hsame₁₂ hrun₂₁ hrest₂₁ hsame₂₁
  rw [setPages_setPages] at heq₁₂ heq₂₁ hF₁₂ hF₂₁
  -- the two runs of pages are disjoint, as their roles differ
  have hdisj : ∀ i ∈ List.range' f' (getRequiredPages x.size),
      i ∉ List.range' g' (getRequiredPages y.size) := by
    intro i hi hi'
    have hr := (hrx i hi).2
    rw [(hry i hi').2] at hr
    obtain ⟨hfg, hsize⟩ := PageRole.buffer.inj hr
    apply hne
    cases x
    cases y
    simp_all
  have hpermxy : free₁₂.Perm free₂₁ := by
    have h₁ := hperm₁₂.trans (hperm₁.append_left _)
    have h₂ := hperm₂₁.trans (hperm₂.append_left _)
    refine h₁.trans (List.Perm.trans ?_ h₂.symm)
    rw [← List.append_assoc, ← List.append_assoc]
    exact List.perm_append_comm.append_right free
  refine ⟨_, by rw [heq₁]; exact heq₁₂, ?_⟩
  rw [heq₂, Option.bind_some, heq₂₁, Option.some_inj]
  refine (eq_of_freeList hF₁₂ hF₂₁ hpermxy (fun i => ?_) (fun i hi => ?_) rfl).symm
  · simp only [setPages_info]
    by_cases hix : i ∈ List.range' f' (getRequiredPages x.size)
    · have hiy := hdisj i hix
      rw [hrest₁₂ i hiy, hrun₁ i hix, hrun₂₁ i hix, pageAddr_eq_of_data (hrest₂ i hiy)]
    · by_cases hiy : i ∈ List.range' g' (getRequiredPages y.size)
      · rw [hrun₁₂ i hiy, hrest₂₁ i hix, hrun₂ i hiy, pageAddr_eq_of_data (hrest₁ i hix)]
      · rw [hrest₁₂ i hiy, hrest₁ i hix, hrest₂₁ i hix, hrest₂ i hiy]
  · simp only [setPages_info]
    have hi₁₂ : i ∉ List.range' g' (getRequiredPages y.size) ++ free₁ :=
      fun hmem => hi (hperm₁₂.mem_iff.mpr hmem)
    have hi₂₁ : i ∉ List.range' f' (getRequiredPages x.size) ++ free₂ :=
      fun hmem => hi (hpermxy.mem_iff.mpr (hperm₂₁.mem_iff.mpr hmem))
    have hi₁ : i ∉ free₁ := fun hmem => hi₁₂ (List.mem_append_right _ hmem)
    have hi₂ : i ∉ free₂ := fun hmem => hi₂₁ (List.mem_append_right _ hmem)
    rw [hsame₁₂ i hi₁₂, hsame₁ i (fun hmem => hi₁ (hperm₁.mem_iff.mpr hmem)),
      hsame₂₁ i hi₂₁, hsame₂ i (fun hmem => hi₂ (hperm₂.mem_iff.mpr hmem))]

end Inv

/-- **Nothing is lost or duplicated.**  In every reachable state all pages and blocks are
accounted for; a large allocation and its release restore the whole state; and two live
large buffers can be released in either order. -/
theorem mckusick_accounts_exactly {memory memorySize : ℕ} (hargs : Args memory memorySize)
    {c : Client McKusickAllocator} (h : Reachable (Start memory memorySize) Step c) :
    (∃ free bucket, Accounted c free bucket) ∧
    (∀ size p s', maxBlockSize < size → size < wordSize →
      c.heap.alloc size = some (p, s') → p ≠ 0 → s'.free p = some c.heap) ∧
    ∀ x ∈ c.live, ∀ y ∈ c.live, x ≠ y → maxBlockSize < x.size → maxBlockSize < y.size →
      ∃ s, (c.heap.free x.ptr).bind (fun s => s.free y.ptr) = some s ∧
        (c.heap.free y.ptr).bind (fun s => s.free x.ptr) = some s := by
  obtain ⟨base, n, -, role, free, bucket, hinv⟩ := sound_of_reachable hargs h
  exact ⟨⟨free, bucket, hinv.accounted⟩,
    fun size p s' hlarge hword halloc hp => hinv.alloc_free_large hlarge hword halloc hp,
    fun x hx y hy hne hxl hyl => hinv.free_large_comm hx hy hne hxl hyl⟩

/-- On four pages, two calls account for everything. -/
theorem mckusick_accounts_exactly_four_pages :
    ∃ c, Reachable (Start 4096 16384) Step c ∧ c.live = [⟨8192, 5000⟩] ∧
      (∃ free bucket, Accounted c free bucket) ∧ c.heap.free 8192 = construct (some 4096) 16384 := by
  have hcall : ((construct (some 4096) 16384).bind fun s => s.alloc 5000).map Prod.fst
      = some 8192 := by decide
  obtain ⟨⟨p, s'⟩, hbind, rfl⟩ := Option.map_eq_some_iff.mp hcall
  obtain ⟨s, hs, halloc⟩ := Option.bind_eq_some_iff.mp hbind
  have hinit : Reachable (Start 4096 16384) Step ⟨s, []⟩ := .of_init ⟨hs, rfl⟩
  have hreach : Reachable (Start 4096 16384) Step ⟨s', [⟨8192, 5000⟩]⟩ :=
    hinit.snoc (.allocSome (by decide) (by decide) halloc)
  refine ⟨_, hreach, rfl, (mckusick_accounts_exactly args_four_pages hreach).1, ?_⟩
  rw [hs]
  exact (mckusick_accounts_exactly args_four_pages hinit).2.1 5000 8192 s' (by decide)
    (by decide) halloc (by decide)

end McKusick
