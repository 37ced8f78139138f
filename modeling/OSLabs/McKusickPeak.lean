/-
# How many pages the small blocks take

A page that is carved into blocks is never given back.  It is carved only when no block
of its size is left, so the pages of a block size are as many as its blocks filled when
most of them were live.  The pages that are carved, those of the live large buffers and
the free ones are all there are, which tells when a small request is refused.
-/
import OSLabs.ClientLog
import OSLabs.HighWater
import OSLabs.McKusickSafety

namespace McKusick

open Memory McKusickAllocator

/-! ## Counting pages and blocks -/

/-- The data pages that are carved into the blocks of bucket `b`. -/
def McKusickAllocator.pagesFor (s : McKusickAllocator) (b : ℕ) : ℕ :=
  ((Finset.range s.dataPages).filter fun i => (s.info i).size = minBlockSize <<< b).card

/-- The blocks of bucket `b` that are live. -/
def liveFor (b : ℕ) (live : List Allocation) : ℕ :=
  live.countP fun x => getBucketIndex x.size = b

/-- The pages of the live large buffers. -/
def largePages (live : List Allocation) : ℕ :=
  ((live.filter fun x => maxBlockSize < x.size).map fun x => (x.size + pageSize - 1) / pageSize).sum

/-- The pages whose role is as asked for. -/
def pagesWhere (n : ℕ) (role : ℕ → PageRole) (p : PageRole → Prop) [DecidablePred p] : Finset ℕ :=
  (Finset.range n).filter fun i => p (role i)

theorem mem_pagesWhere {n i : ℕ} {role : ℕ → PageRole} {p : PageRole → Prop} [DecidablePred p] :
    i ∈ pagesWhere n role p ↔ i < n ∧ p (role i) := by
  rw [pagesWhere, Finset.mem_filter, Finset.mem_range]

/-- The blocks of a bucket. -/
def blocksWhere (base n : ℕ) (role : ℕ → PageRole) (b : ℕ) : Finset ℕ :=
  (pagesWhere n role (· = .carved b)).biUnion fun i => (blocksFrom (base + 4096 * i) b).toFinset

theorem mem_blocksWhere {base n b a : ℕ} {role : ℕ → PageRole} :
    a ∈ blocksWhere base n role b ↔ IsBlock base n role b a := by
  simp only [blocksWhere, IsBlock, Finset.mem_biUnion, mem_pagesWhere, List.mem_toFinset,
    and_assoc]

/-- The blocks of a page are distinct. -/
theorem nodup_blocksFrom (start b : ℕ) : (blocksFrom start b).Nodup :=
  List.nodup_range' _ (by have := le_blockSize b; omega)

/-- Every page of a bucket has the same number of blocks. -/
theorem card_blocksWhere {base n b : ℕ} {role : ℕ → PageRole} (hb : b < 8) :
    (blocksWhere base n role b).card =
      4096 / blockSize b * (pagesWhere n role (· = .carved b)).card := by
  rw [blocksWhere, Finset.card_biUnion]
  · rw [Finset.sum_congr rfl fun i _ =>
      (List.toFinset_card_of_nodup (nodup_blocksFrom (base + 4096 * i) b)).trans
        (List.length_range' ..), Finset.sum_const, smul_eq_mul, Nat.mul_comm]
  · -- Blocks of different pages are in different pages.
    intro i _ j _ hne
    rw [Function.onFun, Finset.disjoint_left]
    intro a hi hj
    have hin := blocksFrom_bounds hb (List.mem_toFinset.mp hi)
    have hin' := blocksFrom_bounds hb (List.mem_toFinset.mp hj)
    have hbs := le_blockSize b
    omega

namespace Inv

variable {base n : ℕ} {c : Client McKusickAllocator} {role : ℕ → PageRole} {free : List ℕ}
  {bucket : ℕ → List ℕ}

/-- A record with a block size is that of a carved page. -/
theorem size_eq_blockSize_iff (h : Inv base n c role free bucket) {i b : ℕ} (hi : i < n)
    (hb : b < 8) : (c.heap.info i).size = blockSize b ↔ role i = .carved b := by
  have hbs := le_blockSize b
  have hpage : blockSize b ≤ 4096 := Nat.le_of_dvd (by norm_num) (blockSize_dvd_pageSize hb)
  cases hr : role i with
  | free =>
      have hdata := (h.roleOk i hi).of_free hr
      simp only [PageInfo.data, Prod.mk.injEq] at hdata
      simp only [reduceCtorEq, iff_false]
      omega
  | carved b' =>
      obtain ⟨hb', hdata⟩ := (h.roleOk i hi).of_carved hr
      simp only [PageInfo.data, Prod.mk.injEq] at hdata
      rw [hdata.2.1, PageRole.carved.injEq]
      constructor
      · intro hsize
        rw [← getBucketIndex_blockSize hb, ← getBucketIndex_blockSize hb', hsize]
      · intro heq
        rw [heq]
  | buffer f m =>
      obtain ⟨⟨hm, -⟩, -, -, -, hdata, -⟩ := (h.roleOk i hi).of_buffer hr
      simp only [PageInfo.data, Prod.mk.injEq] at hdata
      simp only [reduceCtorEq, iff_false]
      rw [hdata.2.1]
      split_ifs <;> omega

theorem pagesFor_eq (h : Inv base n c role free bucket) {b : ℕ} (hb : b < 8) :
    c.heap.pagesFor b = (pagesWhere n role (· = .carved b)).card := by
  unfold pagesFor pagesWhere
  rw [h.geometry.pages_eq]
  apply congrArg Finset.card
  apply Finset.filter_congr
  intro i hi
  exact h.size_eq_blockSize_iff (Finset.mem_range.mp hi) hb

/-- A live allocation of a bucket is small. -/
theorem small_of_bucket {x : Allocation} {b : ℕ} (hb : b < 8) (hx : getBucketIndex x.size = b) :
    x.size ≤ 4096 := by
  by_contra hlarge
  rw [getBucketIndex, if_pos (not_le.mp hlarge)] at hx
  exact absurd (hx ▸ hb : bucketCount < 8) (lt_irrefl 8)

/-- The live blocks of a bucket are the blocks that are not on its list. -/
theorem mem_live_blocks (h : Inv base n c role free bucket) {a b : ℕ} (hb : b < 8) :
    a ∈ (c.live.filter fun x => getBucketIndex x.size = b).map Allocation.ptr ↔
      IsBlock base n role b a ∧ a ∉ bucket b := by
  rw [List.mem_map]
  constructor
  · rintro ⟨x, hx, rfl⟩
    rw [List.mem_filter, decide_eq_true_eq] at hx
    have hsmall := small_of_bucket hb hx.2
    rcases h.liveOk x hx.1 with ⟨-, -, hblock⟩ | ⟨hlarge, -⟩
    · rw [hx.2] at hblock
      refine ⟨hblock, fun hmem => ?_⟩
      exact (h.account b x.ptr hblock).mp hmem (List.mem_map_of_mem hx.1)
    · omega
  · rintro ⟨hblock, hnot⟩
    have hlive : a ∈ c.live.map Allocation.ptr := by
      by_contra hno
      exact hnot ((h.account b a hblock).mpr hno)
    obtain ⟨x, hx, rfl⟩ := List.mem_map.mp hlive
    refine ⟨x, ?_, rfl⟩
    rw [List.mem_filter, decide_eq_true_eq]
    refine ⟨hx, ?_⟩
    rcases h.liveOk x hx with ⟨-, -, hblock'⟩ | ⟨-, f, hf, hptr, hr⟩
    · exact h.bucket_unique hblock' hblock
    · -- A large buffer starts in a page that is not carved.
      exact absurd hptr (h.ne_page_of_isBlock (by rw [hr]; exact fun _ => PageRole.noConfusion)
        hblock)

/-- **Every block is listed or live.** -/
theorem length_bucket_add (h : Inv base n c role free bucket) {b : ℕ} (hb : b < 8) :
    (bucket b).length + liveFor b c.live = 4096 / blockSize b * c.heap.pagesFor b := by
  have hcard : (blocksWhere base n role b).card =
      4096 / blockSize b * (pagesWhere n role (· = .carved b)).card := card_blocksWhere hb
  have hlive : ((c.live.filter fun x => getBucketIndex x.size = b).map Allocation.ptr).Nodup :=
    h.nodup.sublist (List.filter_sublist.map Allocation.ptr)
  have hlisted := (h.chain b hb).nodup
  rw [h.pagesFor_eq hb, ← hcard, liveFor, List.countP_eq_length_filter,
    ← List.length_map (f := Allocation.ptr), ← List.toFinset_card_of_nodup hlisted,
    ← List.toFinset_card_of_nodup hlive, ← Finset.card_union_of_disjoint]
  · apply congrArg Finset.card
    ext a
    rw [Finset.mem_union, List.mem_toFinset, List.mem_toFinset, h.mem_live_blocks hb,
      mem_blocksWhere]
    constructor
    · rintro (hmem | ⟨hblock, -⟩)
      · exact h.isBlock b hb a hmem
      · exact hblock
    · intro hblock
      by_cases hmem : a ∈ bucket b
      · exact Or.inl hmem
      · exact Or.inr ⟨hblock, hmem⟩
  · rw [Finset.disjoint_left]
    intro a hin hout
    rw [List.mem_toFinset] at hin hout
    exact ((h.mem_live_blocks hb).mp hout).2 hin

/-! ## What a step does to the pages -/

/-- The pages that are carved are the same in both. -/
def SameCarved (role role' : ℕ → PageRole) : Prop :=
  ∀ i b, role' i = .carved b ↔ role i = .carved b

theorem SameCarved.refl (role : ℕ → PageRole) : SameCarved role role := fun _ _ => Iff.rfl

theorem SameCarved.pagesWhere_eq {role' : ℕ → PageRole} (h : SameCarved role role') (b : ℕ) :
    pagesWhere n role' (· = .carved b) = pagesWhere n role (· = .carved b) := by
  ext i
  rw [mem_pagesWhere, mem_pagesWhere, h i b]

/-- A carved page more. -/
theorem card_pagesWhere_carve {f b : ℕ} (hf : f < n) (hrole : role f = .free) (b' : ℕ) :
    (pagesWhere n (Function.update role f (.carved b)) (· = .carved b')).card =
      (pagesWhere n role (· = .carved b')).card + if b' = b then 1 else 0 := by
  have hother : ∀ i, i ≠ f → Function.update role f (.carved b) i = role i := fun i hi =>
    Function.update_of_ne hi _ _
  split_ifs with hb
  · have hnot : f ∉ pagesWhere n role (· = .carved b') := by
      rw [mem_pagesWhere, hrole]
      exact fun hmem => PageRole.noConfusion hmem.2
    rw [← Finset.card_insert_of_notMem hnot]
    apply congrArg Finset.card
    ext i
    rw [Finset.mem_insert, mem_pagesWhere, mem_pagesWhere]
    by_cases hi : i = f
    · subst hi
      rw [Function.update_self, hb]
      exact ⟨fun _ => Or.inl rfl, fun _ => ⟨hf, rfl⟩⟩
    · rw [hother i hi]
      exact ⟨Or.inr, fun hmem => hmem.resolve_left hi⟩
  · rw [Nat.add_zero]
    apply congrArg Finset.card
    ext i
    rw [mem_pagesWhere, mem_pagesWhere]
    by_cases hi : i = f
    · subst hi
      rw [Function.update_self, hrole]
      constructor
      · rintro ⟨-, hcarved⟩
        exact absurd (PageRole.carved.inj hcarved).symm hb
      · rintro ⟨-, hcarved⟩
        cases hcarved
    · rw [hother i hi]

/-- A small request whose bucket is empty, answered with the first block of a page that is carved
for it. -/
structure Carves (c : Client McKusickAllocator) (n : ℕ) (role role' : ℕ → PageRole)
    (bucket : ℕ → List ℕ) (size : ℕ) : Prop where
  pos : 0 < size
  small : size ≤ 4096
  empty : bucket (getBucketIndex size) = []
  page : ∃ f < n, role f = .free ∧
    role' = Function.update role f (.carved (getBucketIndex size))

/-- **The pages of a request**: it carves one, or the carved pages stay the same. -/
theorem alloc_pages (h : Inv base n c role free bucket) {size p : ℕ} {s : McKusickAllocator}
    (hword : size < 2 ^ 64) (hcall : c.heap.alloc size = some (p, s)) :
    (p = 0 ∧ s = c.heap) ∨ p ≠ 0 ∧ ∃ role' free' bucket',
      Inv base n ⟨s, ⟨p, size⟩ :: c.live⟩ role' free' bucket' ∧
      (SameCarved role role' ∨ Carves c n role role' bucket size) := by
  have hbase := h.geometry.base_pos
  by_cases hzero : size = 0
  · left
    rw [McKusickAllocator.alloc, if_pos hzero] at hcall
    cases hcall
    exact ⟨rfl, rfl⟩
  have hpos : 0 < size := Nat.pos_of_ne_zero hzero
  by_cases hle : size ≤ 4096
  · have hb := (getBucketIndex_spec hpos hle).1
    cases hbucket : bucket (getBucketIndex size) with
    | cons a rest =>
        obtain ⟨hhead, hapos, hinv⟩ := h.take hpos hle hbucket
        rw [alloc_of_listed hpos hle (by rw [hhead]; exact Nat.ne_of_gt hapos), takeHead,
          hhead] at hcall
        cases hcall
        exact Or.inr ⟨Nat.ne_of_gt hapos, _, _, _, hinv, Or.inl (SameCarved.refl role)⟩
    | nil =>
        have hchain := h.chain _ hb
        rw [hbucket] at hchain
        rw [alloc_of_empty hpos hle (toPtr_eq_none_iff.mp hchain)] at hcall
        have hF := h.freeList.chain
        cases hfl : free with
        | nil =>
            rw [hfl] at hF
            rw [show c.heap.freePageInfo = none from hF] at hcall
            cases hcall
            exact Or.inl ⟨rfl, rfl⟩
        | cons f rest =>
            rw [hfl] at hF
            rw [hF.1] at hcall
            have hcarve := h.carve hfl hb hbucket
            obtain ⟨k, hk, -⟩ := exists_blocksPerPage hb
            have hblocks : Function.update bucket (getBucketIndex size)
                (blocksFrom (base + 4096 * f) (getBucketIndex size)) (getBucketIndex size)
                = (base + 4096 * f) :: List.range' (base + 4096 * f +
                    blockSize (getBucketIndex size)) k (blockSize (getBucketIndex size)) := by
              rw [Function.update_self, blocksFrom, hk, List.range'_succ]
            obtain ⟨hhead, hapos, hinv⟩ := hcarve.take hpos hle hblocks
            obtain ⟨hf, hrole⟩ := (h.mem_free f).mp (by rw [hfl]; exact List.mem_cons_self)
            have hnext : (c.heap.carveHead f (getBucketIndex size)).takeHead
                (getBucketIndex size) = (p, s) := Option.some.inj hcall
            unfold takeHead carveHead at hnext
            rw [hhead] at hnext
            cases hnext
            exact Or.inr ⟨Nat.ne_of_gt hapos, _, _, _, hinv,
              Or.inr ⟨hpos, hle, hbucket, f, hf, hrole, rfl⟩⟩
  · rcases h.alloc_large (by omega) hword with
      ⟨hnone, -⟩ | ⟨htwo, pre, f, post, info, head, hfree, hfn, hsome, -, hF, -, hrun, hrest⟩
    · rw [hnone] at hcall
      cases hcall
      exact Or.inl ⟨rfl, rfl⟩
    · rw [hsome] at hcall
      cases hcall
      refine Or.inr ⟨by omega, _, _, _, h.takeRun (by omega) hword htwo hfree hF hrun hrest,
        Or.inl ?_⟩
      intro i b
      by_cases hin : f ≤ i ∧ i < f + getRequiredPages size
      · -- The pages of the new buffer were free.
        have hmem : i ∈ free := by
          rw [hfree, List.mem_append, List.mem_append, List.mem_range'_1]
          exact Or.inr (Or.inl hin)
        rw [takeRole_of_mem hin.1 hin.2, ((h.mem_free i).mp hmem).2]
        simp
      · rw [takeRole_of_notMem hin]

/-- `free` of a live block puts it in front of its bucket. -/
theorem free_small (h : Inv base n c role free bucket) {x : Allocation} (hx : x ∈ c.live)
    (hle : x.size ≤ 4096) :
    c.heap.free x.ptr = some { c.heap with
      mem := c.heap.mem.store64 x.ptr (c.heap.freelistarr (getBucketIndex x.size))
      freelistarr := Function.update c.heap.freelistarr (getBucketIndex x.size) x.ptr } := by
  have hbase := h.geometry.base_pos
  rcases h.liveOk x hx with ⟨-, hpos, i, hi, hrole, ha⟩ | ⟨hlarge, -⟩
  · have hb := (getBucketIndex_spec hpos hle).1
    have hbounds := blocksFrom_bounds hb ha
    have hbs := le_blockSize (getBucketIndex x.size)
    have hdata := ((h.roleOk i hi).of_carved hrole).2
    simp only [PageInfo.data, Prod.mk.injEq] at hdata
    have hpage : blockSize (getBucketIndex x.size) ≤ 4096 :=
      Nat.le_of_dvd (by norm_num) (blockSize_dvd_pageSize hb)
    rw [McKusickAllocator.free, if_neg (by omega),
      h.findPageInfo_eq hi hbounds.1 (by omega)]
    simp only [hdata.2.1]
    rw [if_pos hpage]
    simp only [getBucketIndex_blockSize hb]
  · omega

/-- A live pointer that is given back leaves the carved pages carved. -/
theorem free_pages (h : Inv base n c role free bucket) {x : Allocation} (hx : x ∈ c.live)
    {s : McKusickAllocator} (hcall : c.heap.free x.ptr = some s) :
    ∃ role' free' bucket', Inv base n ⟨s, c.live.erase x⟩ role' free' bucket' ∧
      SameCarved role role' := by
  by_cases hlarge : 4096 < x.size
  · obtain ⟨f, info, head, free', hptr, hpages, heq, hF, hperm, hrun, hrest, -⟩ :=
      h.free_large hx hlarge
    rw [heq] at hcall
    cases hcall
    refine ⟨_, _, _, h.putRun hx hlarge hptr hF hperm hrun hrest, ?_⟩
    intro i b
    by_cases hin : f ≤ i ∧ i < f + getRequiredPages x.size
    · -- The pages of the buffer were not carved.
      rw [putRole_of_mem hin.1 hin.2, (hpages i (List.mem_range'_1.mpr hin)).2]
      simp
    · rw [putRole_of_notMem hin]
  · rw [h.free_small hx (by omega)] at hcall
    cases hcall
    exact ⟨_, _, _, h.putBlock hx (by omega), SameCarved.refl role⟩

/-- **The pages of a step**: it carves one for a request whose bucket has no block left, or the
carved pages stay the same. -/
theorem step_pages (h : Inv base n c role free bucket) {e : HeapEvent}
    {c' : Client McKusickAllocator} (hst : Step c e c') :
    ∃ role' free' bucket', Inv base n c' role' free' bucket' ∧
      (SameCarved role role' ∨ ∃ size p, c'.live = ⟨p, size⟩ :: c.live ∧
        Carves c n role role' bucket size) := by
  cases hst with
  | allocNull hword halloc =>
      rcases h.alloc_pages hword halloc with ⟨-, rfl⟩ | ⟨hne, -⟩
      · exact ⟨role, free, bucket, h, Or.inl (SameCarved.refl role)⟩
      · exact absurd rfl hne
  | allocSome hword hp halloc =>
      rcases h.alloc_pages hword halloc with ⟨hnull, -⟩ | ⟨-, role', free', bucket', hinv, hpages⟩
      · exact absurd hnull hp
      · refine ⟨role', free', bucket', hinv, hpages.imp_right fun hcarves => ?_⟩
        exact ⟨_, _, rfl, hcarves⟩
  | freeNull hfree =>
      rw [show allocator.free c.heap 0 = c.heap.free 0 from rfl, free_null] at hfree
      cases hfree
      exact ⟨role, free, bucket, h, Or.inl (SameCarved.refl role)⟩
  | freeLive hx hfree =>
      obtain ⟨role', free', bucket', hinv, hsame⟩ := h.free_pages hx hfree
      exact ⟨role', free', bucket', hinv, Or.inl hsame⟩
  | write hx hy => exact ⟨role, free, bucket, h.write hx hy, Or.inl (SameCarved.refl role)⟩

end Inv

/-! ## The pages of a block size -/

/-- **Pages are carved on demand.** -/
theorem growsOnDemand (base n : ℕ) {b : ℕ} (hb : b < 8) :
    Run.GrowsOnDemand Step (Sound base n) (4096 / blockSize b) (fun c => liveFor b c.live)
      fun c => c.heap.pagesFor b := by
  refine ⟨fun c e c' hs hst => hs.step hst, ?_, ?_⟩
  · rintro c ⟨role, free, bucket, h⟩
    have hcount := h.length_bucket_add hb
    omega
  · rintro c e c' ⟨role, free, bucket, h⟩ hst
    obtain ⟨role', free', bucket', h', hpages⟩ := h.step_pages hst
    rw [h.pagesFor_eq hb, h'.pagesFor_eq hb]
    rcases hpages with hsame | ⟨size, p, hlive, hcarves⟩
    · left
      rw [hsame.pagesWhere_eq]
    · obtain ⟨f, hf, hrole, rfl⟩ := hcarves.page
      rw [Inv.card_pagesWhere_carve hf hrole]
      by_cases hbucket : b = getBucketIndex size
      · -- All the blocks were live, and one more is.
        right
        have hcount := h.length_bucket_add hb
        have hempty := hcarves.empty
        rw [← hbucket] at hempty
        rw [hempty, List.length_nil, Nat.zero_add, h.pagesFor_eq hb] at hcount
        refine ⟨by rw [if_pos hbucket], ?_⟩
        rw [← hcount, hlive, liveFor, liveFor, List.countP_cons_of_pos (by simpa using hbucket.symm)]
        exact Nat.lt_succ_self _
      · left
        rw [if_neg hbucket, Nat.add_zero]

/-- The blocks of a page of bucket `b`. -/
def blocksPerPage (b : ℕ) : ℕ := pageSize / (minBlockSize <<< b)

theorem blocksPerPage_pos {b : ℕ} (hb : b < 8) : 0 < blocksPerPage b := by
  obtain ⟨k, hk, -⟩ := exists_blocksPerPage hb
  rw [show blocksPerPage b = k + 1 from hk]
  exact Nat.succ_pos k

/-- No page is carved at first. -/
theorem growsFromStart {memory memorySize : ℕ} (hargs : Args memory memorySize)
    {c₀ : Client McKusickAllocator} (hstart : Start memory memorySize c₀) {b : ℕ} (hb : b < 8) :
    ∃ base n, Run.GrowsOnDemand Step (Sound base n) (blocksPerPage b)
        (fun c => liveFor b c.live) (fun c => c.heap.pagesFor b) ∧
      Sound base n c₀ ∧ c₀.heap.pagesFor b = 0 := by
  obtain ⟨s, live⟩ := c₀
  obtain ⟨hs, rfl⟩ := hstart
  obtain ⟨base, n, -, hinv⟩ := inv_of_construct hargs.word hargs.large hargs.mapping hs
  refine ⟨base, n, growsOnDemand base n hb, ⟨_, _, _, hinv⟩, ?_⟩
  have hzero : 0 = blocksPerPage b * s.pagesFor b := hinv.length_bucket_add hb
  exact (Nat.mul_eq_zero.mp hzero.symm).resolve_left (blocksPerPage_pos hb).ne'

/-- No live allocation is at null. -/
theorem Inv.null_not_live {base n : ℕ} {c : Client McKusickAllocator} {role : ℕ → PageRole}
    {free : List ℕ} {bucket : ℕ → List ℕ} (h : Inv base n c role free bucket) :
    0 ∉ c.live.map Allocation.ptr := by
  intro hmem
  obtain ⟨x, hx, hptr⟩ := List.mem_map.mp hmem
  have hwithin := h.safeHeap.within x hx
  have hbase := h.geometry.base_pos
  have hlow : base ≤ x.ptr := hwithin.1
  omega

/-- The log says what is live. -/
theorem live_eq_liveAfter {memory memorySize : ℕ} {c₀ c : Client McKusickAllocator} {log : CallLog}
    (hargs : Args memory memorySize) (hstart : Start memory memorySize c₀)
    (hrun : Run (Client.Told allocator (· < wordSize)) c₀ log c) :
    c.live = CallLog.liveAfter log := by
  obtain ⟨s, live⟩ := c₀
  obtain ⟨hs, rfl⟩ := hstart
  obtain ⟨base, n, -, hinv⟩ := inv_of_construct hargs.word hargs.large hargs.mapping hs
  apply Client.live_eq_liveAfter (I := Sound base n) _ _ _ hrun ⟨_, _, _, hinv⟩
  · exact fun c e c' hc hst => hc.step hst
  · rintro c ⟨role, free, bucket, h⟩
    exact h.nodup
  · rintro c ⟨role, free, bucket, h⟩
    exact h.null_not_live

/-- **The pages of a block size are as many as its live blocks needed when there were most of
them.**  No page is carved that was not needed at some time, and none is given back. -/
theorem pages_are_peak_demand {memory memorySize : ℕ} (hargs : Args memory memorySize)
    {c₀ c : Client McKusickAllocator} {es : List HeapEvent} (hstart : Start memory memorySize c₀)
    (hrun : Run Step c₀ es c) {b : ℕ} (hb : b < bucketCount) :
    ∃ peak, IsGreatest (Run.Marks Step c₀ es c fun d => liveFor b d.live) peak ∧
      c.heap.pagesFor b = peak ⌈/⌉ blocksPerPage b := by
  obtain ⟨base, n, hgrows, hsound, hempty⟩ := growsFromStart hargs hstart hb
  exact hgrows.pool_eq_ceilDiv (blocksPerPage_pos hb) hrun hsound hempty

/-- A client that asks for four blocks of a half page and gives three of them back. -/
def fourAndBack : CallLog :=
  [(.alloc 2000, some 8192), (.alloc 2000, some 10240), (.alloc 2000, some 12288),
    (.alloc 2000, some 14336), (.free 10240, none), (.free 14336, none), (.free 8192, none)]

/-- Four blocks were needed at a time, so there are two pages of them, although one block is live. -/
theorem pages_are_peak_demand_four_pages :
    ∃ c₀ c, Start 4096 16384 c₀ ∧ Run Step c₀ (fourAndBack.map Prod.fst) c ∧
      IsGreatest (Run.Marks Step c₀ (fourAndBack.map Prod.fst) c fun d => liveFor 6 d.live) 4 ∧
      c.live = [⟨12288, 2000⟩] ∧ c.heap.pagesFor 6 = 2 := by
  have hplay : ((construct (some 4096) 16384).bind fun s =>
      (Client.play allocator (· < wordSize) ⟨s, []⟩ (fourAndBack.map Prod.fst)).map
        (Prod.map id fun c => (c.live, c.heap.pagesFor 6))) =
      some (fourAndBack, [⟨12288, 2000⟩], 2) := by decide +kernel
  obtain ⟨s, c, hs, htold, hview⟩ := Client.exists_run_of_play hplay
  obtain ⟨hlive, htwo⟩ := Prod.mk.inj hview
  have hstart : Start 4096 16384 ⟨s, []⟩ := ⟨hs, rfl⟩
  have hrun := Client.run_of_told htold
  obtain ⟨peak, hpeak, hpages⟩ := pages_are_peak_demand args_four_pages hstart hrun
    (show 6 < bucketCount by decide)
  -- After the four requests four blocks are live, and two pages hold no more.
  have hsplit : Run (Client.Told allocator (· < wordSize)) ⟨s, []⟩
      (fourAndBack.take 4 ++ fourAndBack.drop 4) c := htold
  obtain ⟨d, hbefore, hafter⟩ := hsplit.exists_of_append
  have hfour : liveFor 6 d.live = 4 := by
    rw [live_eq_liveAfter args_four_pages hstart hbefore]
    decide +kernel
  have hmark : 4 ≤ peak := hpeak.2 ⟨d, ⟨_, _, rfl, Client.run_of_told hbefore,
    Client.run_of_told hafter⟩, hfour⟩
  have hmost : peak ≤ 4 := by
    rw [htwo] at hpages
    exact (ceilDiv_le_iff_le_mul (blocksPerPage_pos (show 6 < bucketCount by decide))).mp hpages.ge
  obtain rfl : peak = 4 := le_antisymm hmost hmark
  exact ⟨_, c, hstart, hrun, hpeak, hlive, htwo⟩

/-! ## When a small request is refused -/

/-- The number that tells the use of a page. -/
def PageRole.use : PageRole → ℕ
  | .carved b => b
  | .buffer _ _ => 8
  | .free => 9

namespace Inv

variable {base n : ℕ} {c : Client McKusickAllocator} {role : ℕ → PageRole} {free : List ℕ}
  {bucket : ℕ → List ℕ}

theorem use_lt (h : Inv base n c role free bucket) {i : ℕ} (hi : i < n) : (role i).use < 10 := by
  cases hr : role i with
  | free => exact Nat.lt_succ_self 9
  | carved b =>
      have hb := ((h.roleOk i hi).of_carved hr).1
      exact hb.trans (by decide)
  | buffer f m => exact Nat.lt_succ_of_lt (Nat.lt_succ_self 8)

/-- The pages of a live large buffer. -/
def bufferPages (base : ℕ) (x : Allocation) : Finset ℕ :=
  Finset.Ico ((x.ptr - base) / 4096) ((x.ptr - base) / 4096 + (x.size + 4095) / 4096)

theorem mem_bufferPages (h : Inv base n c role free bucket) {x : Allocation} (hx : x ∈ c.live)
    (hlarge : 4096 < x.size) {i : ℕ} :
    i ∈ bufferPages base x ↔
      i < n ∧ ∃ f, x.ptr = base + 4096 * f ∧ role i = .buffer f x.size := by
  obtain ⟨f, hf, hptr, hr, hpages, hfit, hall⟩ := h.exists_buffer hx hlarge
  have hword := ((h.roleOk f hf).of_buffer hr).1.2
  have hceil := getRequiredPages_eq_ceil hword (by omega)
  have hfirst : (x.ptr - base) / 4096 = f := by omega
  rw [bufferPages, hfirst, ← hceil, Finset.mem_Ico]
  constructor
  · rintro ⟨hlow, hhigh⟩
    exact ⟨by omega, f, hptr, hall i hlow hhigh⟩
  · rintro ⟨hi, f', hptr', hrole⟩
    obtain rfl : f' = f := by omega
    exact ((h.roleOk i hi).of_buffer hrole).2.1

/-- The pages of the live large buffers. -/
theorem card_buffers (h : Inv base n c role free bucket) :
    (pagesWhere n role fun r => r.use = 8).card = largePages c.live := by
  have hnodup : (c.live.filter fun x => maxBlockSize < x.size).Nodup :=
    (List.Nodup.of_map Allocation.ptr h.nodup).filter _
  rw [largePages, ← List.sum_toFinset _ hnodup]
  have hcard : ∀ x ∈ (c.live.filter fun x => maxBlockSize < x.size).toFinset,
      (x.size + pageSize - 1) / pageSize = (bufferPages base x).card := by
    intro x hx
    rw [bufferPages, Nat.card_Ico, Nat.add_sub_cancel_left]
    rfl
  rw [Finset.sum_congr rfl hcard, ← Finset.card_biUnion]
  · apply congrArg Finset.card
    ext i
    rw [mem_pagesWhere, Finset.mem_biUnion]
    constructor
    · rintro ⟨hi, huse⟩
      cases hr : role i with
      | free =>
          rw [hr] at huse
          cases huse
      | carved b =>
          have hb := ((h.roleOk i hi).of_carved hr).1
          rw [hr] at huse
          exact absurd huse (Nat.ne_of_lt hb)
      | buffer f m =>
          obtain ⟨⟨hm, -⟩, -, -, hlive, -, -⟩ := (h.roleOk i hi).of_buffer hr
          refine ⟨⟨base + 4096 * f, m⟩, ?_, (h.mem_bufferPages hlive hm).mpr ⟨hi, f, rfl, hr⟩⟩
          rw [List.mem_toFinset, List.mem_filter, decide_eq_true_eq]
          exact ⟨hlive, hm⟩
    · rintro ⟨x, hx, hin⟩
      rw [List.mem_toFinset, List.mem_filter, decide_eq_true_eq] at hx
      obtain ⟨hi, f, -, hr⟩ := (h.mem_bufferPages hx.1 hx.2).mp hin
      exact ⟨hi, by rw [hr]; rfl⟩
  · -- A page belongs to one buffer.
    intro x hx y hy hne
    rw [Finset.mem_coe, List.mem_toFinset, List.mem_filter, decide_eq_true_eq] at hx hy
    rw [Function.onFun, Finset.disjoint_left]
    intro i hin hin'
    obtain ⟨-, f, hptr, hr⟩ := (h.mem_bufferPages hx.1 hx.2).mp hin
    obtain ⟨-, f', hptr', hr'⟩ := (h.mem_bufferPages hy.1 hy.2).mp hin'
    rw [hr] at hr'
    obtain ⟨hf, hsize⟩ := PageRole.buffer.inj hr'
    apply hne
    cases x
    cases y
    simp_all

/-- **Every page is free, carved or part of a live large buffer.** -/
theorem pages_add_up (h : Inv base n c role free bucket) :
    n = ∑ b ∈ Finset.range 8, c.heap.pagesFor b + largePages c.live + free.length := by
  -- use 9 is the use of a page that is on the free list
  have hfree : (pagesWhere n role fun r => r.use = 9).card = free.length := by
    rw [← List.toFinset_card_of_nodup h.freeList.chain.nodup]
    apply congrArg Finset.card
    ext i
    rw [mem_pagesWhere, List.mem_toFinset, h.mem_free]
    apply and_congr_right
    intro hi
    cases hr : role i with
    | free => exact iff_of_true rfl rfl
    | carved b =>
        have hb := ((h.roleOk i hi).of_carved hr).1
        refine iff_of_false (fun huse => ?_) PageRole.noConfusion
        have huse' : b = 9 := huse
        omega
    | buffer f m => exact iff_of_false (fun huse => by cases huse) PageRole.noConfusion
  -- the use of a carved page is its bucket
  have hcarved : ∀ b ∈ Finset.range 8, c.heap.pagesFor b =
      (pagesWhere n role fun r => r.use = b).card := by
    intro b hb
    rw [Finset.mem_range] at hb
    rw [h.pagesFor_eq hb]
    apply congrArg Finset.card
    ext i
    rw [mem_pagesWhere, mem_pagesWhere]
    apply and_congr_right
    intro hi
    cases role i with
    | free =>
        refine iff_of_false PageRole.noConfusion fun huse => ?_
        have huse' : 9 = b := huse
        omega
    | carved b' =>
        rw [PageRole.carved.injEq]
        rfl
    | buffer f m =>
        refine iff_of_false PageRole.noConfusion fun huse => ?_
        have huse' : 8 = b := huse
        omega
  -- the ten uses part the pages
  have hall : (Finset.range n).card =
      ∑ u ∈ Finset.range 10, (pagesWhere n role fun r => r.use = u).card := by
    rw [Finset.card_eq_sum_card_fiberwise (f := fun i => (role i).use) (t := Finset.range 10)]
    · rfl
    · intro i hi
      exact Finset.mem_coe.mpr (Finset.mem_range.mpr (h.use_lt (Finset.mem_range.mp hi)))
  rw [Finset.card_range, Finset.sum_range_succ, Finset.sum_range_succ, hfree, h.card_buffers,
    ← Finset.sum_congr rfl hcarved] at hall
  exact hall

/-- The first block of a page that is carved is its first address. -/
theorem freelistarr_carveHead (h : Inv base n c role free bucket) {f b : ℕ} (hf : f < n)
    (hb : b < 8) : (c.heap.carveHead f b).freelistarr b = base + 4096 * f := by
  show Function.update c.heap.freelistarr (getBucketIndex (blockSize b))
    (c.heap.info f).pageAddr b = base + 4096 * f
  rw [getBucketIndex_blockSize hb, Function.update_self]
  exact (h.roleOk f hf).pageAddr

/-- A small request is refused when its bucket and the free-page list are empty. -/
theorem alloc_small_null_iff (h : Inv base n c role free bucket) {size : ℕ} (hpos : 0 < size)
    (hle : size ≤ 4096) :
    ∃ p s, c.heap.alloc size = some (p, s) ∧
      (p = 0 ↔ bucket (getBucketIndex size) = [] ∧ free = []) := by
  have hbase := h.geometry.base_pos
  have hb := (getBucketIndex_spec hpos hle).1
  have hchain := h.chain _ hb
  cases hbucket : bucket (getBucketIndex size) with
  | cons a rest =>
      obtain ⟨hhead, hapos, -⟩ := h.take hpos hle hbucket
      refine ⟨_, _, alloc_of_listed hpos hle (by rw [hhead]; exact Nat.ne_of_gt hapos), ?_⟩
      rw [hhead]
      exact iff_of_false (Nat.ne_of_gt hapos) fun hno => List.cons_ne_nil _ _ hno.1
  | nil =>
      rw [hbucket] at hchain
      have halloc := alloc_of_empty hpos hle (toPtr_eq_none_iff.mp hchain)
      have hF := h.freeList.chain
      cases hfl : free with
      | nil =>
          rw [hfl] at hF
          rw [show c.heap.freePageInfo = none from hF] at halloc
          exact ⟨0, _, halloc, iff_of_true rfl ⟨rfl, rfl⟩⟩
      | cons f rest =>
          rw [hfl] at hF
          rw [hF.1] at halloc
          have hf : f < n := h.freeList.bound f (by rw [hfl]; exact List.mem_cons_self)
          refine ⟨_, _, halloc, ?_⟩
          rw [h.freelistarr_carveHead hf hb]
          exact iff_of_false (by omega) fun hno => List.cons_ne_nil _ _ hno.2

end Inv

/-- The most blocks of a bucket that were live at a time, by the log of a client. -/
def peakFor (b : ℕ) (log : CallLog) : ℕ :=
  (Finset.range (log.length + 1)).sup fun i => liveFor b (CallLog.liveAfter (log.take i))

section Log

variable {memory memorySize : ℕ} {c₀ c : Client McKusickAllocator} {log : CallLog}

/-- The marks of a run are those of the prefixes of its log. -/
theorem peakFor_eq (hargs : Args memory memorySize) (hstart : Start memory memorySize c₀)
    (hrun : Run (Client.Told allocator (· < wordSize)) c₀ log c) {b peak : ℕ}
    (hpeak : IsGreatest (Run.Marks (Client.Told allocator (· < wordSize)) c₀ log c
      fun d => liveFor b d.live) peak) : peakFor b log = peak := by
  apply le_antisymm
  · apply Finset.sup_le
    intro i _
    rw [← List.take_append_drop i log] at hrun
    obtain ⟨d, hbefore, hafter⟩ := hrun.exists_of_append
    rw [← live_eq_liveAfter hargs hstart hbefore]
    exact hpeak.2 ⟨d, ⟨_, _, (List.take_append_drop i log).symm, hbefore, hafter⟩, rfl⟩
  · obtain ⟨d, ⟨before, after, hlog, hbefore, -⟩, rfl⟩ := hpeak.1
    have htake : log.take before.length = before := by rw [hlog, List.take_left]
    have hle : before.length < log.length + 1 := by
      rw [hlog, List.length_append]
      omega
    have hsup : liveFor b (CallLog.liveAfter (log.take before.length)) ≤ peakFor b log :=
      Finset.le_sup (f := fun i => liveFor b (CallLog.liveAfter (log.take i)))
        (Finset.mem_range.mpr hle)
    rwa [htake, ← live_eq_liveAfter hargs hstart hbefore] at hsup

/-- The pages of a block size, by the log of the client. -/
theorem pagesFor_eq_of_log (hargs : Args memory memorySize) (hstart : Start memory memorySize c₀)
    (hrun : Run (Client.Told allocator (· < wordSize)) c₀ log c) {b : ℕ} (hb : b < 8) :
    c.heap.pagesFor b = peakFor b log ⌈/⌉ blocksPerPage b := by
  obtain ⟨base, n, hgrows, hsound, hempty⟩ := growsFromStart hargs hstart hb
  obtain ⟨peak, hpeak, hpages⟩ := (hgrows.relabel fun _ _ _ hst => ⟨_, hst.1⟩).pool_eq_ceilDiv
    (blocksPerPage_pos hb) hrun hsound hempty
  rw [peakFor_eq hargs hstart hrun hpeak]
  exact hpages

/-- **When a small request is refused**, by the log of the client alone: exactly when all the blocks
of its size that were ever needed at a time are live, to the end of their last page, and the pages
that the block sizes ever needed and those of the live large buffers are all there are. -/
theorem small_request_refused_iff (hargs : Args memory memorySize)
    (hstart : Start memory memorySize c₀)
    (hrun : Run (Client.Told allocator (· < wordSize)) c₀ log c) {size : ℕ} (hpos : 0 < size)
    (hle : size ≤ maxBlockSize) :
    Client.answer allocator c (.alloc size) = some 0 ↔
      liveFor (getBucketIndex size) (CallLog.liveAfter log) =
        blocksPerPage (getBucketIndex size) *
          (peakFor (getBucketIndex size) log ⌈/⌉ blocksPerPage (getBucketIndex size)) ∧
      ∑ b ∈ Finset.range bucketCount, peakFor b log ⌈/⌉ blocksPerPage b +
        largePages (CallLog.liveAfter log) = c₀.heap.dataPages := by
  have hb := (getBucketIndex_spec hpos hle).1
  obtain ⟨base, n, -, hsound, -⟩ := growsFromStart hargs hstart hb
  obtain ⟨role₀, free₀, bucket₀, hinv₀⟩ := hsound
  obtain ⟨role, free, bucket, hinv⟩ : Sound base n c := (Client.run_of_told hrun).preserves
    (fun _ _ _ hs hst => hs.step hst) ⟨role₀, free₀, bucket₀, hinv₀⟩
  obtain ⟨p, s, halloc, hnull⟩ := hinv.alloc_small_null_iff hpos hle
  have hanswer : Client.answer allocator c (.alloc size) = some p := by
    rw [Client.answer, show allocator.alloc c.heap size = some (p, s) from halloc]
    rfl
  have hblocks := hinv.length_bucket_add hb
  have hpages := hinv.pages_add_up
  rw [hanswer, Option.some_inj, hnull, ← live_eq_liveAfter hargs hstart hrun,
    ← pagesFor_eq_of_log hargs hstart hrun hb,
    ← Finset.sum_congr rfl fun b hb => pagesFor_eq_of_log hargs hstart hrun (Finset.mem_range.mp hb),
    hinv₀.geometry.pages_eq, ← List.length_eq_zero_iff, ← List.length_eq_zero_iff]
  apply and_congr
  · have hblocks' : (bucket (getBucketIndex size)).length + liveFor (getBucketIndex size) c.live =
        blocksPerPage (getBucketIndex size) * c.heap.pagesFor (getBucketIndex size) := hblocks
    omega
  · omega

end Log

/-- A client that asks for 3000 bytes, gives them back and asks for 5000. -/
def firstThree : CallLog :=
  [(.alloc 3000, some 8192), (.free 8192, none), (.alloc 5000, some 12288)]

/-- Of three pages, one was carved and two are the buffer: 40 bytes are refused, although nothing
small is live. -/
theorem small_request_refused_iff_four_pages :
    ∃ c₀ c, Start 4096 16384 c₀ ∧ Run (Client.Told allocator (· < wordSize)) c₀ firstThree c ∧
      Client.answer allocator c (.alloc 40) = some 0 := by
  have hplay : ((construct (some 4096) 16384).bind fun s =>
      (Client.play allocator (· < wordSize) ⟨s, []⟩ (firstThree.map Prod.fst)).map
        (Prod.map id Client.live)) = some (firstThree, [⟨12288, 5000⟩]) := by decide +kernel
  obtain ⟨s, c, hs, hrun, -⟩ := Client.exists_run_of_play hplay
  have hstart : Start 4096 16384 ⟨s, []⟩ := ⟨hs, rfl⟩
  refine ⟨_, c, hstart, hrun, (small_request_refused_iff args_four_pages hstart hrun
    (show 0 < 40 by decide) (show 40 ≤ maxBlockSize by decide)).mpr ?_⟩
  have hpages : s.dataPages = 3 := by
    rw [← Option.some.inj hs]
    rfl
  dsimp only
  rw [hpages]
  constructor
  · decide +kernel
  · decide +kernel

end McKusick
