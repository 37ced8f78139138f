/-
# The calls of the McKusick–Karels allocator

`alloc` and `free` return in every sound state and keep it sound, so every state a
client can reach is sound.
-/
import OSLabs.McKusickSteps

namespace McKusick

open Memory McKusickAllocator

/-! ## The public calls -/

/-- `free(nullptr)` does nothing. -/
theorem McKusickAllocator.free_null (s : McKusickAllocator) : s.free 0 = some s := by
  rw [McKusickAllocator.free, if_pos rfl]

namespace McKusickAllocator

/-- The head of a bucket is taken: the pointer that is returned and the state after that. -/
def takeHead (s : McKusickAllocator) (b : ℕ) : ℕ × McKusickAllocator :=
  (s.freelistarr b,
    { s with freelistarr := Function.update s.freelistarr b (s.mem.load64 (s.freelistarr b)) })

/-- A page is taken from the free-page list and carved for a bucket. -/
def carveHead (s : McKusickAllocator) (page b : ℕ) : McKusickAllocator :=
  ({ s with freePageInfo := (s.info page).next }).splitPage page (blockSize b)

section SmallAlloc

variable {s : McKusickAllocator} {size : ℕ}

theorem alloc_of_listed (hpos : 0 < size) (hle : size ≤ 4096)
    (hhead : s.freelistarr (getBucketIndex size) ≠ 0) :
    s.alloc size = some (s.takeHead (getBucketIndex size)) := by
  rw [McKusickAllocator.alloc, if_neg (by omega), if_pos hle]
  exact if_neg hhead

theorem alloc_of_empty (hpos : 0 < size) (hle : size ≤ 4096)
    (hhead : s.freelistarr (getBucketIndex size) = 0) :
    s.alloc size = match s.freePageInfo with
      | none => some (0, s)
      | some page =>
        some ((s.carveHead page (getBucketIndex size)).takeHead (getBucketIndex size)) := by
  rw [McKusickAllocator.alloc, if_neg (by omega), if_pos hle]
  exact if_pos hhead

end SmallAlloc

end McKusickAllocator

namespace Inv

variable {base n : ℕ} {c : Client McKusickAllocator} {role : ℕ → PageRole} {free : List ℕ}
  {bucket : ℕ → List ℕ} {m : Memory}

/-- `find_page_info` finds the page of an address in the data region. -/
theorem findPageInfo_eq (h : Inv base n c role free bucket) {i p : ℕ} (hi : i < n)
    (hlow : base + 4096 * i ≤ p) (hhigh : p < base + 4096 * i + 4096) :
    c.heap.findPageInfo p = some i := by
  have hpos := h.geometry.base_pos
  have hwrap := h.geometry.no_wrap
  obtain ⟨q, hq⟩ := h.geometry.base_aligned
  have hpage : p - p % 4096 = base + 4096 * i := by omega
  have hindex : sub64 (p - p % pageSize) c.heap.initialMemory / pageSize = i := by
    rw [show p - p % pageSize = base + 4096 * i from hpage, h.geometry.base_eq,
      sub64_of_le (by omega) (by omega), Nat.add_sub_cancel_left]
    exact Nat.mul_div_cancel_left i (by norm_num)
  rw [findPageInfo, if_neg (by omega)]
  simp only [hindex, h.geometry.pages_eq]
  rw [if_neg (by omega)]

/-- **A large request** is refused without a change when there is no run of free pages for it, or
takes the first such run. -/
theorem alloc_large (h : Inv base n c role free bucket) {size : ℕ} (hlarge : 4096 < size)
    (hword : size < 2 ^ 64) :
    (c.heap.alloc size = some (0, c.heap) ∧ ∀ g, ∃ j < (size + 4095) / 4096, g + j ∉ free) ∨
    2 ≤ getRequiredPages size ∧ ∃ pre f post info head,
      free = pre ++ (List.range' f (getRequiredPages size) ++ post) ∧ f < n ∧
      c.heap.alloc size = some (base + 4096 * f, c.heap.setPages (Function.update info f
        { info f with size := size, isStartOfBuffer := true }) head) ∧
      (∀ g ∈ pre, ∃ j < getRequiredPages size, g + j ∉ free) ∧
      (c.heap.setPages info head).FreeList n (pre ++ post) ∧
      (∀ i, i ∉ free → info i = c.heap.info i) ∧
      (∀ i, f ≤ i → i < f + getRequiredPages size →
        (info i).data = ((c.heap.info i).pageAddr, (c.heap.info i).size, decide (i = f))) ∧
      ∀ i, ¬ (f ≤ i ∧ i < f + getRequiredPages size) →
        (info i).data = (c.heap.info i).data := by
  rw [McKusickAllocator.alloc, if_neg (by omega), if_neg (not_le.mpr hlarge)]
  by_cases hk : getRequiredPages size = 0
  · left
    constructor
    · rw [hk, findConsecutivePages, if_pos rfl]
      rfl
    · -- rounding up wraps only for more pages than there are
      intro g
      have hwrap : ¬ size + 4095 < 2 ^ 64 := fun hno => by
        rw [getRequiredPages_of_no_wrap hno] at hk
        omega
      have hspace := h.geometry.no_wrap
      have hbase := h.geometry.base_pos
      refine ⟨(size + 4095) / 4096 - 1, by omega, fun hmem => ?_⟩
      have hbound := h.freeList.bound _ hmem
      omega
  have htwo := two_le_getRequiredPages hword hlarge hk
  have hceil := getRequiredPages_eq_ceil hword hk
  rcases findConsecutivePages_spec h.layout h.freeList htwo with
    ⟨hnone, hno⟩ | ⟨pre, f, post, info, head, hfree, hsome, hfirst, hF, hsame, hrun, hrest⟩
  · left
    constructor
    · rw [hnone]
      rfl
    · intro g
      by_cases hg : g ∈ free
      · rw [← hceil]
        exact hno g hg
      · exact ⟨0, by omega, hg⟩
  · have hfn : f < n := by
      refine ((h.mem_free f).mp ?_).1
      rw [hfree]
      exact List.mem_append_right _ (List.mem_append_left _ (by
        rw [List.mem_range'_1]
        omega))
    have haddr : (info f).pageAddr = base + 4096 * f := by
      have hd := congrArg Prod.fst (hrun f le_rfl (by omega))
      exact hd.trans (h.roleOk f hfn).pageAddr
    refine Or.inr ⟨htwo, pre, f, post, info, head, hfree, hfn, ?_, hfirst, hF, hsame, hrun, hrest⟩
    rw [hsome]
    simp only [Option.bind_eq_bind, Option.bind_some, setPages_info, Function.update_self, haddr]
    rfl

/-- No byte of a live allocation lies in a free page. -/
theorem not_covers_of_free (h : Inv base n c role free bucket) {f : ℕ} (hrole : role f = .free)
    {x : Allocation} (hx : x ∈ c.live) {y : ℕ} (hy : x.Covers y) :
    y < base + 4096 * f ∨ base + 4096 * f + 4096 ≤ y := by
  obtain ⟨hlow, hhigh⟩ := hy
  rcases h.liveOk x hx with ⟨hle, hpos, i, hi, hr, ha⟩ | ⟨hlarge, g, hg, hptr, hr⟩
  · have hspec := getBucketIndex_spec hpos hle
    have hbounds := blocksFrom_bounds hspec.1 ha
    have hif : i ≠ f := by
      rintro rfl
      rw [hrole] at hr
      cases hr
    omega
  · obtain ⟨⟨-, hword⟩, -, -, -, -, hall⟩ := (h.roleOk g hg).of_buffer hr
    have hfit : g + getRequiredPages x.size ≤ n := ((h.roleOk g hg).of_buffer hr).2.2.1
    have hpages := ((h.roleOk g hg).of_buffer hr).2.1.2
    have hbounds := getRequiredPages_bounds hword (by omega)
    have hout : ¬ (g ≤ f ∧ f < g + getRequiredPages x.size) := by
      intro hin
      have hf := hall f hin.1 hin.2
      rw [hrole] at hf
      cases hf
    omega

/-- **A link of a free list is the same for both twins.** -/
theorem load64_eq (h : Inv base n c role free bucket)
    (h' : Inv base n ⟨c.heap.withMem m, c.live⟩ role free bucket) {b a : ℕ} (hb : b < 8)
    (ha : a ∈ bucket b) : m.load64 a = c.heap.mem.load64 a :=
  toPtr_inj ((h'.chain b hb).links_eq (h.chain b hb) a ha)

/-- Both twins take the head of a bucket. -/
theorem takeHead_twin (h : Inv base n c role free bucket)
    (h' : Inv base n ⟨c.heap.withMem m, c.live⟩ role free bucket) {size a : ℕ} {rest : List ℕ}
    (hpos : 0 < size) (hle : size ≤ 4096) (hbucket : bucket (getBucketIndex size) = a :: rest) :
    0 < a ∧ ∃ s, c.heap.takeHead (getBucketIndex size) = (a, s) ∧
      (c.heap.withMem m).takeHead (getBucketIndex size) = (a, s.withMem m) ∧
      s.mem = c.heap.mem ∧ ∃ bucket', Inv base n ⟨s, ⟨a, size⟩ :: c.live⟩ role free bucket' ∧
        Inv base n ⟨s.withMem m, ⟨a, size⟩ :: c.live⟩ role free bucket' := by
  obtain ⟨hhead, hapos, hinv⟩ := h.take hpos hle hbucket
  obtain ⟨-, -, hinv'⟩ := h'.take hpos hle hbucket
  have hload : m.load64 a = c.heap.mem.load64 a :=
    h.load64_eq h' (getBucketIndex_spec hpos hle).1 (by rw [hbucket]; exact List.mem_cons_self)
  refine ⟨hapos, (c.heap.takeHead (getBucketIndex size)).2, Prod.ext hhead rfl, ?_, rfl,
    Function.update bucket (getBucketIndex size) rest, ?_, ?_⟩
  · unfold takeHead
    dsimp only
    rw [hhead, hload]
  · unfold takeHead
    rw [hhead]
    exact hinv
  · unfold takeHead
    rw [hhead, ← hload]
    exact hinv'

/-- A request to `c` and to its twin over the bytes `m`: it is refused and changes nothing, or returns
a fresh allocation; it changes no byte of a live allocation, and the twin answers the same and stays
a twin. -/
def TwinAlloc (base n : ℕ) (c : Client McKusickAllocator) (m : Memory) (size : ℕ) : Prop :=
  ∃ p s m', c.heap.alloc size = some (p, s) ∧
    (c.heap.withMem m).alloc size = some (p, s.withMem m') ∧
    (∀ x ∈ c.live, ∀ y, x.Covers y → s.mem y = c.heap.mem y) ∧
    ((p = 0 ∧ s = c.heap ∧ m' = m) ∨ (p ≠ 0 ∧ ∃ role' free' bucket',
      Inv base n ⟨s, ⟨p, size⟩ :: c.live⟩ role' free' bucket' ∧
      Inv base n ⟨s.withMem m', ⟨p, size⟩ :: c.live⟩ role' free' bucket'))

/-- A request that both refuse. -/
theorem twinAlloc_refused {size : ℕ} (halloc : c.heap.alloc size = some (0, c.heap))
    (halloc' : (c.heap.withMem m).alloc size = some (0, c.heap.withMem m)) :
    TwinAlloc base n c m size :=
  ⟨0, c.heap, m, halloc, halloc', fun _ _ _ _ => rfl, Or.inl ⟨rfl, rfl, rfl⟩⟩

/-- A small request whose bucket has a block takes it. -/
theorem alloc_listed_twin (h : Inv base n c role free bucket)
    (h' : Inv base n ⟨c.heap.withMem m, c.live⟩ role free bucket) {size a : ℕ} {rest : List ℕ}
    (hpos : 0 < size) (hle : size ≤ 4096) (hbucket : bucket (getBucketIndex size) = a :: rest) :
    TwinAlloc base n c m size := by
  obtain ⟨hapos, s, htake, htake', hmem, bucket', hinv, hinv'⟩ := h.takeHead_twin h' hpos hle hbucket
  have hhead : c.heap.freelistarr (getBucketIndex size) = a := congrArg Prod.fst htake
  refine ⟨a, s, m, ?_, ?_, fun x hx y hy => by rw [hmem],
    Or.inr ⟨Nat.ne_of_gt hapos, role, free, bucket', hinv, hinv'⟩⟩
  · rw [alloc_of_listed hpos hle (by rw [hhead]; exact Nat.ne_of_gt hapos), htake]
  · rw [alloc_of_listed hpos hle (by rw [← hhead] at hapos; exact Nat.ne_of_gt hapos), htake']

/-- A small request whose bucket is empty has the first free page carved, if there is one. -/
theorem alloc_empty_twin (h : Inv base n c role free bucket)
    (h' : Inv base n ⟨c.heap.withMem m, c.live⟩ role free bucket) {size : ℕ} (hpos : 0 < size)
    (hle : size ≤ 4096) (hbucket : bucket (getBucketIndex size) = []) :
    TwinAlloc base n c m size := by
  have hb : getBucketIndex size < 8 := (getBucketIndex_spec hpos hle).1
  have hbase := h.geometry.base_pos
  have hchain := h.chain _ hb
  rw [hbucket] at hchain
  have hhead : c.heap.freelistarr (getBucketIndex size) = 0 := toPtr_eq_none_iff.mp hchain
  have halloc := alloc_of_empty hpos hle hhead
  have halloc' := alloc_of_empty (s := c.heap.withMem m) hpos hle hhead
  dsimp only at halloc'
  have hF := h.freeList.chain
  cases hfl : free with
  | nil =>
      rw [hfl] at hF
      have hnull : c.heap.freePageInfo = none := hF
      rw [hnull] at halloc halloc'
      exact twinAlloc_refused halloc halloc'
  | cons f rest =>
      rw [hfl] at hF
      rw [hF.1] at halloc halloc'
      have hcarve : Inv base n ⟨c.heap.carveHead f (getBucketIndex size), c.live⟩ _ _ _ :=
        h.carve hfl hb hbucket
      have hcarve' : Inv base n ⟨(c.heap.carveHead f (getBucketIndex size)).withMem
          ((c.heap.withMem m).carveHead f (getBucketIndex size)).mem, c.live⟩ _ _ _ :=
        h'.carve hfl hb hbucket
      obtain ⟨k, hk, -⟩ := exists_blocksPerPage hb
      have hblocks : Function.update bucket (getBucketIndex size)
          (blocksFrom (base + 4096 * f) (getBucketIndex size)) (getBucketIndex size)
          = (base + 4096 * f) :: List.range' (base + 4096 * f +
              blockSize (getBucketIndex size)) k (blockSize (getBucketIndex size)) := by
        rw [Function.update_self, blocksFrom, hk, List.range'_succ]
      obtain ⟨hapos, s, htake, htake', hmem, bucket', hinv, hinv'⟩ :=
        hcarve.takeHead_twin hcarve' hpos hle hblocks
      refine ⟨base + 4096 * f, s, _, halloc.trans (congrArg some htake),
        halloc'.trans (congrArg some htake'), fun x hx y hy => ?_,
        Or.inr ⟨Nat.ne_of_gt hapos, _, _, bucket', hinv, hinv'⟩⟩
      -- The links are written into a page that was free, so no live byte lies there.
      obtain ⟨hf, hrole⟩ := (h.mem_free f).mp (by rw [hfl]; exact List.mem_cons_self)
      have hwrap := h.geometry.no_wrap
      rw [hmem]
      exact splitPage_mem_outside hb (h.roleOk f hf).pageAddr (by omega) (by omega)
        (h.not_covers_of_free hrole hx hy)

/-- **What a call of `alloc` may do** in an invariant state. -/
theorem alloc_twin (h : Inv base n c role free bucket)
    (h' : Inv base n ⟨c.heap.withMem m, c.live⟩ role free bucket) {size : ℕ}
    (hword : size < 2 ^ 64) : TwinAlloc base n c m size := by
  have hbase := h.geometry.base_pos
  by_cases hzero : size = 0
  · apply twinAlloc_refused
    · rw [McKusickAllocator.alloc, if_pos hzero]
    · rw [McKusickAllocator.alloc, if_pos hzero]
  have hpos : 0 < size := Nat.pos_of_ne_zero hzero
  by_cases hle : size ≤ 4096
  · cases hbl : bucket (getBucketIndex size) with
    | cons a rest => exact h.alloc_listed_twin h' hpos hle hbl
    | nil => exact h.alloc_empty_twin h' hpos hle hbl
  · rcases h.alloc_large (by omega) hword with
      ⟨hnone, -⟩ | ⟨htwo, pre, f, post, info, head, hfree, hfn, hsome, -, hF, -, hrun, hrest⟩
    · exact twinAlloc_refused hnone (alloc_large_withMem m (by omega) hnone)
    · -- A large request neither reads nor writes the pages it hands out.
      exact ⟨base + 4096 * f, _, m, hsome, alloc_large_withMem m (by omega) hsome,
        fun x hx y hy => rfl, Or.inr ⟨by omega, _, _, _,
          h.takeRun (by omega) hword htwo hfree hF hrun hrest,
          h'.takeRun (by omega) hword htwo hfree ⟨hF.chain, hF.sorted, hF.bound⟩ hrun hrest⟩⟩

/-- A call of `alloc` returns, and refuses or keeps the invariant. -/
theorem alloc (h : Inv base n c role free bucket) {size : ℕ} (hword : size < 2 ^ 64) :
    ∃ p s', c.heap.alloc size = some (p, s') ∧
      ((p = 0 ∧ s' = c.heap) ∨
        (p ≠ 0 ∧ ∃ role' free' bucket', Inv base n ⟨s', ⟨p, size⟩ :: c.live⟩ role' free' bucket')) := by
  obtain ⟨p, s, m', halloc, -, -, hcase⟩ := h.alloc_twin h hword
  refine ⟨p, s, halloc, ?_⟩
  rcases hcase with ⟨hp, hs, -⟩ | ⟨hp, role', free', bucket', hinv, -⟩
  · exact Or.inl ⟨hp, hs⟩
  · exact Or.inr ⟨hp, role', free', bucket', hinv⟩

/-- **`free` of a live large buffer** returns, and puts its pages back into the free list. -/
theorem free_large (h : Inv base n c role free bucket) {x : Allocation} (hx : x ∈ c.live)
    (hlarge : 4096 < x.size) :
    ∃ f info head free', x.ptr = base + 4096 * f ∧
      (∀ i ∈ List.range' f (getRequiredPages x.size), i < n ∧ role i = .buffer f x.size) ∧
      c.heap.free x.ptr = some (c.heap.setPages info head) ∧
      (c.heap.setPages info head).FreeList n free' ∧
      free'.Perm (List.range' f (getRequiredPages x.size) ++ free) ∧
      (∀ i ∈ List.range' f (getRequiredPages x.size),
        (info i).data = ((c.heap.info i).pageAddr, 0, false)) ∧
      (∀ i, i ∉ List.range' f (getRequiredPages x.size) →
        (info i).data = (c.heap.info i).data) ∧
      ∀ i, i ∉ List.range' f (getRequiredPages x.size) ++ free → info i = c.heap.info i := by
  have hbase := h.geometry.base_pos
  obtain ⟨f, hf, hptr, hrole, hpages, hfit, hall⟩ := h.exists_buffer hx hlarge
  obtain ⟨-, -, -, -, hdata, -⟩ := (h.roleOk f hf).of_buffer hrole
  simp only [PageInfo.data, if_pos, decide_true, Prod.mk.injEq] at hdata
  have hmemrun : ∀ i ∈ List.range' f (getRequiredPages x.size),
      i < n ∧ role i = .buffer f x.size := by
    intro i hi
    rw [List.mem_range'_1] at hi
    exact ⟨by omega, hall i hi.1 hi.2⟩
  have hnot : ∀ i ∈ List.range' f (getRequiredPages x.size), i ∉ free := by
    intro i hi hmem
    have hr := ((h.mem_free i).mp hmem).2
    rw [(hmemrun i hi).2] at hr
    cases hr
  obtain ⟨info, head, free', heq, hF, hperm, hrun, hrest, hsame⟩ :=
    releasePages_spec h.layout h.freeList hfit hnot
  refine ⟨f, info, head, free', hptr, hmemrun, ?_, hF, hperm, hrun, hrest, hsame⟩
  rw [McKusickAllocator.free, if_neg (by omega), h.findPageInfo_eq hf (by omega) (by omega)]
  simp only [hdata.2.1, hdata.2.2, if_pos]
  rw [if_neg (not_le.mpr hlarge), heq]

/-- **What `free` of a live pointer does**: it returns and keeps the invariant, it changes no byte
of another live allocation, and a twin over other bytes stays a twin. -/
theorem free_twin (h : Inv base n c role free bucket)
    (h' : Inv base n ⟨c.heap.withMem m, c.live⟩ role free bucket) {x : Allocation}
    (hx : x ∈ c.live) :
    ∃ s m', c.heap.free x.ptr = some s ∧ (c.heap.withMem m).free x.ptr = some (s.withMem m') ∧
      (∀ z ∈ c.live, z.ptr ≠ x.ptr → ∀ y, z.Covers y → s.mem y = c.heap.mem y) ∧
      ∃ role' free' bucket', Inv base n ⟨s, c.live.erase x⟩ role' free' bucket' ∧
        Inv base n ⟨s.withMem m', c.live.erase x⟩ role' free' bucket' := by
  have hbase := h.geometry.base_pos
  by_cases hlarge : 4096 < x.size
  · obtain ⟨f, info, head, free', hptr, hpages, heq, hF, hperm, hrun, hrest, -⟩ :=
      h.free_large hx hlarge
    obtain ⟨g, hg, hptr', hrole, -⟩ := h.exists_buffer hx hlarge
    have hdata := ((h.roleOk g hg).of_buffer hrole).2.2.2.2.1
    simp only [PageInfo.data, if_pos, decide_true, Prod.mk.injEq] at hdata
    have heq' := free_large_withMem m (h.findPageInfo_eq hg (p := x.ptr) (by omega) (by omega))
      (by rw [hdata.2.1]; exact hlarge) heq
    exact ⟨_, m, heq, heq', fun z hz hne y hy => rfl, _, _, _,
      h.putRun hx hlarge hptr hF hperm hrun hrest,
      h'.putRun hx hlarge hptr ⟨hF.chain, hF.sorted, hF.bound⟩ hperm hrun hrest⟩
  · have hle : x.size ≤ 4096 := by omega
    rcases h.liveOk x hx with ⟨-, hpos, i, hi, hrole, ha⟩ | ⟨hl, -⟩
    · have hb := (getBucketIndex_spec hpos hle).1
      have hbounds := blocksFrom_bounds hb ha
      have hbs := le_blockSize (getBucketIndex x.size)
      have hdata := ((h.roleOk i hi).of_carved hrole).2
      simp only [PageInfo.data, Prod.mk.injEq] at hdata
      have hsize : blockSize (getBucketIndex x.size) ≤ 4096 :=
        Nat.le_of_dvd (by norm_num) (blockSize_dvd_pageSize hb)
      have hfree : ∀ m' : Memory, (c.heap.withMem m').free x.ptr = some
          { c.heap.withMem m' with
            mem := m'.store64 x.ptr (c.heap.freelistarr (getBucketIndex x.size))
            freelistarr := Function.update c.heap.freelistarr (getBucketIndex x.size) x.ptr } := by
        intro m'
        have hpage : (c.heap.withMem m').findPageInfo x.ptr = some i :=
          h.findPageInfo_eq hi (by omega) (by omega)
        rw [McKusickAllocator.free, if_neg (by omega), hpage]
        simp only [hdata.2.1]
        rw [if_pos hsize]
        simp only [getBucketIndex_blockSize hb]
      refine ⟨_, _, hfree c.heap.mem, hfree m, fun z hz hne y hy => ?_, _, _, _,
        h.putBlock hx hle, h'.putBlock hx hle⟩
      -- the link is written into the block that is given back
      obtain ⟨len, hext, hlen, -⟩ := h.extent_of_live hz
      have hapart := hext.apart (.block hb ⟨i, hi, hrole, ha⟩) hne
      obtain ⟨hlow, hhigh⟩ := hy
      exact store64_outside _ (by omega)
    · omega

/-- `free` of a live pointer returns and keeps the invariant. -/
theorem free_live (h : Inv base n c role free bucket) {x : Allocation} (hx : x ∈ c.live) :
    ∃ s' role' free' bucket', c.heap.free x.ptr = some s' ∧
      Inv base n ⟨s', c.live.erase x⟩ role' free' bucket' := by
  obtain ⟨s, m', hfree, -, -, role', free', bucket', hinv, -⟩ := h.free_twin h hx
  exact ⟨s, role', free', bucket', hfree, hinv⟩

end Inv

/-! ## Runs -/

/-- Some roles and lists satisfy the invariant. -/
def Sound (base n : ℕ) (c : Client McKusickAllocator) : Prop :=
  ∃ role free bucket, Inv base n c role free bucket

/-- **Every step of a client keeps the allocator sound.** -/
theorem Sound.step {base n : ℕ} {c c' : Client McKusickAllocator} {e : HeapEvent}
    (h : Sound base n c) (hst : Step c e c') : Sound base n c' := by
  obtain ⟨role, free, bucket, hinv⟩ := h
  cases hst with
  | allocNull hword halloc =>
      obtain ⟨p, s', heq, hcase⟩ := hinv.alloc hword
      rw [show allocator.alloc c.heap _ = c.heap.alloc _ from rfl, heq] at halloc
      cases halloc
      rcases hcase with ⟨-, rfl⟩ | ⟨hne, -⟩
      · exact ⟨role, free, bucket, hinv⟩
      · exact absurd rfl hne
  | allocSome hword hp halloc =>
      obtain ⟨p, s', heq, hcase⟩ := hinv.alloc hword
      rw [show allocator.alloc c.heap _ = c.heap.alloc _ from rfl, heq] at halloc
      cases halloc
      rcases hcase with ⟨rfl, -⟩ | ⟨-, hinv'⟩
      · exact absurd rfl hp
      · exact hinv'
  | freeNull hfree =>
      rw [show allocator.free c.heap 0 = c.heap.free 0 from rfl, free_null] at hfree
      cases hfree
      exact ⟨role, free, bucket, hinv⟩
  | freeLive hx hfree =>
      obtain ⟨s', role', free', bucket', heq, hinv'⟩ := hinv.free_live hx
      rw [show allocator.free c.heap _ = c.heap.free _ from rfl, heq] at hfree
      cases hfree
      exact ⟨role', free', bucket', hinv'⟩
  | write hx hy => exact ⟨role, free, bucket, hinv.write hx hy⟩

/-- The hypotheses on the arguments of the constructor: a `size_t` of more than one
page for which `mmap` returned the region at `memory`. -/
structure Args (memory memorySize : ℕ) : Prop where
  word : memorySize < 2 ^ 64
  large : pageSize < memorySize
  mapping : IsMapping memory (requestedPages memorySize * pageSize)

/-- **Every reachable state is sound.** -/
theorem sound_of_reachable {memory memorySize : ℕ} (hargs : Args memory memorySize)
    {c : Client McKusickAllocator} (h : Reachable (Start memory memorySize) Step c) :
    ∃ base n, 0 < n ∧ Sound base n c := by
  refine h.invariant (I := fun c => ∃ base n, 0 < n ∧ Sound base n c) ?_ ?_
  · rintro ⟨s, live⟩ ⟨hs, rfl⟩
    obtain ⟨base, n, hn, hinv⟩ := inv_of_construct hargs.word hargs.large hargs.mapping hs
    exact ⟨base, n, hn, _, _, _, hinv⟩
  · rintro c e c' ⟨base, n, hn, hsound⟩ hst
    exact ⟨base, n, hn, hsound.step hst⟩

end McKusick
