/-
# The elementary steps of the McKusick–Karels allocator

The constructor establishes `Inv`; taking a block, carving a page, taking a run of
pages, giving back a block or a buffer and writing into live bytes keep it.
-/
import OSLabs.McKusickInvariant

namespace McKusick

open Memory McKusickAllocator

/-! ## The constructor -/

/-- The first loop of the constructor fills the first `m` records. -/
theorem initPages_apply (p m i : ℕ) (info : ℕ → PageInfo) :
    initPages p m info i =
      if i < m then
        { info i with pageAddr := p + i * pageSize, size := 0, isStartOfBuffer := false }
      else info i := by
  induction m with
  | zero => simp [initPages]
  | succ m ih =>
      rw [initPages]
      by_cases him : i = m
      · subst him
        rw [Function.update_self, ih, if_neg (lt_irrefl i), if_pos (Nat.lt_succ_self i)]
      · rw [Function.update_of_ne him, ih]
        by_cases hlt : i < m
        · rw [if_pos hlt, if_pos (by omega)]
        · rw [if_neg hlt, if_neg (by omega)]

/-- The second loop of the constructor links each of the first `m` records to the next. -/
theorem links_chainPages (m i : ℕ) (info : ℕ → PageInfo) :
    links (chainPages m info) i = if i < m then some (i + 1) else links info i := by
  induction m with
  | zero => simp [chainPages]
  | succ m ih =>
      rw [chainPages, links_setNext]
      by_cases him : i = m
      · subst him
        rw [Function.update_self, if_pos (Nat.lt_succ_self i)]
      · rw [Function.update_of_ne him, ih]
        by_cases hlt : i < m
        · rw [if_pos hlt, if_pos (by omega)]
        · rw [if_neg hlt, if_neg (by omega)]

theorem data_chainPages (m i : ℕ) (info : ℕ → PageInfo) :
    (chainPages m info i).data = (info i).data := by
  induction m with
  | zero => rfl
  | succ m ih => rw [chainPages, data_setNext, ih]

/-- Records linked each to the next form a chain. -/
theorem linked_range' {next : ℕ → Option ℕ} {m : ℕ} (a : ℕ)
    (h : ∀ i, a ≤ i → i < a + m → next i = some (i + 1)) :
    Linked next (some a) (List.range' a m) (some (a + m)) := by
  induction m generalizing a with
  | zero => rfl
  | succ m ih =>
      rw [List.range'_succ]
      refine ⟨rfl, ?_⟩
      rw [h a le_rfl (by omega), show a + (m + 1) = a + 1 + m by omega]
      exact ih (a + 1) fun i h₁ h₂ => h i (by omega) (by omega)

/-- **The constructor establishes the invariant**: all data pages are free. -/
theorem inv_of_construct {memory memorySize : ℕ} {s : McKusickAllocator}
    (hword : memorySize < 2 ^ 64) (hlarge : 4096 < memorySize)
    (hmap : IsMapping memory (requestedPages memorySize * pageSize))
    (hs : construct (some memory) memorySize = some s) :
    ∃ base n, 0 < n ∧ Inv base n ⟨s, []⟩ (fun _ => .free) (List.range n) (fun _ => []) := by
  have hmap_pos := hmap.len_pos
  have hmap_null := hmap.ne_null
  have hmap_al := hmap.aligned
  have hmap_wrap := hmap.no_wrap
  set t := requestedPages memorySize with ht
  have ht2 : 2 ≤ t := two_le_requestedPages hword hlarge (by
    rw [← ht]
    exact Nat.pos_of_mul_pos_right hmap_pos)
  have htop : t < 2 ^ 64 := by
    simp only [pageSize] at hmap_wrap
    omega
  set m := metaPages t with hm
  have hmt : m < t := metaPages_lt ht2
  have hmroom : t * 32 ≤ m * 4096 := sizeofPageInfo_mul_le t
  have hcount : sub64 t m = t - m := sub64_of_le hmt.le htop
  have hlast : sub64 (t - m) 1 = t - m - 1 := sub64_of_le (by omega) (by omega)
  rw [construct] at hs
  simp only [← ht, ← hm, hcount, hlast, Option.bind_eq_bind, Option.bind_some,
    Option.some_inj] at hs
  simp only [pageSize] at hmap_al hmap_wrap
  subst hs
  have hdata : ∀ i < t - m, ((setNext (chainPages (t - m - 1)
      (initPages (memory + 4096 * m) (t - m) fun _ => ⟨0, 0, none, false⟩)) (t - m - 1) none)
        i).data = (memory + 4096 * m + 4096 * i, 0, false) := by
    intro i hi
    rw [data_setNext, data_chainPages, initPages_apply, if_pos hi]
    simp only [PageInfo.data, pageSize, Nat.mul_comm i]
  refine ⟨memory + 4096 * m, t - m, by omega,
    ⟨rfl, hcount, by omega, ?_, by omega, ?_, ?_⟩, ⟨?_, ?_, ?_⟩, ?_, ?_, ?_, ?_, ?_, ?_, ?_⟩
  · exact Nat.dvd_add hmap_al (Nat.dvd_mul_right _ _)
  · show t - m ≤ t
    omega
  · show memory + 32 * (t - m) ≤ memory + 4096 * m
    omega
  · -- the chain is complete once `next` of the last page is cleared
    show Linked _ (some 0) (List.range (t - m)) none
    obtain ⟨k, hk⟩ : ∃ k, t - m = k + 1 := ⟨t - m - 1, by omega⟩
    simp only [hk, Nat.add_sub_cancel, links_setNext]
    rw [List.range_succ, List.range_eq_range']
    have hchain : Linked (links (chainPages k (initPages (memory + 4096 * m) (k + 1)
        fun _ => ⟨0, 0, none, false⟩))) (some 0) (List.range' 0 k) (some (0 + k)) :=
      linked_range' 0 fun i _ hi => by rw [links_chainPages, if_pos (by omega)]
    refine Linked.append_iff.mpr ⟨some k, ?_, rfl, Function.update_self _ _ _⟩
    rw [Nat.zero_add] at hchain
    exact hchain.update_of_notMem (by simp [List.mem_range'_1])
  · exact List.pairwise_lt_range
  · exact fun i hi => List.mem_range.mp hi
  · simp
  · exact fun i hi => hdata i hi
  · exact fun b _ => rfl
  · exact fun b _ a ha => absurd ha List.not_mem_nil
  · exact List.nodup_nil
  · exact fun x hx => absurd hx List.not_mem_nil
  · -- no page is carved yet
    rintro b a ⟨i, -, hrole, -⟩
    cases hrole

/-! ## Roles under change -/

section Congr

variable {base n i : ℕ} {role role' : ℕ → PageRole} {info info' : ℕ → PageInfo}
  {live live' : List Allocation}

/-- The condition of a page carries over when its role, its data and its buffer are kept. -/
theorem RoleOk.congr (h : RoleOk base n role info live i) (hrole : role' i = role i)
    (hrun : ∀ f m, role i = .buffer f m → ∀ j, role j = .buffer f m → role' j = .buffer f m)
    (hdata : (info' i).data = (info i).data)
    (hlive : ∀ f m, role i = .buffer f m → ⟨base + 4096 * f, m⟩ ∈ live →
      ⟨base + 4096 * f, m⟩ ∈ live') : RoleOk base n role' info' live' i := by
  rw [RoleOk, hrole]
  cases hi : role i with
  | free =>
      simp only
      rw [hdata]
      exact h.of_free hi
  | carved b =>
      simp only
      rw [hdata]
      exact h.of_carved hi
  | buffer f m =>
      obtain ⟨hm, hin, hfit, hmem, hd, hall⟩ := h.of_buffer hi
      show _ ∧ _
      rw [hdata]
      exact ⟨hm, hin, hfit, hlive f m hi hmem, hd,
        fun j h₁ h₂ => hrun f m hi j (hall j h₁ h₂)⟩

/-- The blocks are those of the carved pages. -/
theorem isBlock_congr (h : ∀ i b, role' i = .carved b ↔ role i = .carved b) {b a : ℕ} :
    IsBlock base n role' b a ↔ IsBlock base n role b a := by
  unfold IsBlock
  simp only [h]

/-- A live allocation is placed as before when the blocks stay blocks and its buffer keeps its
role. -/
theorem LiveOk.congr {x : Allocation} (h : LiveOk base n role x)
    (hblock : ∀ b a, IsBlock base n role b a → IsBlock base n role' b a)
    (hbuffer : ∀ f, x.ptr = base + 4096 * f → role f = .buffer f x.size →
      role' f = .buffer f x.size) : LiveOk base n role' x := by
  rcases h with ⟨hle, hpos, hold⟩ | ⟨hlarge, f, hf, hptr, hr⟩
  · exact Or.inl ⟨hle, hpos, hblock _ _ hold⟩
  · exact Or.inr ⟨hlarge, f, hf, hptr, hbuffer f hptr hr⟩

end Congr

/-- The links of `split_page` are links of blocks, not of pages. -/
theorem links_splitPage (s : McKusickAllocator) (page size : ℕ) :
    links (s.splitPage page size).info = links s.info := by
  funext i
  by_cases hi : i = page
  · subst hi
    simp [splitPage]
  · simp [splitPage, Function.update_of_ne hi]

/-- What is left of a list without repetitions after a segment has been cut out. -/
theorem mem_cut {pre run post : List ℕ} (hnd : (pre ++ (run ++ post)).Nodup) {i : ℕ} :
    i ∈ pre ++ post ↔ i ∈ pre ++ (run ++ post) ∧ i ∉ run := by
  obtain ⟨-, hrest, hpre⟩ := List.nodup_append.mp hnd
  obtain ⟨-, -, hpost⟩ := List.nodup_append.mp hrest
  rw [List.mem_append, List.mem_append, List.mem_append]
  constructor
  · rintro (hi | hi)
    · exact ⟨Or.inl hi, fun hrun => hpre i hi i (List.mem_append_left _ hrun) rfl⟩
    · exact ⟨Or.inr (Or.inr hi), fun hrun => hpost i hrun i hi rfl⟩
  · rintro ⟨hi | hi | hi, hrun⟩
    · exact Or.inl hi
    · exact absurd hi hrun
    · exact Or.inr hi

namespace Inv

variable {base n : ℕ} {c : Client McKusickAllocator} {role : ℕ → PageRole} {free : List ℕ}
  {bucket : ℕ → List ℕ}

/-- No live allocation starts in a free page. -/
theorem not_live_of_free (h : Inv base n c role free bucket) {i p : ℕ}
    (hrole : role i = .free) (hlow : base + 4096 * i ≤ p) (hhigh : p < base + 4096 * i + 4096) :
    p ∉ c.live.map Allocation.ptr := by
  intro hp
  obtain ⟨x, hx, rfl⟩ := List.mem_map.mp hp
  rcases h.liveOk x hx with ⟨hle, hpos, j, hj, hrole', ha⟩ | ⟨-, f, hf, hptr, hrole'⟩
  · have hbounds := blocksFrom_bounds (getBucketIndex_spec hpos hle).1 ha
    have hbs := le_blockSize (getBucketIndex x.size)
    have hij : i = j := by omega
    rw [← hij, hrole] at hrole'
    cases hrole'
  · have hif : i = f := by omega
    rw [← hif, hrole] at hrole'
    cases hrole'

/-- A bucket head is a 64-bit address. -/
theorem freelistarr_lt (h : Inv base n c role free bucket) {b : ℕ} (hb : b < 8) :
    c.heap.freelistarr b < 2 ^ 64 := by
  have hchain := h.chain b hb
  cases hbl : bucket b with
  | nil =>
      rw [hbl] at hchain
      rw [toPtr_eq_none_iff.mp hchain]
      norm_num
  | cons a rest =>
      rw [hbl] at hchain
      have hhead := (toPtr_eq_some_iff.mp hchain.1).1
      have hext := (h.extent_of_bucket hb (by rw [hbl]; exact List.mem_cons_self)).1
      have hwithin := hext.within
      have hbs := le_blockSize b
      have hwrap := h.geometry.no_wrap
      omega

/-- The word of a free block misses every extent that starts elsewhere. -/
theorem word_apart (h : Inv base n c role free bucket) {b a p len : ℕ} (hb : b < 8)
    (ha : a ∈ bucket b) (hext : Extent base n role p len) (hne : a ≠ p) :
    a + 8 ≤ p ∨ p + len ≤ a := by
  have hbs := le_blockSize b
  rcases (h.extent_of_bucket hb ha).1.apart hext hne with hd | hd
  · exact Or.inl (by omega)
  · exact Or.inr hd

/-- A listed block lies in no page that is not carved. -/
theorem listed_outside (h : Inv base n c role free bucket) {f b a : ℕ}
    (hrole : ∀ b, role f ≠ .carved b) (hb : b < 8) (ha : a ∈ bucket b) :
    a + 8 ≤ base + 4096 * f ∨ base + 4096 * f + 4096 ≤ a := by
  obtain ⟨i, hi, hr, hin⟩ := h.isBlock b hb a ha
  have hbounds := blocksFrom_bounds hb hin
  have hbs := le_blockSize b
  have hif : i ≠ f := by
    rintro rfl
    exact hrole b hr
  omega

/-- No block starts where a page starts that is not carved. -/
theorem ne_page_of_isBlock (h : Inv base n c role free bucket) {f b a : ℕ}
    (hrole : ∀ b, role f ≠ .carved b) (hblock : IsBlock base n role b a) :
    a ≠ base + 4096 * f := by
  have hb := h.bucket_lt hblock
  obtain ⟨i, hi, hr, hin⟩ := hblock
  have hbounds := blocksFrom_bounds hb hin
  have hbs := le_blockSize b
  have hif : i ≠ f := by
    rintro rfl
    exact hrole b hr
  omega

/-! ## Taking a block -/

/-- **Taking the first block of a bucket keeps the invariant.** -/
theorem take (h : Inv base n c role free bucket) {size a : ℕ} {rest : List ℕ} (hpos : 0 < size)
    (hle : size ≤ 4096) (hbucket : bucket (getBucketIndex size) = a :: rest) :
    c.heap.freelistarr (getBucketIndex size) = a ∧ 0 < a ∧
    Inv base n
      ⟨{ c.heap with
          freelistarr := Function.update c.heap.freelistarr (getBucketIndex size)
            (c.heap.mem.load64 a) }, ⟨a, size⟩ :: c.live⟩
      role free (Function.update bucket (getBucketIndex size) rest) := by
  set b := getBucketIndex size with hbdef
  have hb : b < 8 := (getBucketIndex_spec hpos hle).1
  have hchain := h.chain b hb
  rw [hbucket] at hchain
  obtain ⟨hhead, hrest⟩ := hchain
  obtain ⟨hhead, hapos⟩ := toPtr_eq_some_iff.mp hhead
  have hamem : a ∈ bucket b := by rw [hbucket]; exact List.mem_cons_self
  have hblock := h.isBlock b hb a hamem
  have hnot : a ∉ c.live.map Allocation.ptr := (h.account b a hblock).mp hamem
  have hnd := (h.chain b hb).nodup
  rw [hbucket] at hnd
  refine ⟨hhead, hapos, ⟨?_, ?_, h.mem_free, ?_, ?_, ?_, ?_, ?_, ?_⟩⟩
  · exact h.geometry.congr rfl rfl rfl rfl
  · exact ⟨h.freeList.chain, h.freeList.sorted, h.freeList.bound⟩
  · exact fun i hi => (h.roleOk i hi).congr rfl (fun _ _ _ _ hj => hj) rfl
      fun _ _ _ hmem => List.mem_cons_of_mem _ hmem
  · -- the chain of this bucket loses its head, the others stay
    intro b' hb'
    by_cases hbb : b' = b
    · subst hbb
      simp only [Function.update_self]
      exact hrest
    · simp only [Function.update_of_ne hbb]
      exact h.chain b' hb'
  · intro b' hb' a' ha'
    by_cases hbb : b' = b
    · subst hbb
      rw [Function.update_self] at ha'
      exact h.isBlock _ hb' a' (by rw [hbucket]; exact List.mem_cons_of_mem _ ha')
    · rw [Function.update_of_ne hbb] at ha'
      exact h.isBlock b' hb' a' ha'
  · exact List.nodup_cons.mpr ⟨hnot, h.nodup⟩
  · intro x hx
    rcases List.mem_cons.mp hx with rfl | hx
    · exact Or.inl ⟨hle, hpos, hblock⟩
    · exact h.liveOk x hx
  · -- the block taken is the one that changes sides
    intro b' a' hblock'
    rw [List.map_cons, List.mem_cons, not_or]
    have hacc := h.account b' a' hblock'
    by_cases hbb : b' = b
    · subst hbb
      rw [hbucket, List.mem_cons] at hacc
      rw [Function.update_self]
      by_cases haa : a' = a
      · subst haa
        simp [(List.nodup_cons.mp hnd).1]
      · simp only [haa, false_or] at hacc
        simp [haa, hacc]
    · rw [Function.update_of_ne hbb, hacc]
      have haa : a' ≠ a := by
        rintro rfl
        exact hbb (h.bucket_unique hblock' hblock)
      simp [haa]

/-! ## Carving a page -/

/-- Carving the free page `f` adds its blocks and no others. -/
theorem isBlock_carve {f b b' a : ℕ} (hf : f < n)
    (hrole : role f = .free) :
    IsBlock base n (Function.update role f (.carved b)) b' a ↔
      IsBlock base n role b' a ∨ (b' = b ∧ a ∈ blocksFrom (base + 4096 * f) b) := by
  constructor
  · rintro ⟨i, hi, hr, ha⟩
    by_cases hif : i = f
    · subst hif
      rw [Function.update_self] at hr
      cases hr
      exact Or.inr ⟨rfl, ha⟩
    · rw [Function.update_of_ne hif] at hr
      exact Or.inl ⟨i, hi, hr, ha⟩
  · rintro (⟨i, hi, hr, ha⟩ | ⟨rfl, ha⟩)
    · have hif : i ≠ f := by
        rintro rfl
        rw [hrole] at hr
        cases hr
      exact ⟨i, hi, by rw [Function.update_of_ne hif, hr], ha⟩
    · exact ⟨f, hf, Function.update_self _ _ _, ha⟩

/-- A free page is not carved. -/
theorem ne_carved_of_free {f : ℕ} (hrole : role f = .free) (b : ℕ) : role f ≠ .carved b := by
  intro hr
  rw [hrole] at hr
  cases hr

/-- The pages agree with their roles after page `f` is carved. -/
theorem roleOk_carve (h : Inv base n c role free bucket) {f b : ℕ} (hb : b < 8) (hf : f < n)
    (hrole : role f = .free) (head : Option ℕ) {i : ℕ} (hi : i < n) :
    RoleOk base n (Function.update role f (.carved b))
      (({ c.heap with freePageInfo := head }).splitPage f (blockSize b)).info c.live i := by
  by_cases hif : i = f
  · subst hif
    simp only [RoleOk, Function.update_self]
    refine ⟨hb, ?_⟩
    simp [splitPage, PageInfo.data, (h.roleOk i hf).pageAddr]
  · have hinfo : (({ c.heap with freePageInfo := head }).splitPage f (blockSize b)).info i
        = c.heap.info i := Function.update_of_ne hif _ _
    refine (h.roleOk i hi).congr (Function.update_of_ne hif _ _) (fun f' m _ j hj => ?_)
      (by rw [hinfo]) (fun _ _ _ hmem => hmem)
    have hjf : j ≠ f := by
      rintro rfl
      rw [hrole] at hj
      cases hj
    rw [Function.update_of_ne hjf, hj]

/-- The bucket lists after page `f` is carved: the blocks of the page are the list of `b`, and the
links of the other lists lie in other pages. -/
theorem chain_carve (h : Inv base n c role free bucket) {f b : ℕ} (hb : b < 8) (hf : f < n)
    (hrole : role f = .free) (hempty : bucket b = []) (head : Option ℕ) {b' : ℕ} (hb' : b' < 8) :
    Linked (({ c.heap with freePageInfo := head }).splitPage f (blockSize b)).mem.loadPtr
      (toPtr ((({ c.heap with freePageInfo := head }).splitPage f (blockSize b)).freelistarr b'))
      (Function.update bucket b (blocksFrom (base + 4096 * f) b) b') none := by
  have hstart : (c.heap.info f).pageAddr = base + 4096 * f := (h.roleOk f hf).pageAddr
  have hpos := h.geometry.base_pos
  have hwrap := h.geometry.no_wrap
  by_cases hbb : b' = b
  · subst hbb
    have hold := h.chain b' hb
    rw [hempty] at hold
    have hnew : Linked _ _ (blocksFrom (base + 4096 * f) b' ++ []) none :=
      splitPage_chain (s := { c.heap with freePageInfo := head }) hb hstart (by omega) (by omega)
        hold (h.freelistarr_lt hb) (by simp)
    rw [Function.update_self, ← List.append_nil (blocksFrom _ _)]
    exact hnew
  · have hbucket : (({ c.heap with freePageInfo := head }).splitPage f (blockSize b)).freelistarr b'
        = c.heap.freelistarr b' := by
      simp only [splitPage, getBucketIndex_blockSize hb, Function.update_of_ne hbb]
    rw [Function.update_of_ne hbb, hbucket]
    refine (h.chain b' hb').congr fun a ha => loadPtr_congr fun x h₁ h₂ => ?_
    have hout := h.listed_outside (ne_carved_of_free hrole) hb' ha
    exact splitPage_mem_outside hb hstart (by omega) (by omega) (by omega)

/-- The blocks are accounted for after page `f` is carved. -/
theorem account_carve (h : Inv base n c role free bucket) {f b : ℕ} (hb : b < 8) (hf : f < n)
    (hrole : role f = .free) (hempty : bucket b = []) {b' a : ℕ}
    (hblock : IsBlock base n (Function.update role f (.carved b)) b' a) :
    a ∈ Function.update bucket b (blocksFrom (base + 4096 * f) b) b' ↔
      a ∉ c.live.map Allocation.ptr := by
  have hbs := le_blockSize b
  rcases (isBlock_carve hf hrole).mp hblock with hold | ⟨rfl, ha⟩
  · by_cases hbb : b' = b
    · subst hbb
      -- an old block of the bucket is live, and its page is not `f`
      have hacc := h.account b' a hold
      rw [hempty] at hacc
      rw [Function.update_self]
      have hlive : a ∈ c.live.map Allocation.ptr := by
        by_contra hnot
        exact List.not_mem_nil (hacc.mpr hnot)
      refine ⟨fun hmem => ?_, fun hnot => absurd hlive hnot⟩
      have hbounds := blocksFrom_bounds hb hmem
      exact absurd hlive (h.not_live_of_free hrole hbounds.1 (by omega))
    · rw [Function.update_of_ne hbb]
      exact h.account b' a hold
  · rw [Function.update_self]
    have hbounds := blocksFrom_bounds hb ha
    exact ⟨fun _ => h.not_live_of_free hrole hbounds.1 (by omega), fun _ => ha⟩

/-- **Carving the first free page for an empty bucket keeps the invariant.** -/
theorem carve (h : Inv base n c role free bucket) {f b : ℕ} {rest : List ℕ}
    (hfree : free = f :: rest) (hb : b < 8) (hempty : bucket b = []) :
    Inv base n
      ⟨({ c.heap with freePageInfo := (c.heap.info f).next }).splitPage f (blockSize b), c.live⟩
      (Function.update role f (.carved b)) rest
      (Function.update bucket b (blocksFrom (base + 4096 * f) b)) := by
  obtain ⟨hf, hrole⟩ := (h.mem_free f).mp (by rw [hfree]; exact List.mem_cons_self)
  have hchainF := h.freeList.chain
  have hsortedF := h.freeList.sorted
  have hboundF := h.freeList.bound
  rw [hfree] at hchainF hsortedF hboundF
  have hnotrest : f ∉ rest := fun hmem =>
    absurd ((List.pairwise_cons.mp hsortedF).1 f hmem) (lt_irrefl f)
  refine ⟨h.geometry.congr rfl rfl rfl rfl, ⟨?_, (List.pairwise_cons.mp hsortedF).2, ?_⟩,
    ?_, fun i hi => h.roleOk_carve hb hf hrole _ hi,
    fun b' hb' => h.chain_carve hb hf hrole hempty _ hb', ?_, h.nodup, ?_,
    fun b' a hblock => h.account_carve hb hf hrole hempty hblock⟩
  · rw [links_splitPage]
    exact hchainF.2
  · exact fun i hi => hboundF i (List.mem_cons_of_mem _ hi)
  · -- only page `f` leaves the free list
    intro i
    have hmem := h.mem_free i
    rw [hfree, List.mem_cons] at hmem
    by_cases hif : i = f
    · subst hif
      simp [hnotrest]
    · rw [Function.update_of_ne hif, ← hmem]
      simp [hif]
  · -- the new blocks are those of page `f`
    intro b' hb' a ha
    rw [isBlock_carve hf hrole]
    by_cases hbb : b' = b
    · subst hbb
      rw [Function.update_self] at ha
      exact Or.inr ⟨rfl, ha⟩
    · rw [Function.update_of_ne hbb] at ha
      exact Or.inl (h.isBlock b' hb' a ha)
  · -- live buffers lie on pages that were not free
    intro x hx
    refine (h.liveOk x hx).congr (fun b' a hold => (isBlock_carve hf hrole).mpr (Or.inl hold)) ?_
    intro g _ hr
    have hgf : g ≠ f := by
      rintro rfl
      rw [hrole] at hr
      cases hr
    rw [Function.update_of_ne hgf, hr]

/-! ## Giving back a block -/

/-- **Giving back a live block keeps the invariant.** -/
theorem putBlock (h : Inv base n c role free bucket) {x : Allocation} (hx : x ∈ c.live)
    (hle : x.size ≤ 4096) :
    Inv base n
      ⟨{ c.heap with
          mem := c.heap.mem.store64 x.ptr (c.heap.freelistarr (getBucketIndex x.size))
          freelistarr := Function.update c.heap.freelistarr (getBucketIndex x.size) x.ptr },
        c.live.erase x⟩
      role free
      (Function.update bucket (getBucketIndex x.size)
        (x.ptr :: bucket (getBucketIndex x.size))) := by
  obtain ⟨hpos, hblock⟩ : 0 < x.size ∧ IsBlock base n role (getBucketIndex x.size) x.ptr := by
    rcases h.liveOk x hx with ⟨-, hpos, hblock⟩ | ⟨hlarge, -⟩
    · exact ⟨hpos, hblock⟩
    · omega
  set b := getBucketIndex x.size with hbdef
  have hb : b < 8 := (getBucketIndex_spec hpos hle).1
  have hext : Extent base n role x.ptr (blockSize b) := .block hb hblock
  have hbs := le_blockSize b
  have hlive : x.ptr ∈ c.live.map Allocation.ptr := List.mem_map_of_mem hx
  have hwithin := hext.within
  have hbase := h.geometry.base_pos
  have hwrap := h.geometry.no_wrap
  -- no listed block shares a word with the block given back
  have hapart : ∀ b' < 8, ∀ a ∈ bucket b', x.ptr + 8 ≤ a ∨ a + 8 ≤ x.ptr := by
    intro b' hb' a ha
    have hne : a ≠ x.ptr := fun he => (h.extent_of_bucket hb' ha).2 (he ▸ hlive)
    rcases h.word_apart hb' ha hext hne with hd | hd
    · exact Or.inr hd
    · exact Or.inl (by omega)
  have hframe : ∀ b' < 8, Linked (c.heap.mem.store64 x.ptr (c.heap.freelistarr b)).loadPtr
      (toPtr (c.heap.freelistarr b')) (bucket b') none := fun b' hb' =>
    (h.chain b' hb').congr fun a ha => loadPtr_store64_disjoint _ (hapart b' hb' a ha)
  refine ⟨h.geometry.congr rfl rfl rfl rfl,
    ⟨h.freeList.chain, h.freeList.sorted, h.freeList.bound⟩, h.mem_free, ?_, ?_, ?_,
    nodup_map_ptr_erase x h.nodup, ?_, ?_⟩
  · intro i hi
    refine (h.roleOk i hi).congr rfl (fun _ _ _ _ hj => hj) rfl fun f m hr hmem => ?_
    refine (List.mem_erase_of_ne ?_).mpr hmem
    rintro rfl
    have := ((h.roleOk i hi).of_buffer hr).1
    simp only at hle
    omega
  · intro b' hb'
    by_cases hbb : b' = b
    · subst hbb
      simp only [Function.update_self]
      rw [toPtr_of_pos (by omega)]
      refine ⟨rfl, ?_⟩
      rw [loadPtr_store64_same _ (h.freelistarr_lt hb)]
      exact hframe _ hb
    · simp only [Function.update_of_ne hbb]
      exact hframe b' hb'
  · intro b' hb' a ha
    by_cases hbb : b' = b
    · subst hbb
      rw [Function.update_self] at ha
      rcases List.mem_cons.mp ha with rfl | ha
      · exact hblock
      · exact h.isBlock _ hb' a ha
    · rw [Function.update_of_ne hbb] at ha
      exact h.isBlock b' hb' a ha
  · exact fun y hy => h.liveOk y (List.mem_of_mem_erase hy)
  · intro b' a hblock'
    have hacc := h.account b' a hblock'
    rw [mem_map_ptr_erase h.nodup hx]
    by_cases hax : a = x.ptr
    · subst hax
      obtain rfl := h.bucket_unique hblock' hblock
      simp
    · by_cases hbb : b' = b
      · subst hbb
        simp [hax, hacc]
      · rw [Function.update_of_ne hbb, hacc]
        simp [hax]

/-! ## Taking a run of pages -/

/-- The roles after the pages from `f` on become a buffer of `m` bytes. -/
def takeRole (role : ℕ → PageRole) (f m : ℕ) : ℕ → PageRole := fun i =>
  if f ≤ i ∧ i < f + getRequiredPages m then .buffer f m else role i

section TakeRole

variable {f m : ℕ}

/-- The pages of the run become the buffer. -/
theorem takeRole_of_mem {i : ℕ} (hlow : f ≤ i) (hhigh : i < f + getRequiredPages m) :
    takeRole role f m i = .buffer f m := if_pos ⟨hlow, hhigh⟩

/-- The other pages keep their roles. -/
theorem takeRole_of_notMem {i : ℕ} (hi : ¬ (f ≤ i ∧ i < f + getRequiredPages m)) :
    takeRole role f m i = role i := if_neg hi

/-- Where the run was free, a page that was not free keeps its role. -/
theorem takeRole_of_ne_free (hfree : ∀ i, f ≤ i → i < f + getRequiredPages m → role i = .free)
    {i : ℕ} (hi : role i ≠ .free) : takeRole role f m i = role i :=
  takeRole_of_notMem fun hin => hi (hfree i hin.1 hin.2)

/-- Where the run was free, the blocks stay the same. -/
theorem isBlock_takeRole (hfree : ∀ i, f ≤ i → i < f + getRequiredPages m → role i = .free)
    {b a : ℕ} : IsBlock base n (takeRole role f m) b a ↔ IsBlock base n role b a := by
  apply isBlock_congr
  intro i b
  by_cases hin : f ≤ i ∧ i < f + getRequiredPages m
  · rw [takeRole_of_mem hin.1 hin.2, hfree i hin.1 hin.2]
    simp
  · rw [takeRole_of_notMem hin]

end TakeRole

/-- The pages agree with their roles after a run of free pages is taken. -/
theorem roleOk_takeRun (h : Inv base n c role free bucket) {size f : ℕ} {info : ℕ → PageInfo}
    (hlarge : 4096 < size) (hword : size < 2 ^ 64) (hpages : 2 ≤ getRequiredPages size)
    (hfit : f + getRequiredPages size ≤ n)
    (hfree : ∀ i, f ≤ i → i < f + getRequiredPages size → role i = .free)
    (hrun : ∀ i, f ≤ i → i < f + getRequiredPages size →
      (info i).data = ((c.heap.info i).pageAddr, (c.heap.info i).size, decide (i = f)))
    (hrest : ∀ i, ¬ (f ≤ i ∧ i < f + getRequiredPages size) →
      (info i).data = (c.heap.info i).data) {i : ℕ} (hi : i < n) :
    RoleOk base n (takeRole role f size)
      (Function.update info f { info f with size := size, isStartOfBuffer := true })
      (⟨base + 4096 * f, size⟩ :: c.live) i := by
  by_cases hin : f ≤ i ∧ i < f + getRequiredPages size
  · have haddr : (c.heap.info i).data = (base + 4096 * i, 0, false) :=
      (h.roleOk i hi).of_free (hfree i hin.1 hin.2)
    simp only [PageInfo.data, Prod.mk.injEq] at haddr
    have hd := hrun i hin.1 hin.2
    rw [haddr.1, haddr.2.1] at hd
    simp only [PageInfo.data, Prod.mk.injEq] at hd
    rw [RoleOk, takeRole_of_mem hin.1 hin.2]
    refine ⟨⟨hlarge, hword⟩, hin, hfit, List.mem_cons_self, ?_, fun j => takeRole_of_mem⟩
    by_cases hif : i = f
    · subst hif
      simp [PageInfo.data, hd.1]
    · simp [PageInfo.data, hif, hd.1, hd.2.1, hd.2.2]
  · have hif : i ≠ f := by
      rintro rfl
      exact hin ⟨le_rfl, by omega⟩
    refine (h.roleOk i hi).congr (takeRole_of_notMem hin) (fun g m _ j hj => ?_) ?_
      fun _ _ _ hmem => List.mem_cons_of_mem _ hmem
    · rw [takeRole_of_ne_free hfree (by rw [hj]; simp), hj]
    · rw [Function.update_of_ne hif]
      exact hrest i hin

/-- **Taking a run of free pages for a large request keeps the invariant.** -/
theorem takeRun (h : Inv base n c role free bucket) {size f : ℕ} {pre post : List ℕ}
    {info : ℕ → PageInfo} {head : Option ℕ} (hlarge : 4096 < size) (hword : size < 2 ^ 64)
    (hpages : 2 ≤ getRequiredPages size)
    (hfree : free = pre ++ (List.range' f (getRequiredPages size) ++ post))
    (hF : (c.heap.setPages info head).FreeList n (pre ++ post))
    (hrun : ∀ i, f ≤ i → i < f + getRequiredPages size →
      (info i).data = ((c.heap.info i).pageAddr, (c.heap.info i).size, decide (i = f)))
    (hrest : ∀ i, ¬ (f ≤ i ∧ i < f + getRequiredPages size) →
      (info i).data = (c.heap.info i).data) :
    Inv base n
      ⟨c.heap.setPages (Function.update info f { info f with
          size := size, isStartOfBuffer := true }) head, ⟨base + 4096 * f, size⟩ :: c.live⟩
      (takeRole role f size) (pre ++ post) bucket := by
  set k := getRequiredPages size with hk
  have hmemrun : ∀ i, f ≤ i → i < f + k → i < n ∧ role i = .free := by
    intro i h₁ h₂
    rw [← h.mem_free, hfree]
    exact List.mem_append_right _ (List.mem_append_left _ (by
      rw [List.mem_range'_1]
      exact ⟨h₁, h₂⟩))
  have hfreeRun : ∀ i, f ≤ i → i < f + k → role i = .free := fun i h₁ h₂ => (hmemrun i h₁ h₂).2
  obtain ⟨hfn, hfrole⟩ := hmemrun f le_rfl (by omega)
  have hfit : f + k ≤ n := by
    have := (hmemrun (f + k - 1) (by omega) (by omega)).1
    omega
  have hlinks : links (Function.update info f { info f with
      size := size, isStartOfBuffer := true }) = links info := by
    funext i
    by_cases hi : i = f
    · subst hi
      simp
    · simp [hi]
  have hnotlive : base + 4096 * f ∉ c.live.map Allocation.ptr :=
    h.not_live_of_free hfrole le_rfl (by omega)
  refine ⟨h.geometry.congr rfl rfl rfl rfl, ⟨?_, hF.sorted, hF.bound⟩, ?_,
    fun i hi => h.roleOk_takeRun hlarge hword hpages hfit hfreeRun hrun hrest hi, h.chain, ?_,
    List.nodup_cons.mpr ⟨hnotlive, h.nodup⟩, ?_, ?_⟩
  · rw [setPages_info, hlinks]
    exact hF.chain
  · -- the free pages are those left of the run and right of it
    intro i
    have hnd : free.Nodup := h.freeList.chain.nodup
    rw [hfree] at hnd
    rw [mem_cut hnd, ← hfree, h.mem_free, List.mem_range'_1]
    by_cases hin : f ≤ i ∧ i < f + k
    · rw [takeRole_of_mem hin.1 hin.2]
      simp [hin]
    · rw [takeRole_of_notMem hin]
      simp [hin]
  · intro b hb a ha
    exact (isBlock_takeRole hfreeRun).mpr (h.isBlock b hb a ha)
  · intro x hx
    rcases List.mem_cons.mp hx with rfl | hx
    · exact Or.inr ⟨hlarge, f, hfn, rfl, takeRole_of_mem le_rfl (by omega)⟩
    · refine (h.liveOk x hx).congr (fun b a => (isBlock_takeRole hfreeRun).mpr) fun g _ hr => ?_
      rw [takeRole_of_ne_free hfreeRun (by rw [hr]; simp), hr]
  · intro b a hblock
    rw [isBlock_takeRole hfreeRun] at hblock
    rw [List.map_cons, List.mem_cons, not_or]
    have hacc := h.account b a hblock
    have hne : a ≠ base + 4096 * f := h.ne_page_of_isBlock (ne_carved_of_free hfrole) hblock
    simp [hne, hacc]

/-! ## Giving back a run of pages -/

/-- A live large allocation is a buffer whose pages have its role. -/
theorem exists_buffer (h : Inv base n c role free bucket) {x : Allocation} (hx : x ∈ c.live)
    (hlarge : 4096 < x.size) :
    ∃ f < n, x.ptr = base + 4096 * f ∧ role f = .buffer f x.size ∧
      2 ≤ getRequiredPages x.size ∧ f + getRequiredPages x.size ≤ n ∧
      ∀ i, f ≤ i → i < f + getRequiredPages x.size → role i = .buffer f x.size := by
  rcases h.liveOk x hx with ⟨hle, -⟩ | ⟨-, f, hf, hptr, hr⟩
  · omega
  · obtain ⟨⟨-, hword⟩, ⟨-, hlt⟩, hfit, -, -, hall⟩ := (h.roleOk f hf).of_buffer hr
    exact ⟨f, hf, hptr, hr, two_le_getRequiredPages hword hlarge (by omega), hfit, hall⟩

/-- The roles after the buffer that starts at page `f` is given back. -/
def putRole (role : ℕ → PageRole) (f m : ℕ) : ℕ → PageRole := fun i =>
  if f ≤ i ∧ i < f + getRequiredPages m then .free else role i

section PutRole

variable {f m : ℕ}

/-- The pages of the buffer become free. -/
theorem putRole_of_mem {i : ℕ} (hlow : f ≤ i) (hhigh : i < f + getRequiredPages m) :
    putRole role f m i = .free := if_pos ⟨hlow, hhigh⟩

/-- The other pages keep their roles. -/
theorem putRole_of_notMem {i : ℕ} (hi : ¬ (f ≤ i ∧ i < f + getRequiredPages m)) :
    putRole role f m i = role i := if_neg hi

/-- Where the run was the buffer, a page of another role keeps it. -/
theorem putRole_of_ne_buffer
    (hall : ∀ i, f ≤ i → i < f + getRequiredPages m → role i = .buffer f m) {i : ℕ}
    (hi : role i ≠ .buffer f m) : putRole role f m i = role i :=
  putRole_of_notMem fun hin => hi (hall i hin.1 hin.2)

/-- Where the run was the buffer, the blocks stay the same. -/
theorem isBlock_putRole
    (hall : ∀ i, f ≤ i → i < f + getRequiredPages m → role i = .buffer f m) {b a : ℕ} :
    IsBlock base n (putRole role f m) b a ↔ IsBlock base n role b a := by
  apply isBlock_congr
  intro i b
  by_cases hin : f ≤ i ∧ i < f + getRequiredPages m
  · rw [putRole_of_mem hin.1 hin.2, hall i hin.1 hin.2]
    simp
  · rw [putRole_of_notMem hin]

end PutRole

/-- The pages agree with their roles after a live buffer is given back. -/
theorem roleOk_putRun (h : Inv base n c role free bucket) {x : Allocation} {f : ℕ}
    (hptr : x.ptr = base + 4096 * f)
    (hall : ∀ i, f ≤ i → i < f + getRequiredPages x.size → role i = .buffer f x.size)
    {info : ℕ → PageInfo}
    (hrun : ∀ i ∈ List.range' f (getRequiredPages x.size),
      (info i).data = ((c.heap.info i).pageAddr, 0, false))
    (hrest : ∀ i, i ∉ List.range' f (getRequiredPages x.size) →
      (info i).data = (c.heap.info i).data) {i : ℕ} (hi : i < n) :
    RoleOk base n (putRole role f x.size) info (c.live.erase x) i := by
  by_cases hin : f ≤ i ∧ i < f + getRequiredPages x.size
  · rw [RoleOk, putRole_of_mem hin.1 hin.2]
    have hd := hrun i (by rwa [List.mem_range'_1])
    rw [(h.roleOk i hi).pageAddr] at hd
    exact hd
  · have hrolei : role i ≠ .buffer f x.size := by
      intro hr
      exact hin ((h.roleOk i hi).of_buffer hr).2.1
    refine (h.roleOk i hi).congr (putRole_of_notMem hin) (fun g m hr j hj => ?_)
      (hrest i (by rwa [List.mem_range'_1])) fun g m hr hmem => ?_
    · rw [putRole_of_ne_buffer hall (by rw [hj, ← hr]; exact hrolei), hj]
    · -- the buffer of page `i` is not the one that is given back
      refine (List.mem_erase_of_ne ?_).mpr hmem
      intro hxe
      have hgf : g = f := by
        have := congrArg Allocation.ptr hxe
        simp only at this
        omega
      have hmx : m = x.size := congrArg Allocation.size hxe
      exact hrolei (by rw [hr, hgf, hmx])

/-- **Giving back a live buffer keeps the invariant.** -/
theorem putRun (h : Inv base n c role free bucket) {x : Allocation} {f : ℕ} (hx : x ∈ c.live)
    (hlarge : 4096 < x.size) (hptr : x.ptr = base + 4096 * f)
    {info : ℕ → PageInfo} {head : Option ℕ} {free' : List ℕ}
    (hF : (c.heap.setPages info head).FreeList n free')
    (hperm : free'.Perm (List.range' f (getRequiredPages x.size) ++ free))
    (hrun : ∀ i ∈ List.range' f (getRequiredPages x.size),
      (info i).data = ((c.heap.info i).pageAddr, 0, false))
    (hrest : ∀ i, i ∉ List.range' f (getRequiredPages x.size) →
      (info i).data = (c.heap.info i).data) :
    Inv base n ⟨c.heap.setPages info head, c.live.erase x⟩ (putRole role f x.size) free'
      bucket := by
  obtain ⟨f', hf, hptr', hrole, hpages, hfit, hall⟩ := h.exists_buffer hx hlarge
  obtain rfl : f' = f := by omega
  refine ⟨h.geometry.congr rfl rfl rfl rfl, hF, ?_,
    fun i hi => h.roleOk_putRun hptr hall hrun hrest hi, h.chain, ?_,
    nodup_map_ptr_erase x h.nodup, ?_, ?_⟩
  · intro i
    rw [hperm.mem_iff, List.mem_append, List.mem_range'_1, h.mem_free]
    by_cases hin : f' ≤ i ∧ i < f' + getRequiredPages x.size
    · rw [putRole_of_mem hin.1 hin.2]
      simp only [hin, and_self, true_or, and_true, true_iff]
      omega
    · rw [putRole_of_notMem hin]
      simp [hin]
  · exact fun b hb a ha => (isBlock_putRole hall).mpr (h.isBlock b hb a ha)
  · intro y hy
    refine (h.liveOk y (List.mem_of_mem_erase hy)).congr (fun b a => (isBlock_putRole hall).mpr)
      fun g hpg hr => ?_
    rw [putRole_of_ne_buffer hall ?_, hr]
    -- another live buffer starts at another page
    have hmem := (mem_map_ptr_erase h.nodup hx y.ptr).mp (List.mem_map_of_mem hy)
    rw [hr]
    intro he
    have hgf : g = f' := (PageRole.buffer.inj he).1
    exact hmem.2 (by rw [hpg, hptr, hgf])
  · intro b a hblock
    rw [isBlock_putRole hall] at hblock
    rw [mem_map_ptr_erase h.nodup hx, h.account b a hblock]
    have hne : a ≠ x.ptr := by
      rw [hptr]
      exact h.ne_page_of_isBlock (by rw [hrole]; simp) hblock
    simp [hne]

/-! ## Client writes -/

/-- **A write into a live allocation keeps the invariant.** -/
theorem write (h : Inv base n c role free bucket) {x : Allocation} {y : ℕ} {v : UInt8}
    (hx : x ∈ c.live) (hy : x.Covers y) :
    Inv base n ⟨{ c.heap with mem := Function.update c.heap.mem y v }, c.live⟩ role free
      bucket := by
  refine ⟨h.geometry.congr rfl rfl rfl rfl,
    ⟨h.freeList.chain, h.freeList.sorted, h.freeList.bound⟩, h.mem_free, h.roleOk, ?_,
    h.isBlock, h.nodup, h.liveOk, h.account⟩
  intro b hb
  refine (h.chain b hb).congr fun a ha => loadPtr_congr fun z h₁ h₂ => ?_
  have := h.not_covers hb ha hx hy
  exact Function.update_of_ne (by omega) _ _

end Inv

end McKusick
