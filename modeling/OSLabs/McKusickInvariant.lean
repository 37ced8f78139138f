/-
# The invariant of the McKusick–Karels allocator

Every data page has a role: free, carved into the blocks of one bucket, or part of
one large buffer.  `Inv` ties the roles to the page records, the free-page list, the
eight block lists and the live allocations of the client.  A block is on its
bucket's list exactly when it is not live.
-/
import OSLabs.McKusickPages
import OSLabs.McKusickBlocks

namespace McKusick

open Memory McKusickAllocator

/-! ## Page roles -/

/-- What a data page is used for. -/
inductive PageRole where
  | free
  | carved (bucket : ℕ)
  | buffer (first size : ℕ)
  deriving DecidableEq, Repr

/-- `a` is a block of bucket `b`: one of the blocks of a page carved for `b`. -/
def IsBlock (base n : ℕ) (role : ℕ → PageRole) (b a : ℕ) : Prop :=
  ∃ i < n, role i = .carved b ∧ a ∈ blocksFrom (base + 4096 * i) b

/-- The record of page `i` and its neighbours agree with its role. -/
def RoleOk (base n : ℕ) (role : ℕ → PageRole) (info : ℕ → PageInfo) (live : List Allocation)
    (i : ℕ) : Prop :=
  match role i with
  | .free => (info i).data = (base + 4096 * i, 0, false)
  | .carved b => b < 8 ∧ (info i).data = (base + 4096 * i, blockSize b, false)
  | .buffer f m =>
      (4096 < m ∧ m < 2 ^ 64) ∧ (f ≤ i ∧ i < f + getRequiredPages m) ∧
      f + getRequiredPages m ≤ n ∧ ⟨base + 4096 * f, m⟩ ∈ live ∧
      (info i).data = (base + 4096 * i, if i = f then m else 0, decide (i = f)) ∧
      ∀ j, f ≤ j → j < f + getRequiredPages m → role j = .buffer f m

/-- A live allocation is a block of its bucket, or starts a large buffer. -/
def LiveOk (base n : ℕ) (role : ℕ → PageRole) (x : Allocation) : Prop :=
  (x.size ≤ 4096 ∧ 0 < x.size ∧ IsBlock base n role (getBucketIndex x.size) x.ptr) ∨
  (4096 < x.size ∧ ∃ f < n, x.ptr = base + 4096 * f ∧ role f = .buffer f x.size)

/-- The fixed shape of an allocator over `n` data pages at `base`. -/
structure Geometry (s : McKusickAllocator) (base n : ℕ) : Prop where
  base_eq : s.initialMemory = base
  pages_eq : s.dataPages = n
  base_pos : 0 < base
  base_aligned : 4096 ∣ base
  no_wrap : base + 4096 * n ≤ 2 ^ 64
  fuel : n ≤ s.totalPages
  metadata : s.metadataMemory + 32 * n ≤ base

/-- The shape only depends on the fields no call changes. -/
theorem Geometry.congr {s s' : McKusickAllocator} {base n : ℕ} (h : Geometry s base n)
    (hinit : s'.initialMemory = s.initialMemory) (hmeta : s'.metadataMemory = s.metadataMemory)
    (htotal : s'.totalPages = s.totalPages) (htotalMeta : s'.totalMetaPages = s.totalMetaPages) :
    Geometry s' base n := by
  refine ⟨by rw [hinit, h.base_eq], ?_, h.base_pos, h.base_aligned, h.no_wrap,
    by rw [htotal]; exact h.fuel, by rw [hmeta]; exact h.metadata⟩
  rw [dataPages, htotal, htotalMeta]
  exact h.pages_eq

/-- **The invariant.** -/
structure Inv (base n : ℕ) (c : Client McKusickAllocator) (role : ℕ → PageRole)
    (free : List ℕ) (bucket : ℕ → List ℕ) : Prop where
  geometry : Geometry c.heap base n
  freeList : c.heap.FreeList n free
  mem_free : ∀ i, i ∈ free ↔ i < n ∧ role i = .free
  roleOk : ∀ i < n, RoleOk base n role c.heap.info c.live i
  chain : ∀ b < 8, Linked c.heap.mem.loadPtr (toPtr (c.heap.freelistarr b)) (bucket b) none
  isBlock : ∀ b < 8, ∀ a ∈ bucket b, IsBlock base n role b a
  nodup : (c.live.map Allocation.ptr).Nodup
  liveOk : ∀ x ∈ c.live, LiveOk base n role x
  account : ∀ b a, IsBlock base n role b a →
    (a ∈ bucket b ↔ a ∉ c.live.map Allocation.ptr)

/-! ## Reading the roles -/

section Roles

variable {base n i : ℕ} {role : ℕ → PageRole} {info : ℕ → PageInfo} {live : List Allocation}

theorem RoleOk.of_free (h : RoleOk base n role info live i) (hi : role i = .free) :
    (info i).data = (base + 4096 * i, 0, false) := by
  rw [RoleOk, hi] at h
  exact h

theorem RoleOk.of_carved {b : ℕ} (h : RoleOk base n role info live i) (hi : role i = .carved b) :
    b < 8 ∧ (info i).data = (base + 4096 * i, blockSize b, false) := by
  rw [RoleOk, hi] at h
  exact h

theorem RoleOk.of_buffer {f m : ℕ} (h : RoleOk base n role info live i)
    (hi : role i = .buffer f m) :
    (4096 < m ∧ m < 2 ^ 64) ∧ (f ≤ i ∧ i < f + getRequiredPages m) ∧
      f + getRequiredPages m ≤ n ∧ ⟨base + 4096 * f, m⟩ ∈ live ∧
      (info i).data = (base + 4096 * i, if i = f then m else 0, decide (i = f)) ∧
      ∀ j, f ≤ j → j < f + getRequiredPages m → role j = .buffer f m := by
  rw [RoleOk, hi] at h
  exact h

/-- Whatever its role, a page record holds the address of its page. -/
theorem RoleOk.pageAddr (h : RoleOk base n role info live i) :
    (info i).pageAddr = base + 4096 * i := by
  cases hi : role i with
  | free => exact congrArg Prod.fst (h.of_free hi)
  | carved b => exact congrArg Prod.fst (h.of_carved hi).2
  | buffer f m => exact congrArg Prod.fst (h.of_buffer hi).2.2.2.2.1

end Roles

/-! ## Extents -/

/-- The extents that hold live allocations and free blocks: the blocks of carved pages,
and the page runs of large buffers. -/
inductive Extent (base n : ℕ) (role : ℕ → PageRole) : (start len : ℕ) → Prop
  | block {b a : ℕ} : b < 8 → IsBlock base n role b a → Extent base n role a (blockSize b)
  | buffer {f m : ℕ} : 0 < getRequiredPages m → f + getRequiredPages m ≤ n →
      (∀ j, f ≤ j → j < f + getRequiredPages m → role j = .buffer f m) →
      Extent base n role (base + 4096 * f) (4096 * getRequiredPages m)

/-- An extent lies in the data region. -/
theorem Extent.within {base n p len : ℕ} {role : ℕ → PageRole} (h : Extent base n role p len) :
    base ≤ p ∧ p + len ≤ base + 4096 * n := by
  cases h with
  | block hb hblock =>
      obtain ⟨i, hi, -, ha⟩ := hblock
      have := blocksFrom_bounds hb ha
      omega
  | buffer _ hle _ => omega

/-- **Two extents with different starts do not overlap.** -/
theorem Extent.apart {base n p len q len' : ℕ} {role : ℕ → PageRole}
    (h : Extent base n role p len) (h' : Extent base n role q len') (hne : p ≠ q) :
    p + len ≤ q ∨ q + len' ≤ p := by
  cases h with
  | @block b a hb hblock =>
      obtain ⟨i, hi, hrole, ha⟩ := hblock
      have hbounds := blocksFrom_bounds hb ha
      cases h' with
      | @block b' a' hb' hblock' =>
          obtain ⟨i', hi', hrole', ha'⟩ := hblock'
          have hbounds' := blocksFrom_bounds hb' ha'
          by_cases hii : i = i'
          · -- blocks of one page
            subst hii
            rw [hrole] at hrole'
            cases hrole'
            exact blocksFrom_apart ha ha' hne
          · omega
      | @buffer f m hpos hle hrun =>
          by_cases hin : f ≤ i ∧ i < f + getRequiredPages m
          · rw [hrun i hin.1 hin.2] at hrole
            cases hrole
          · omega
  | @buffer f m hpos hle hrun =>
      cases h' with
      | @block b' a' hb' hblock' =>
          obtain ⟨i', hi', hrole', ha'⟩ := hblock'
          have hbounds' := blocksFrom_bounds hb' ha'
          by_cases hin : f ≤ i' ∧ i' < f + getRequiredPages m
          · rw [hrun i' hin.1 hin.2] at hrole'
            cases hrole'
          · omega
      | @buffer f' m' hpos' hle' hrun' =>
          -- overlapping buffers would give a page two roles
          by_contra hover
          have hlow : role (max f f') = .buffer f m := hrun _ (by omega) (by omega)
          have hlow' : role (max f f') = .buffer f' m' := hrun' _ (by omega) (by omega)
          rw [hlow] at hlow'
          cases hlow'
          exact hne rfl

namespace Inv

variable {base n : ℕ} {c : Client McKusickAllocator} {role : ℕ → PageRole} {free : List ℕ}
  {bucket : ℕ → List ℕ}

/-- The pages are laid out from `base` on. -/
theorem layout (h : Inv base n c role free bucket) : c.heap.Layout n := by
  have hg := h.geometry
  refine ⟨fun i hi => ?_, ?_, ?_, hg.fuel⟩
  · rw [pageAt, hg.base_eq]
    exact (h.roleOk i hi).pageAddr
  · rw [hg.base_eq]
    exact hg.base_pos
  · rw [pageAt, hg.base_eq]
    exact hg.no_wrap

/-- The bucket of a block is a bucket. -/
theorem bucket_lt {b a : ℕ} (h : Inv base n c role free bucket) (hblock : IsBlock base n role b a) :
    b < 8 := by
  obtain ⟨i, hi, hrole, -⟩ := hblock
  exact ((h.roleOk i hi).of_carved hrole).1

/-- A block belongs to one bucket only. -/
theorem bucket_unique {b b' a : ℕ} (h : Inv base n c role free bucket)
    (hblock : IsBlock base n role b a) (hblock' : IsBlock base n role b' a) : b = b' := by
  have hb := h.bucket_lt hblock
  have hb' := h.bucket_lt hblock'
  obtain ⟨i, -, hrole, hin⟩ := hblock
  obtain ⟨i', -, hrole', hin'⟩ := hblock'
  have hbounds := blocksFrom_bounds hb hin
  have hbounds' := blocksFrom_bounds hb' hin'
  have hbs := le_blockSize b
  have hbs' := le_blockSize b'
  have hii : i = i' := by omega
  subst hii
  rw [hrole] at hrole'
  cases hrole'
  rfl

/-- A live allocation fills an extent from its start on. -/
theorem extent_of_live {x : Allocation} (h : Inv base n c role free bucket) (hx : x ∈ c.live) :
    ∃ len, Extent base n role x.ptr len ∧ x.size ≤ len ∧ 0 < x.size := by
  rcases h.liveOk x hx with ⟨hle, hpos, hblock⟩ | ⟨hlarge, f, hf, hptr, hrole⟩
  · have hspec := getBucketIndex_spec hpos hle
    exact ⟨_, .block hspec.1 hblock, hspec.2.1, hpos⟩
  · obtain ⟨⟨-, hword⟩, ⟨-, hpages⟩, hfit, -, -, hrun⟩ := (h.roleOk f hf).of_buffer hrole
    have hbounds := getRequiredPages_bounds hword (by omega)
    rw [hptr]
    exact ⟨_, .buffer (by omega) hfit hrun, by omega, by omega⟩

/-- A listed block is an extent, and no live allocation starts there. -/
theorem extent_of_bucket {b a : ℕ} (h : Inv base n c role free bucket) (hb : b < 8)
    (ha : a ∈ bucket b) :
    Extent base n role a (blockSize b) ∧ a ∉ c.live.map Allocation.ptr := by
  have hblock := h.isBlock b hb a ha
  exact ⟨.block hb hblock, (h.account b a hblock).mp ha⟩

/-- **The live allocations are safe.** -/
theorem safeHeap (h : Inv base n c role free bucket) :
    SafeHeap base (base + 4096 * n) c.live := by
  constructor
  · intro x hx
    obtain ⟨len, hext, hle, -⟩ := h.extent_of_live hx
    have hwithin := hext.within
    exact ⟨hwithin.1, by omega⟩
  · apply (List.pairwise_map.mp h.nodup).imp_of_mem
    intro x y hx hy hne
    obtain ⟨len, hext, hle, -⟩ := h.extent_of_live hx
    obtain ⟨len', hext', hle', -⟩ := h.extent_of_live hy
    rcases hext.apart hext' hne with hd | hd
    · exact Or.inl (by omega)
    · exact Or.inr (by omega)

/-- The word of a free block is no byte of a live allocation. -/
theorem not_covers {b a : ℕ} {x : Allocation} (h : Inv base n c role free bucket) (hb : b < 8)
    (ha : a ∈ bucket b) (hx : x ∈ c.live) {y : ℕ} (hy : x.Covers y) : y < a ∨ a + 8 ≤ y := by
  obtain ⟨hext, hnot⟩ := h.extent_of_bucket hb ha
  obtain ⟨len, hext', hle, -⟩ := h.extent_of_live hx
  have hne : a ≠ x.ptr := fun he => hnot (he ▸ List.mem_map_of_mem hx)
  have hbs := le_blockSize b
  obtain ⟨hy₁, hy₂⟩ := hy
  rcases hext.apart hext' hne with hd | hd
  · omega
  · omega

end Inv

end McKusick
