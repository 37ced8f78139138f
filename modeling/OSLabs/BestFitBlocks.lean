/-
# The block list of the best-fit allocator

`Blocks lo hi m l` says that `l` is the block list in memory and that its blocks tile
`[lo, hi)`.  The search finds the first block of the smallest size that fits; setting a
flag, splitting a block and absorbing a block keep `Blocks`.
-/
import OSLabs.BestFitHeaders

namespace BestFit

open Memory BestFitAllocator

/-! ## The search -/

/-- A block that `alloc` may choose. -/
def Fits (aligned : ℕ) (b : Block) : Prop := b.free = true ∧ aligned ≤ b.size

/-- Between `pre` and `post`, `b` is the first of the smallest blocks that fit. -/
structure IsBestFit (aligned : ℕ) (pre : List Block) (b : Block) (post : List Block) : Prop where
  fits : Fits aligned b
  before : ∀ c ∈ pre, Fits aligned c → b.size < c.size
  after : ∀ c ∈ post, Fits aligned c → b.size ≤ c.size

/-- **The best block is unique.** -/
theorem IsBestFit.unique {aligned : ℕ} {pre pre' post post' : List Block} {b b' : Block}
    (h : IsBestFit aligned pre b post) (h' : IsBestFit aligned pre' b' post')
    (heq : pre ++ b :: post = pre' ++ b' :: post') : pre = pre' ∧ b = b' ∧ post = post' := by
  rcases List.append_eq_append_iff.mp heq with ⟨as, rfl, has⟩ | ⟨as, rfl, has⟩
  · cases as with
    | nil => exact ⟨(List.append_nil pre).symm, List.cons.inj has⟩
    | cons d as =>
        -- `b` stands before `b'`, and `b'` after `b`
        obtain ⟨rfl, rfl⟩ := List.cons.inj has
        have hlt := h'.before b (by simp) h.fits
        have hle := h.after b' (by simp) h'.fits
        omega
  · cases as with
    | nil => exact ⟨List.append_nil pre', (List.cons.inj has).imp Eq.symm Eq.symm⟩
    | cons d as =>
        obtain ⟨rfl, rfl⟩ := List.cons.inj has
        have hlt := h.before b' (by simp) h'.fits
        have hle := h'.after b (by simp) h.fits
        omega

/-- What the search knows after the blocks of `done`: no block fits, or which one is best. -/
inductive SearchState (aligned limit : ℕ) (done : List Block) : (best min : ℕ) → Prop
  | none : (∀ c ∈ done, ¬ Fits aligned c) → SearchState aligned limit done 0 limit
  | some (pre : List Block) (b : Block) (post : List Block) :
      done = pre ++ b :: post → IsBestFit aligned pre b post →
      SearchState aligned limit done b.addr b.size

namespace SearchState

variable {aligned limit best min : ℕ} {done : List Block} {b : Block}

/-- A block that fits and is smaller than all before becomes the best one. -/
theorem take (h : SearchState aligned limit done best min) (hfits : Fits aligned b)
    (hlt : b.size < min) : SearchState aligned limit (done ++ [b]) b.addr b.size := by
  refine .some done b [] (by simp) ⟨hfits, fun c hc hcf => ?_, by simp⟩
  cases h with
  | none hno => exact absurd hcf (hno c hc)
  | some pre x post hdone hbest =>
      subst hdone
      rcases List.mem_append.mp hc with hc | hc
      · exact hlt.trans (hbest.before c hc hcf)
      rcases List.mem_cons.mp hc with rfl | hc
      · exact hlt
      · exact hlt.trans_le (hbest.after c hc hcf)

/-- Every other block is passed over. -/
theorem pass (h : SearchState aligned limit done best min) (hlimit : b.size < limit)
    (hno : ¬ (Fits aligned b ∧ b.size < min)) :
    SearchState aligned limit (done ++ [b]) best min := by
  cases h with
  | none hnone =>
      refine .none fun c hc hcf => ?_
      rcases List.mem_append.mp hc with hc | hc
      · exact hnone c hc hcf
      · obtain rfl := List.mem_singleton.mp hc
        exact hno ⟨hcf, hlimit⟩
  | some pre x post hdone hbest =>
      subst hdone
      refine .some pre x (post ++ [b]) (by simp) ⟨hbest.fits, hbest.before, fun c hc hcf => ?_⟩
      rcases List.mem_append.mp hc with hc | hc
      · exact hbest.after c hc hcf
      · obtain rfl := List.mem_singleton.mp hc
        exact Nat.le_of_not_lt fun hlt => hno ⟨hcf, hlt⟩

end SearchState

/-- **The search loop**: run over the rest of the list, it ends in the state that
describes the whole list. -/
theorem search_spec {m : Memory} {aligned limit fuel p best min : ℕ} {done l : List Block}
    (h : Headers m p l 0) (hpos : ∀ b ∈ l, 0 < b.addr) (hlimit : ∀ b ∈ l, b.size < limit)
    (hfuel : l.length ≤ fuel) (hstate : SearchState aligned limit done best min) :
    ∃ best' min', search m aligned fuel (firstAddr l) best min = some best' ∧
      SearchState aligned limit (done ++ l) best' min' := by
  induction l generalizing p done best min fuel with
  | nil =>
      refine ⟨best, min, ?_, by simpa using hstate⟩
      cases fuel <;> simp [search]
  | cons b l ih =>
      obtain ⟨fuel, rfl⟩ : ∃ k, fuel = k + 1 :=
        Nat.exists_eq_add_one.mpr (lt_of_lt_of_le (Nat.succ_pos _) hfuel)
      obtain ⟨⟨hsize, hfree, -, hnext⟩, hrest⟩ := h
      have hb : b.addr ≠ 0 := (hpos b List.mem_cons_self).ne'
      have hl : ∀ c ∈ l, 0 < c.addr := fun c hc => hpos c (List.mem_cons_of_mem b hc)
      have hl' : ∀ c ∈ l, c.size < limit := fun c hc => hlimit c (List.mem_cons_of_mem b hc)
      have hlen : l.length ≤ fuel := Nat.le_of_succ_le_succ hfuel
      rw [firstAddr, firstKey_cons, search, if_neg hb, hsize, hfree, hnext,
        show done ++ b :: l = (done ++ [b]) ++ l by simp]
      by_cases hbetter : b.free = true ∧ b.size ≥ aligned ∧ b.size < min
      · rw [if_pos hbetter]
        exact ih hrest hl hl' hlen (hstate.take ⟨hbetter.1, hbetter.2.1⟩ hbetter.2.2)
      · rw [if_neg hbetter]
        refine ih hrest hl hl' hlen (hstate.pass (hlimit b List.mem_cons_self) ?_)
        exact fun hcontra => hbetter ⟨hcontra.1.1, hcontra.1.2, hcontra.2⟩

/-! ## The tiling -/

/-- The blocks in memory tile `[lo, hi)`, and every size is a multiple of 8. -/
structure Blocks (lo hi : ℕ) (m : Memory) (l : List Block) : Prop where
  headers : Headers m 0 l 0
  tiles : Tiles lo l hi
  size_dvd : ∀ b ∈ l, 8 ∣ b.size

/-- Every block has room for a header and 8 bytes more. -/
def Roomy (l : List Block) : Prop := ∀ b ∈ l, 40 ≤ b.size

/-- The region of the allocator: aligned, behind the page of null and not wrapping around. -/
structure Region (lo hi : ℕ) : Prop where
  page_le : 4096 ≤ lo
  lo_lt : lo < hi
  hi_le : hi ≤ 2 ^ 64
  lo_dvd : 8 ∣ lo

theorem Region.lo_pos {lo hi : ℕ} (h : Region lo hi) : 0 < lo :=
  lt_of_lt_of_le (by norm_num) h.page_le

namespace Blocks

variable {lo hi a : ℕ} {m m' : Memory} {l pre post : List Block} {b x y : Block}

theorem pos (h : Blocks lo hi m l) (hr : Region lo hi) (hb : b ∈ l) : 0 < b.addr :=
  lt_of_lt_of_le hr.lo_pos (h.tiles.bounds hb).1

theorem end_le (h : Blocks lo hi m l) (hr : Region lo hi) (hb : b ∈ l) :
    b.addr + b.size ≤ 2 ^ 64 :=
  (h.tiles.bounds hb).2.trans hr.hi_le

theorem size_lt (h : Blocks lo hi m l) (hr : Region lo hi) (hb : b ∈ l) : b.size < 2 ^ 64 := by
  have := h.pos hr hb
  have := h.end_le hr hb
  omega

/-- Every block starts at a multiple of 8. -/
theorem addr_dvd (h : Blocks lo hi m l) (hr : Region lo hi) (hb : b ∈ l) : 8 ∣ b.addr := by
  obtain ⟨pre, post, rfl⟩ := List.append_of_mem hb
  obtain ⟨mid, hpre, rfl, -⟩ := Tiles.append_iff.mp h.tiles
  rw [← hpre.sum_size]
  refine Nat.dvd_add hr.lo_dvd (List.dvd_sum fun n hn => ?_)
  obtain ⟨c, hc, rfl⟩ := List.mem_map.mp hn
  exact h.size_dvd c (List.mem_append_left _ hc)

theorem spaced (h : Blocks lo hi m l) (hbig : Roomy l) : Spaced l := by
  apply h.tiles.pairwise.imp_of_mem
  intro b c hb _ hbc
  have := hbig b hb
  omega

/-- Different blocks do not overlap. -/
theorem disjoint (h : Blocks lo hi m l) (hx : x ∈ l) (hy : y ∈ l) (hne : x ≠ y) :
    x.addr + x.size ≤ y.addr ∨ y.addr + y.size ≤ x.addr := by
  have hsym : l.Pairwise fun b c => b.addr + b.size ≤ c.addr ∨ c.addr + c.size ≤ b.addr :=
    h.tiles.pairwise.imp fun h => Or.inl h
  have : Std.Symm fun b c : Tile => b.addr + b.size ≤ c.addr ∨ c.addr + c.size ≤ b.addr :=
    ⟨fun _ _ h => h.symm⟩
  exact hsym.forall hx hy hne

/-- There are at most as many blocks as the region has bytes. -/
theorem length_le (h : Blocks lo hi m l) (hpos : ∀ b ∈ l, 0 < b.size) : l.length ≤ hi - lo := by
  have hsum := h.tiles.sum_size
  have hlen : (l.map Tile.size).length ≤ (l.map Tile.size).sum :=
    List.length_le_sum_of_one_le _ fun n hn => by
      obtain ⟨c, hc, rfl⟩ := List.mem_map.mp hn
      exact hpos c hc
  rw [List.length_map] at hlen
  omega

/-- **Frame rule.**  Memory outside the headers does not matter. -/
theorem frame (h : Blocks lo hi m l) (hsame : ∀ b ∈ l, SameHeader m m' b.addr) :
    Blocks lo hi m' l :=
  ⟨headers_frame h.headers hsame, h.tiles, h.size_dvd⟩

/-- Setting the flag of a block. -/
theorem setIsFree {f : Bool} (h : Blocks lo hi m (pre ++ b :: post))
    (hbig : Roomy (pre ++ b :: post)) :
    Blocks lo hi (BestFit.setIsFree m b.addr f) (pre ++ { b with free := f } :: post) := by
  refine ⟨headers_setIsFree h.headers (h.spaced hbig), h.tiles.setFree, fun c hc => ?_⟩
  rcases List.mem_append.mp hc with hc | hc
  · exact h.size_dvd c (List.mem_append_left _ hc)
  rcases List.mem_cons.mp hc with rfl | hc
  · exact h.size_dvd b (by simp)
  · exact h.size_dvd c (by simp [hc])

/-- Splitting a block. -/
theorem splitBlock (h : Blocks lo hi m (pre ++ b :: post)) (hr : Region lo hi)
    (hbig : Roomy (pre ++ b :: post)) (ha : 40 ≤ a) (hab : a + 40 ≤ b.size) (hdvd : 8 ∣ a) :
    Blocks lo hi (BestFitAllocator.splitBlock m b.addr a)
      (pre ++ ⟨b.addr, a, b.free⟩ :: ⟨b.addr + a, b.size - a, true⟩ :: post) := by
  have hb : b ∈ pre ++ b :: post := by simp
  have hpost : ∀ c ∈ post, b.addr + b.size ≤ c.addr := fun c hc =>
    (List.pairwise_cons.mp (List.pairwise_append.mp h.tiles.pairwise).2.1).1 c hc
  have hlt : ∀ c ∈ post, c.addr < 2 ^ 64 := fun c hc => by
    have hc' : c ∈ pre ++ b :: post := by simp [hc]
    have := h.end_le hr hc'
    have := hbig c hc'
    omega
  refine ⟨headers_splitBlock h.headers (h.spaced hbig) hpost hlt (by omega) (by omega)
    (h.end_le hr hb) (h.size_lt hr hb), h.tiles.split (by omega), fun c hc => ?_⟩
  rcases List.mem_append.mp hc with hc | hc
  · exact h.size_dvd c (List.mem_append_left _ hc)
  rcases List.mem_cons.mp hc with rfl | hc
  · exact hdvd
  rcases List.mem_cons.mp hc with rfl | hc
  · exact Nat.dvd_sub (h.size_dvd b hb) hdvd
  · exact h.size_dvd c (by simp [hc])

/-- Absorbing a block into the one before it. -/
theorem absorb (h : Blocks lo hi m (pre ++ x :: y :: post)) (hr : Region lo hi)
    (hbig : Roomy (pre ++ x :: y :: post)) :
    Blocks lo hi (BestFit.absorb m x.addr y.addr)
      (pre ++ { x with size := x.size + y.size } :: post) := by
  have hmem : ∀ c ∈ post, c ∈ pre ++ x :: y :: post := fun c hc => by simp [hc]
  have hlt : ∀ c ∈ pre ++ x :: y :: post, c.addr < 2 ^ 64 := fun c hc => by
    have := h.end_le hr hc
    have := hbig c hc
    omega
  have htiles := h.tiles.merge
  have hsize : x.size + y.size < 2 ^ 64 := by
    have hend : x.addr + (x.size + y.size) ≤ hi :=
      (htiles.bounds (b := { x with size := x.size + y.size }) (by simp)).2
    have := h.pos hr (b := x) (by simp)
    have := hr.hi_le
    omega
  refine ⟨headers_absorb h.headers (h.spaced hbig) (fun c hc => h.pos hr (hmem c hc))
    (hlt x (by simp)) (fun c hc => hlt c (hmem c hc)) hsize, htiles, fun c hc => ?_⟩
  rcases List.mem_append.mp hc with hc | hc
  · exact h.size_dvd c (List.mem_append_left _ hc)
  rcases List.mem_cons.mp hc with rfl | hc
  · exact Nat.dvd_add (h.size_dvd x (by simp)) (h.size_dvd y (by simp))
  · exact h.size_dvd c (hmem c hc)

end Blocks

end BestFit
