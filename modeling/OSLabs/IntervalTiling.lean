/-
# Tilings of an interval

A list of tiles, each with an address, a size and a free flag, tiles `[lo, hi)` when
each tile starts where the one before it ends.  Splitting a tile and merging two
neighbours keep a tiling.  A tiling in which no two neighbours are free is determined
by its used tiles: this is the normal form that coalescing reaches.
-/
import Mathlib

/-- A tile: where it starts, how long it is, and whether it is free. -/
structure Tile where
  addr : ℕ
  size : ℕ
  free : Bool
  deriving DecidableEq, Repr

/-! ## Tilings -/

/-- The tiles of `l` fill `[lo, hi)` from left to right without gaps. -/
def Tiles : (lo : ℕ) → List Tile → (hi : ℕ) → Prop
  | lo, [], hi => lo = hi
  | lo, b :: l, hi => b.addr = lo ∧ Tiles (lo + b.size) l hi

namespace Tiles

variable {lo hi a : ℕ} {l l' pre post : List Tile} {b x y : Tile}

@[simp] theorem nil_iff : Tiles lo [] hi ↔ lo = hi := Iff.rfl

@[simp] theorem cons_iff : Tiles lo (b :: l) hi ↔ b.addr = lo ∧ Tiles (lo + b.size) l hi := Iff.rfl

/-- A tiling splits at every position. -/
theorem append_iff : Tiles lo (pre ++ post) hi ↔ ∃ mid, Tiles lo pre mid ∧ Tiles mid post hi := by
  induction pre generalizing lo with
  | nil => simp
  | cons b pre ih => simp [ih, and_assoc]

theorem le (h : Tiles lo l hi) : lo ≤ hi := by
  induction l generalizing lo with
  | nil => exact h.le
  | cons b l ih => exact (Nat.le_add_right lo b.size).trans (ih h.2)

/-- A tile lies inside the interval. -/
theorem bounds (h : Tiles lo l hi) (hb : b ∈ l) : lo ≤ b.addr ∧ b.addr + b.size ≤ hi := by
  obtain ⟨pre, post, rfl⟩ := List.append_of_mem hb
  obtain ⟨mid, h₁, h₂, h₃⟩ := append_iff.mp h
  rw [h₂]
  exact ⟨h₁.le, h₃.le⟩

/-- A tile ends before every later tile starts. -/
theorem pairwise (h : Tiles lo l hi) : l.Pairwise fun b c => b.addr + b.size ≤ c.addr := by
  induction l generalizing lo with
  | nil => exact List.Pairwise.nil
  | cons b l ih =>
      refine List.pairwise_cons.mpr ⟨fun c hc => ?_, ih h.2⟩
      rw [h.1]
      exact (bounds h.2 hc).1

/-- Tiles that are not empty start at different addresses. -/
theorem eq_of_addr_eq (h : Tiles lo l hi) (hpos : ∀ b ∈ l, 0 < b.size) (hx : x ∈ l) (hy : y ∈ l)
    (hxy : x.addr = y.addr) : x = y := by
  by_contra hne
  have hsym : l.Pairwise fun b c => b.addr + b.size ≤ c.addr ∨ c.addr + c.size ≤ b.addr :=
    h.pairwise.imp fun h => Or.inl h
  have : Std.Symm fun b c : Tile => b.addr + b.size ≤ c.addr ∨ c.addr + c.size ≤ b.addr :=
    ⟨fun _ _ h => h.symm⟩
  have := hsym.forall hx hy hne
  have hx' := hpos x hx
  have hy' := hpos y hy
  omega

/-- The sizes of the tiles add up to the length of the interval. -/
theorem sum_size (h : Tiles lo l hi) : lo + (l.map Tile.size).sum = hi := by
  induction l generalizing lo with
  | nil => exact h
  | cons b l ih =>
      rw [List.map_cons, List.sum_cons, ← Nat.add_assoc]
      exact ih h.2

/-- Changing the flag of a tile keeps the tiling. -/
theorem setFree {f : Bool} (h : Tiles lo (pre ++ b :: post) hi) :
    Tiles lo (pre ++ { b with free := f } :: post) hi := by
  rw [append_iff] at h ⊢
  exact h

/-- Splitting a tile keeps the tiling. -/
theorem split {f g : Bool} (h : Tiles lo (pre ++ b :: post) hi) (ha : a ≤ b.size) :
    Tiles lo (pre ++ ⟨b.addr, a, f⟩ :: ⟨b.addr + a, b.size - a, g⟩ :: post) hi := by
  rw [append_iff] at h ⊢
  obtain ⟨mid, h₁, rfl, h₃⟩ := h
  refine ⟨b.addr, h₁, rfl, rfl, ?_⟩
  rw [show b.addr + a + (b.size - a) = b.addr + b.size by omega]
  exact h₃

/-- Merging a tile with the next one keeps the tiling. -/
theorem merge (h : Tiles lo (pre ++ x :: y :: post) hi) :
    Tiles lo (pre ++ { x with size := x.size + y.size } :: post) hi := by
  rw [append_iff] at h ⊢
  obtain ⟨mid, h₁, h₂, -, h₃⟩ := h
  refine ⟨mid, h₁, h₂, ?_⟩
  rw [← Nat.add_assoc]
  exact h₃

end Tiles

/-! ## No two free neighbours -/

/-- No two neighbouring flags are both set. -/
def NoFreePair (flags : List Bool) : Prop := flags.IsChain fun a b => ¬ (a = true ∧ b = true)

namespace NoFreePair

variable {pre post : List Bool} {f : Bool}

/-- A used tile separates its two sides. -/
theorem append_false_iff :
    NoFreePair (pre ++ false :: post) ↔ NoFreePair pre ∧ NoFreePair post := by
  simp only [NoFreePair, List.isChain_append, List.isChain_cons]
  simp

/-- A free tile stands between tiles that are not free. -/
theorem append_true_iff :
    NoFreePair (pre ++ true :: post) ↔
      (NoFreePair pre ∧ pre.getLast? ≠ some true) ∧ NoFreePair post ∧ post.head? ≠ some true := by
  simp only [NoFreePair, List.isChain_append, List.isChain_cons]
  constructor
  · rintro ⟨hpre, ⟨hhead, hpost⟩, hcross⟩
    exact ⟨⟨hpre, fun h => hcross true h true rfl (by simp)⟩, hpost,
      fun h => hhead true h (by simp)⟩
  · rintro ⟨⟨hpre, hlast⟩, hpost, hhead⟩
    refine ⟨hpre, ⟨fun y hy hyt => hhead (by rw [← hyt.2]; exact hy), hpost⟩, ?_⟩
    rintro x hx y - ⟨rfl, -⟩
    exact hlast hx

/-- What follows a free tile at the front is not free. -/
theorem cons_true_iff :
    NoFreePair (true :: post) ↔ NoFreePair post ∧ post.head? ≠ some true := by
  rw [← List.nil_append (true :: post), append_true_iff]
  exact ⟨fun h => h.2, fun h => ⟨⟨List.isChain_nil, by simp⟩, h⟩⟩

end NoFreePair

/-! ## The normal form -/

section NormalForm

variable {lo hi : ℕ} {l l' : List Tile} {b b' : Tile}

/-- A free first tile reaches at least as far as the first tile of any other tiling with the
same used tiles. -/
theorem Tiles.size_le_of_used (h : Tiles lo (b :: l) hi) (h' : Tiles lo (b' :: l') hi)
    (hb : b.free = true) (hb' : b'.free = true) (hfree : NoFreePair ((b :: l).map Tile.free))
    (hused : ∀ c ∈ b :: l, c.free = false → c ∈ b' :: l') : b'.size ≤ b.size := by
  by_contra hlt
  cases l with
  | nil =>
      have hend : lo + b.size = hi := h.2
      have := h'.2.le
      omega
  | cons c l =>
      -- the tile behind `b` is used, and would start inside `b'`
      have hc : c.free = false := by
        by_contra hc
        exact (List.isChain_cons_cons.mp hfree).1 ⟨hb, by simpa using hc⟩
      have hmem : c ∈ l' := by
        rcases List.mem_cons.mp (hused c (by simp) hc) with rfl | hmem
        · rw [hb'] at hc
          contradiction
        · exact hmem
      have hle : lo + b'.size ≤ c.addr := (Tiles.bounds h'.2 hmem).1
      have haddr : c.addr = lo + b.size := h.2.1
      omega

/-- The first tile is determined by the used tiles. -/
theorem Tiles.head_eq_of_used (h : Tiles lo (b :: l) hi) (h' : Tiles lo (b' :: l') hi)
    (hpos : ∀ c ∈ b :: l, 0 < c.size) (hpos' : ∀ c ∈ b' :: l', 0 < c.size)
    (hfree : NoFreePair ((b :: l).map Tile.free)) (hfree' : NoFreePair ((b' :: l').map Tile.free))
    (hused : ∀ c : Tile, c.free = false → (c ∈ b :: l ↔ c ∈ b' :: l')) : b = b' := by
  have haddr : b.addr = b'.addr := h.1.trans h'.1.symm
  by_cases hb : b.free = false
  · exact eq_of_addr_eq h' hpos' ((hused b hb).mp List.mem_cons_self) List.mem_cons_self haddr
  by_cases hb' : b'.free = false
  · exact eq_of_addr_eq h hpos List.mem_cons_self ((hused b' hb').mpr List.mem_cons_self) haddr
  have hbt : b.free = true := by simpa using hb
  have hbt' : b'.free = true := by simpa using hb'
  have hle := size_le_of_used h h' hbt hbt' hfree fun c hc hcf => (hused c hcf).mp hc
  have hge := size_le_of_used h' h hbt' hbt hfree' fun c hc hcf => (hused c hcf).mpr hc
  cases b
  cases b'
  simp_all only [Tile.mk.injEq]
  exact ⟨trivial, Nat.le_antisymm hge hle, trivial⟩

/-- The first tile of a tiling is not one of the later tiles. -/
theorem Tiles.head_notMem (h : Tiles lo (b :: l) hi) (hb : 0 < b.size) : b ∉ l := by
  intro hmem
  have := (Tiles.bounds h.2 hmem).1
  have := h.1
  omega

/-- **A tiling without free neighbours is determined by its used tiles.** -/
theorem Tiles.eq_of_used (h : Tiles lo l hi) (h' : Tiles lo l' hi)
    (hpos : ∀ b ∈ l, 0 < b.size) (hpos' : ∀ b ∈ l', 0 < b.size)
    (hfree : NoFreePair (l.map Tile.free)) (hfree' : NoFreePair (l'.map Tile.free))
    (hused : ∀ b : Tile, b.free = false → (b ∈ l ↔ b ∈ l')) : l = l' := by
  induction l generalizing lo l' with
  | nil =>
      cases l' with
      | nil => rfl
      | cons b l' =>
          have := hpos' b List.mem_cons_self
          have := h'.2.le
          rw [nil_iff] at h
          omega
  | cons b l ih =>
      cases l' with
      | nil =>
          have := hpos b List.mem_cons_self
          have := h.2.le
          rw [nil_iff] at h'
          omega
      | cons b' l' =>
          obtain rfl := head_eq_of_used h h' hpos hpos' hfree hfree' hused
          have hb := hpos b List.mem_cons_self
          have htail : ∀ c : Tile, c.free = false → (c ∈ l ↔ c ∈ l') := by
            intro c hc
            by_cases hcb : c = b
            · subst hcb
              simp [h.head_notMem hb, h'.head_notMem hb]
            · simpa [hcb] using hused c hc
          rw [ih h.2 h'.2 (fun c hc => hpos c (List.mem_cons_of_mem b hc))
            (fun c hc => hpos' c (List.mem_cons_of_mem b hc)) hfree.tail hfree'.tail htail]

end NormalForm
