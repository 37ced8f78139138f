/-
# Block headers in memory

Which header fields survive which writes, and the three edits of the block list:
setting a free flag, splitting a block, and absorbing a block into the one before it.
`Headers m p l n` says that the headers of the blocks of `l` are in memory and are
linked in both directions, with `p` before and `n` after the list.
-/
import OSLabs.ThreadedList
import OSLabs.IntervalTiling
import OSLabs.BestFit

namespace BestFit

open Memory BestFitAllocator

/-! ## Fields -/

section Fields

variable (m : Memory) {a b : ℕ} (v : ℕ) (f : Bool)

/-- The headers at `a` and `b` do not overlap. -/
def Far (a b : ℕ) : Prop := a + 32 ≤ b ∨ b + 32 ≤ a

theorem isFree_congr {m m' : Memory} {b : ℕ} (h : m.read 1 (b + 8) = m'.read 1 (b + 8)) :
    isFree m b = isFree m' b := by
  rw [isFree, isFree, h]

/-- A header only depends on the 32 bytes at its address. -/
theorem fields_congr {m m' : Memory} {b : ℕ} (h : ∀ x, b ≤ x → x < b + 32 → m x = m' x) :
    size m b = size m' b ∧ isFree m b = isFree m' b ∧ next m b = next m' b ∧
      prev m b = prev m' b := by
  refine ⟨read_congr fun x h₁ h₂ => h x (by omega) (by omega),
    isFree_congr (read_congr fun x h₁ h₂ => h x (by omega) (by omega)),
    read_congr fun x h₁ h₂ => h x (by omega) (by omega),
    read_congr fun x h₁ h₂ => h x (by omega) (by omega)⟩

/-- A write of `w` bytes inside the header at `a` changes no byte of a header away from it. -/
theorem write_header_outside {w k x : ℕ} (hk : k + w ≤ 32) (hfar : Far a b) (h₁ : b ≤ x)
    (h₂ : x < b + 32) : m.write w (a + k) v x = m x := by
  apply write_outside m w (a + k) v x
  rcases hfar with h | h
  · exact Or.inr (by omega)
  · exact Or.inl (by omega)

@[simp] theorem size_setSize (hv : v < 2 ^ 64) : size (setSize m a v) a = v :=
  read_write_of_lt m (by simpa using hv)

@[simp] theorem size_setIsFree : size (setIsFree m a f) a = size m a :=
  read_write_disjoint m (by omega)

@[simp] theorem size_setNext : size (setNext m a v) a = size m a :=
  read_write_disjoint m (by omega)

@[simp] theorem size_setPrev : size (setPrev m a v) a = size m a :=
  read_write_disjoint m (by omega)

@[simp] theorem isFree_setSize : isFree (setSize m a v) a = isFree m a :=
  isFree_congr (read_write_disjoint m (by omega))

@[simp] theorem isFree_setIsFree : isFree (setIsFree m a f) a = f := by
  rw [isFree, setIsFree, read_write_of_lt m (by cases f <;> decide)]
  cases f <;> rfl

@[simp] theorem isFree_setNext : isFree (setNext m a v) a = isFree m a :=
  isFree_congr (read_write_disjoint m (by omega))

@[simp] theorem isFree_setPrev : isFree (setPrev m a v) a = isFree m a :=
  isFree_congr (read_write_disjoint m (by omega))

@[simp] theorem next_setSize : next (setSize m a v) a = next m a :=
  read_write_disjoint m (by omega)

@[simp] theorem next_setIsFree : next (setIsFree m a f) a = next m a :=
  read_write_disjoint m (by omega)

@[simp] theorem next_setNext (hv : v < 2 ^ 64) : next (setNext m a v) a = v :=
  read_write_of_lt m (by simpa using hv)

@[simp] theorem next_setPrev : next (setPrev m a v) a = next m a :=
  read_write_disjoint m (by omega)

@[simp] theorem prev_setSize : prev (setSize m a v) a = prev m a :=
  read_write_disjoint m (by omega)

@[simp] theorem prev_setIsFree : prev (setIsFree m a f) a = prev m a :=
  read_write_disjoint m (by omega)

@[simp] theorem prev_setNext : prev (setNext m a v) a = prev m a :=
  read_write_disjoint m (by omega)

@[simp] theorem prev_setPrev (hv : v < 2 ^ 64) : prev (setPrev m a v) a = v :=
  read_write_of_lt m (by simpa using hv)

/-- `m'` has the same header at `b` as `m`. -/
def SameHeader (m m' : Memory) (b : ℕ) : Prop :=
  size m' b = size m b ∧ isFree m' b = isFree m b ∧ next m' b = next m b ∧ prev m' b = prev m b

theorem SameHeader.refl (b : ℕ) : SameHeader m m b := ⟨rfl, rfl, rfl, rfl⟩

theorem SameHeader.trans {m m' m'' : Memory} {b : ℕ} (h : SameHeader m m' b)
    (h' : SameHeader m' m'' b) : SameHeader m m'' b :=
  ⟨h'.1.trans h.1, h'.2.1.trans h.2.1, h'.2.2.1.trans h.2.2.1, h'.2.2.2.trans h.2.2.2⟩

theorem sameHeader_setSize (h : Far a b) : SameHeader m (setSize m a v) b :=
  fields_congr fun _ h₁ h₂ => write_header_outside m v (k := 0) (by norm_num) h h₁ h₂

theorem sameHeader_setIsFree (h : Far a b) : SameHeader m (setIsFree m a f) b :=
  fields_congr fun _ h₁ h₂ => write_header_outside m _ (by norm_num) h h₁ h₂

theorem sameHeader_setNext (h : Far a b) : SameHeader m (setNext m a v) b :=
  fields_congr fun _ h₁ h₂ => write_header_outside m v (by norm_num) h h₁ h₂

theorem sameHeader_setPrev (h : Far a b) : SameHeader m (setPrev m a v) b :=
  fields_congr fun _ h₁ h₂ => write_header_outside m v (by norm_num) h h₁ h₂

end Fields

/-! ## Lists of blocks in memory -/

/-- A block of the list, without its links. -/
abbrev Block := Tile

/-- The header of `b` is in memory, with `p` as its `prev` and `n` as its `next`. -/
def HeaderAt (m : Memory) (p : ℕ) (b : Block) (n : ℕ) : Prop :=
  size m b.addr = b.size ∧ isFree m b.addr = b.free ∧ prev m b.addr = p ∧ next m b.addr = n

/-- The headers of the blocks of `l` are in memory and linked in both directions. -/
abbrev Headers (m : Memory) : (p : ℕ) → List Block → (n : ℕ) → Prop :=
  Threaded Tile.addr (HeaderAt m)

/-- The address of the first block of a null-terminated list. -/
abbrev firstAddr (l : List Block) : ℕ := firstKey Tile.addr 0 l

/-- The blocks come in ascending order, each at least a header behind the one before. -/
def Spaced (l : List Block) : Prop := l.Pairwise fun b c => b.addr + 32 ≤ c.addr

section Edits

variable {m m' : Memory} {p n : ℕ} {l pre post : List Block} {b c x y : Block}

/-- A block whose header is kept stays where it is in the list. -/
theorem HeaderAt.congr {p n : ℕ} (h : HeaderAt m p b n) (hsame : SameHeader m m' b.addr) :
    HeaderAt m' p b n :=
  ⟨hsame.1.trans h.1, hsame.2.1.trans h.2.1, hsame.2.2.2.trans h.2.2.1,
    hsame.2.2.1.trans h.2.2.2⟩

/-- **Frame rule.**  A list whose headers are kept stays in memory. -/
theorem headers_frame (h : Headers m p l n) (hsame : ∀ b ∈ l, SameHeader m m' b.addr) :
    Headers m' p l n :=
  h.imp fun b hb _ _ hat => hat.congr (hsame b hb)

/-- The `prev` of the next block, if there is one, is set to `q`. -/
def relinkNext (m : Memory) (next q : ℕ) : Memory :=
  if next ≠ 0 then setPrev m next q else m

/-- Relinking the first block of a list to what comes before it. -/
theorem headers_relinkNext {q : ℕ} (h : Headers m p l 0) (hspaced : Spaced l)
    (hpos : ∀ b ∈ l, 0 < b.addr) (hq : q < 2 ^ 64) :
    Headers (relinkNext m (firstAddr l) q) q l 0 := by
  cases l with
  | nil => trivial
  | cons c l =>
      have hc : c.addr ≠ 0 := (hpos c List.mem_cons_self).ne'
      rw [relinkNext, firstAddr, firstKey_cons, if_pos hc]
      obtain ⟨⟨hsize, hfree, -, hnext⟩, hrest⟩ := h
      refine ⟨⟨?_, ?_, prev_setPrev m q hq, ?_⟩, headers_frame hrest fun d hd => ?_⟩
      · rw [size_setPrev, hsize]
      · rw [isFree_setPrev, hfree]
      · rw [next_setPrev, hnext]
      · exact sameHeader_setPrev m q (Or.inl ((List.pairwise_cons.mp hspaced).1 d hd))

/-- Relinking the first block of a list keeps every header away from the list. -/
theorem sameHeader_relinkNext {q a : ℕ} (hfar : ∀ b ∈ l, Far b.addr a) :
    SameHeader m (relinkNext m (firstAddr l) q) a := by
  cases l with
  | nil => exact SameHeader.refl m a
  | cons c l =>
      rw [relinkNext, firstAddr, firstKey_cons]
      split_ifs
      · exact sameHeader_setPrev m q (hfar c List.mem_cons_self)
      · exact SameHeader.refl m a

/-- In a spaced list the blocks before and after a block are away from it. -/
theorem Spaced.far (h : Spaced (pre ++ b :: post)) :
    (∀ c ∈ pre, c.addr + 32 ≤ b.addr) ∧ (∀ c ∈ post, b.addr + 32 ≤ c.addr) ∧
      Spaced pre ∧ Spaced post ∧ ∀ c ∈ pre, ∀ d ∈ post, c.addr + 32 ≤ d.addr := by
  obtain ⟨hpre, hpost, hcross⟩ := List.pairwise_append.mp h
  obtain ⟨hb, hpost'⟩ := List.pairwise_cons.mp hpost
  exact ⟨fun c hc => hcross c hc b List.mem_cons_self, hb, hpre, hpost',
    fun c hc d hd => hcross c hc d (List.mem_cons_of_mem b hd)⟩

/-- **Setting the free flag of a block.** -/
theorem headers_setIsFree {f : Bool} (h : Headers m p (pre ++ b :: post) 0)
    (hspaced : Spaced (pre ++ b :: post)) :
    Headers (setIsFree m b.addr f) p (pre ++ { b with free := f } :: post) 0 := by
  obtain ⟨hpre, ⟨hsize, hfree, hprev, hnext⟩, hpost⟩ := Threaded.append_iff.mp h
  obtain ⟨hfar, hfar', -⟩ := hspaced.far
  refine Threaded.append_iff.mpr ⟨headers_frame hpre fun c hc => ?_, ⟨?_, ?_, ?_, ?_⟩,
    headers_frame hpost fun c hc => ?_⟩
  · exact sameHeader_setIsFree m f (Or.inr (hfar c hc))
  · rw [size_setIsFree, hsize]
  · rw [isFree_setIsFree]
  · rw [prev_setIsFree, hprev]
  · rw [next_setIsFree, hnext]
  · exact sameHeader_setIsFree m f (Or.inl (hfar' c hc))

/-- The memory after the block at `a` absorbs the block at `b` that follows it. -/
def absorb (m : Memory) (a b : ℕ) : Memory :=
  let m := setSize m a (size m a + size m b)
  let m := setNext m a (next m b)
  relinkNext m (next m a) a

/-- What absorbing a block writes, where the list says what is read. -/
theorem absorb_eq (h : Headers m p (pre ++ x :: y :: post) 0)
    (hspaced : Spaced (pre ++ x :: y :: post)) (hpost : ∀ b ∈ post, b.addr < 2 ^ 64) :
    absorb m x.addr y.addr = relinkNext (setNext (setSize m x.addr (x.size + y.size)) x.addr
      (firstAddr post)) (firstAddr post) x.addr := by
  obtain ⟨-, ⟨hxsize, -⟩, ⟨hysize, -, -, hynext⟩, -⟩ := Threaded.append_iff.mp h
  have hxy : x.addr + 32 ≤ y.addr := hspaced.far.2.1 y List.mem_cons_self
  have hfirst : firstAddr post < 2 ^ 64 := by
    cases post with
    | nil => norm_num
    | cons c post => exact hpost c List.mem_cons_self
  set m₁ := setSize m x.addr (x.size + y.size)
  have hnext₁ : next m₁ y.addr = firstAddr post :=
    (sameHeader_setSize m _ (Or.inl hxy)).2.2.1.trans hynext
  simp only [absorb, hxsize, hysize]
  rw [hnext₁, next_setNext m₁ _ hfirst]

/-- **Absorbing a block into the one before it.** -/
theorem headers_absorb (h : Headers m p (pre ++ x :: y :: post) 0)
    (hspaced : Spaced (pre ++ x :: y :: post)) (hpos : ∀ b ∈ post, 0 < b.addr)
    (hx : x.addr < 2 ^ 64) (hpost : ∀ b ∈ post, b.addr < 2 ^ 64)
    (hsize : x.size + y.size < 2 ^ 64) :
    Headers (absorb m x.addr y.addr) p
      (pre ++ { x with size := x.size + y.size } :: post) 0 := by
  obtain ⟨hpreH, ⟨-, hxfree, hxprev, -⟩, -, hpostH⟩ := Threaded.append_iff.mp h
  obtain ⟨hfar, hfar', hpre, hsp, hcross⟩ := hspaced.far
  have hxpost : ∀ c ∈ post, x.addr + 32 ≤ c.addr :=
    fun c hc => hfar' c (List.mem_cons_of_mem y hc)
  have hfirst : firstAddr post < 2 ^ 64 := by
    cases post with
    | nil => norm_num
    | cons c post => exact hpost c List.mem_cons_self
  set m₁ := setSize m x.addr (x.size + y.size) with hm₁
  set m₂ := setNext m₁ x.addr (firstAddr post) with hm₂
  have habsorb : absorb m x.addr y.addr = relinkNext m₂ (firstAddr post) x.addr :=
    absorb_eq h hspaced hpost
  -- headers away from `x` survive the first two writes
  have hkeep₂ : ∀ a, Far x.addr a → SameHeader m m₂ a := fun a ha =>
    (sameHeader_setSize m _ ha).trans (sameHeader_setNext m₁ _ ha)
  have hkeep : ∀ a, Far x.addr a → (∀ b ∈ post, Far b.addr a) →
      SameHeader m (relinkNext m₂ (firstAddr post) x.addr) a := fun a ha hb =>
    (hkeep₂ a ha).trans (sameHeader_relinkNext hb)
  have hxkeep : SameHeader m₂ (relinkNext m₂ (firstAddr post) x.addr) x.addr :=
    sameHeader_relinkNext fun b hb => Or.inr (hxpost b hb)
  rw [habsorb]
  refine Threaded.append_iff.mpr ⟨headers_frame hpreH fun c hc => ?_, ⟨?_, ?_, ?_, ?_⟩, ?_⟩
  · exact hkeep c.addr (Or.inr (hfar c hc)) fun d hd =>
      Or.inr (hcross c hc d (List.mem_cons_of_mem y hd))
  · rw [hxkeep.1, hm₂, size_setNext, hm₁, size_setSize m _ hsize]
  · rw [hxkeep.2.1, hm₂, isFree_setNext, hm₁, isFree_setSize, hxfree]
  · rw [hxkeep.2.2.2, hm₂, prev_setNext, hm₁, prev_setSize, hxprev]
  · rw [hxkeep.2.2.1, hm₂, next_setNext m₁ _ hfirst]
  · have hpost₂ : Headers m₂ y.addr post 0 :=
      headers_frame hpostH fun c hc => hkeep₂ c.addr (Or.inl (hxpost c hc))
    exact headers_relinkNext hpost₂ (List.pairwise_cons.mp hsp).2 hpos hx

/-- What splitting a block writes, where the list says what is read. -/
theorem splitBlock_eq {a : ℕ} (h : Headers m p (pre ++ b :: post) 0) (ha : 32 ≤ a) :
    splitBlock m b.addr a = setNext (setSize (relinkNext (setPrev (setNext (setIsFree (setSize m
      (b.addr + a) (b.size - a)) (b.addr + a) true) (b.addr + a) (firstAddr post)) (b.addr + a)
      b.addr) (firstAddr post) (b.addr + a)) b.addr a) b.addr (b.addr + a) := by
  obtain ⟨-, ⟨hbsize, -, -, hbnext⟩, -⟩ := Threaded.append_iff.mp h
  set q := b.addr + a with hq
  have hbq : Far q b.addr := Or.inr (by omega)
  set m₁ := setSize m q (b.size - a) with hm₁
  set m₂ := setIsFree m₁ q true with hm₂
  set m₃ := setNext m₂ q (firstAddr post) with hm₃
  set m₄ := setPrev m₃ q b.addr with hm₄
  have hkeep₂ : SameHeader m m₂ b.addr :=
    (sameHeader_setSize m _ hbq).trans (sameHeader_setIsFree m₁ _ hbq)
  have hkeep₄ : SameHeader m m₄ b.addr :=
    (hkeep₂.trans (sameHeader_setNext m₂ _ hbq)).trans (sameHeader_setPrev m₃ _ hbq)
  simp only [splitBlock, hbsize, ← hq, ← hm₁, ← hm₂]
  rw [hkeep₂.2.2.1, hbnext]
  simp only [← hm₃, ← hm₄]
  rw [hkeep₄.2.2.1, hbnext, relinkNext]

/-- **Splitting a block** behind its first `a` bytes. -/
theorem headers_splitBlock {a : ℕ} (h : Headers m p (pre ++ b :: post) 0)
    (hspaced : Spaced (pre ++ b :: post)) (hpost : ∀ c ∈ post, b.addr + b.size ≤ c.addr)
    (hbound : ∀ c ∈ post, c.addr < 2 ^ 64) (ha : 32 ≤ a) (hab : a + 32 ≤ b.size)
    (hb : b.addr + b.size ≤ 2 ^ 64) (hsize : b.size < 2 ^ 64) :
    Headers (splitBlock m b.addr a) p
      (pre ++ { b with size := a } :: ⟨b.addr + a, b.size - a, true⟩ :: post) 0 := by
  obtain ⟨hpreH, ⟨-, hbfree, hbprev, -⟩, hpostH⟩ := Threaded.append_iff.mp h
  obtain ⟨hfar, hfar', hpre, hsp, hcross⟩ := hspaced.far
  have hpos : ∀ c ∈ post, 0 < c.addr := fun c hc => by have := hpost c hc; omega
  have hfirst : firstAddr post < 2 ^ 64 := by
    cases post with
    | nil => norm_num
    | cons c post => exact hbound c List.mem_cons_self
  set q := b.addr + a with hq
  have hbq : Far q b.addr := Or.inr (by omega)
  have hqb : Far b.addr q := Or.inl (by omega)
  have hqpost : ∀ c ∈ post, q + 32 ≤ c.addr := fun c hc => by have := hpost c hc; omega
  -- The stores in their order: the header of the rest, the link back to it, the block itself.
  set m₁ := setSize m q (b.size - a) with hm₁
  set m₂ := setIsFree m₁ q true with hm₂
  set m₃ := setNext m₂ q (firstAddr post) with hm₃
  set m₄ := setPrev m₃ q b.addr with hm₄
  set m₅ := relinkNext m₄ (firstAddr post) q with hm₅
  set m₆ := setSize m₅ b.addr a with hm₆
  -- Which headers each of the stores leaves alone.
  have hkeep₂ : ∀ d, Far q d → SameHeader m m₂ d := fun d hd =>
    (sameHeader_setSize m _ hd).trans (sameHeader_setIsFree m₁ _ hd)
  have hkeep₄ : ∀ d, Far q d → SameHeader m m₄ d := fun d hd =>
    ((hkeep₂ d hd).trans (sameHeader_setNext m₂ _ hd)).trans (sameHeader_setPrev m₃ _ hd)
  have hkeep₅ : ∀ d, Far q d → (∀ c ∈ post, Far c.addr d) → SameHeader m m₅ d := fun d hd hc =>
    (hkeep₄ d hd).trans (sameHeader_relinkNext hc)
  have hkeep : ∀ d, Far b.addr d → SameHeader m₅ (setNext m₆ b.addr q) d := fun d hd =>
    (sameHeader_setSize m₅ _ hd).trans (sameHeader_setNext m₆ _ hd)
  have hsplit : splitBlock m b.addr a = setNext m₆ b.addr q := splitBlock_eq h ha
  have hbkeep : SameHeader m m₅ b.addr :=
    hkeep₅ b.addr hbq fun c hc => Or.inr (hfar' c hc)
  have hqkeep : SameHeader m₄ (setNext m₆ b.addr q) q :=
    (sameHeader_relinkNext fun c hc => Or.inr (hqpost c hc)).trans (hkeep q hqb)
  rw [hsplit]
  refine Threaded.append_iff.mpr ⟨headers_frame hpreH fun c hc => ?_, ⟨?_, ?_, ?_, ?_⟩,
    ⟨?_, ?_, ?_, ?_⟩, ?_⟩
  · -- The blocks in front of the one that is split.
    have hcb := hfar c hc
    exact (hkeep₅ c.addr (Or.inr (by omega)) fun d hd => Or.inr (hcross c hc d hd)).trans
      (hkeep c.addr (Or.inr hcb))
  · -- The block itself, with its new size and its new successor.
    rw [size_setNext, hm₆, size_setSize m₅ _ (by omega)]
  · rw [isFree_setNext, hm₆, isFree_setSize, hbkeep.2.1, hbfree]
  · rw [prev_setNext, hm₆, prev_setSize, hbkeep.2.2.2, hbprev]
  · rw [next_setNext m₆ _ (by omega)]
    rfl
  · -- The rest, which is free.
    rw [hqkeep.1, hm₄, size_setPrev, hm₃, size_setNext, hm₂, size_setIsFree, hm₁,
      size_setSize m _ (by omega)]
  · rw [hqkeep.2.1, hm₄, isFree_setPrev, hm₃, isFree_setNext, hm₂, isFree_setIsFree]
  · rw [hqkeep.2.2.2, hm₄, prev_setPrev m₃ _ (by omega)]
  · rw [hqkeep.2.2.1, hm₄, next_setPrev, hm₃, next_setNext m₂ _ hfirst]
  · -- The blocks behind it, of which the first is linked back to the rest.
    have hpost₄ : Headers m₄ b.addr post 0 :=
      headers_frame hpostH fun c hc => hkeep₄ c.addr (Or.inl (hqpost c hc))
    have hpost₅ : Headers m₅ q post 0 := headers_relinkNext hpost₄ hsp hpos (by omega)
    exact headers_frame hpost₅ fun c hc => hkeep c.addr (Or.inl (hfar' c hc))

end Edits

/-! ## Bytes outside the headers -/

section Outside

variable {m : Memory} {p : ℕ} {l pre post : List Block} {b x y : Block} {z : ℕ}

/-- The byte at `z` lies in no header of the list. -/
def OutsideHeaders (l : List Block) (z : ℕ) : Prop := ∀ b ∈ l, z < b.addr ∨ b.addr + 32 ≤ z

/-- A write inside the header at `a` changes no byte outside that header. -/
theorem write_header_other {w k a v : ℕ} (hk : k + w ≤ 32) (hz : z < a ∨ a + 32 ≤ z) :
    m.write w (a + k) v z = m z :=
  write_outside m w (a + k) v z (by omega)

theorem setSize_outside {a v : ℕ} (hz : z < a ∨ a + 32 ≤ z) : setSize m a v z = m z :=
  write_header_other (k := 0) (by norm_num) hz

theorem setIsFree_outside {a : ℕ} {f : Bool} (hz : z < a ∨ a + 32 ≤ z) :
    setIsFree m a f z = m z :=
  write_header_other (by norm_num) hz

theorem setNext_outside {a v : ℕ} (hz : z < a ∨ a + 32 ≤ z) : setNext m a v z = m z :=
  write_header_other (by norm_num) hz

theorem setPrev_outside {a v : ℕ} (hz : z < a ∨ a + 32 ≤ z) : setPrev m a v z = m z :=
  write_header_other (by norm_num) hz

theorem relinkNext_outside {q : ℕ} (hz : OutsideHeaders l z) :
    relinkNext m (firstAddr l) q z = m z := by
  cases l with
  | nil => rfl
  | cons c l =>
      rw [relinkNext, firstAddr, firstKey_cons]
      split_ifs
      · exact setPrev_outside (hz c List.mem_cons_self)
      · rfl

/-- **Absorbing a block** changes no byte outside the headers. -/
theorem absorb_outside (h : Headers m p (pre ++ x :: y :: post) 0)
    (hspaced : Spaced (pre ++ x :: y :: post)) (hpost : ∀ b ∈ post, b.addr < 2 ^ 64)
    (hz : OutsideHeaders (pre ++ x :: y :: post) z) : absorb m x.addr y.addr z = m z := by
  have hx := hz x (by simp)
  have hpostz : OutsideHeaders post z := fun c hc => hz c (by simp [hc])
  rw [absorb_eq h hspaced hpost, relinkNext_outside hpostz, setNext_outside hx, setSize_outside hx]

/-- **Splitting a block** changes no byte outside the headers and the new header. -/
theorem splitBlock_outside {a : ℕ} (h : Headers m p (pre ++ b :: post) 0) (ha : 32 ≤ a)
    (hz : OutsideHeaders (pre ++ b :: post) z) (hnew : z < b.addr + a ∨ b.addr + a + 32 ≤ z) :
    splitBlock m b.addr a z = m z := by
  have hb := hz b (by simp)
  have hpostz : OutsideHeaders post z := fun c hc => hz c (by simp [hc])
  rw [splitBlock_eq h ha, setNext_outside hb, setSize_outside hb, relinkNext_outside hpostz,
    setPrev_outside hnew, setNext_outside hnew, setIsFree_outside hnew, setSize_outside hnew]

end Outside

end BestFit
