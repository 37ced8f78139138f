/-
# Byte memories

A memory is a total map from addresses to bytes.  Little-endian numbers of any
width are read from and written to it; the lemmas say what a write does to a read
of the same cells, to a read of other cells, and to every byte outside it.
-/
import Mathlib

/-- A memory: one byte at every address. -/
abbrev Memory := ℕ → UInt8

namespace Memory

/-! ## Reading and writing -/

/-- The little-endian number in the `w` bytes at address `a`. -/
def read (m : Memory) : (w a : ℕ) → ℕ
  | 0, _ => 0
  | w + 1, a => (m a).toNat + 256 * read m w (a + 1)

/-- The memory after storing `v` little-endian into the `w` bytes at address `a`. -/
def write (m : Memory) : (w a v : ℕ) → Memory
  | 0, _, _ => m
  | w + 1, a, v => Function.update (write m w (a + 1) (v / 256)) a (UInt8.ofNat v)

/-- A 64-bit load. -/
abbrev load64 (m : Memory) (a : ℕ) : ℕ := m.read 8 a

/-- A 64-bit store. -/
abbrev store64 (m : Memory) (a v : ℕ) : Memory := m.write 8 a v

/-! ## Frame lemmas -/

/-- A write changes no byte outside its cells. -/
theorem write_outside (m : Memory) (w a v x : ℕ) (hx : x < a ∨ a + w ≤ x) :
    m.write w a v x = m x := by
  induction w generalizing a v with
  | zero => rfl
  | succ w ih =>
      rw [write, Function.update_of_ne (by omega)]
      exact ih (a + 1) (v / 256) (by omega)

/-- A store changes no byte outside its word. -/
theorem store64_outside (m : Memory) {a v x : ℕ} (hx : x < a ∨ a + 8 ≤ x) :
    m.store64 a v x = m x :=
  write_outside m 8 a v x hx

/-- A read depends on the bytes of its cells only. -/
theorem read_congr {m m' : Memory} {w a : ℕ} (h : ∀ x, a ≤ x → x < a + w → m x = m' x) :
    m.read w a = m'.read w a := by
  induction w generalizing a with
  | zero => rfl
  | succ w ih =>
      rw [read, read, h a le_rfl (by omega), ih (fun x h₁ h₂ => h x (by omega) (by omega))]

/-- A read of cells disjoint from a write sees the old memory. -/
theorem read_write_disjoint (m : Memory) {w a v u b : ℕ} (h : a + w ≤ b ∨ b + u ≤ a) :
    (m.write w a v).read u b = m.read u b :=
  read_congr fun x h₁ h₂ => write_outside m w a v x (by omega)

/-- A read of the cells just written sees the stored number. -/
theorem read_write_same (m : Memory) (w a v : ℕ) :
    (m.write w a v).read w a = v % 256 ^ w := by
  induction w generalizing m a v with
  | zero => rw [read, Nat.pow_zero, Nat.mod_one]
  | succ w ih =>
      have hhead : (m.write (w + 1) a v) a = UInt8.ofNat v := by
        rw [write, Function.update_self]
      have htail : (m.write (w + 1) a v).read w (a + 1)
          = (m.write w (a + 1) (v / 256)).read w (a + 1) := by
        apply read_congr
        intro x h₁ _
        rw [write, Function.update_of_ne (by omega)]
      have hsplit : v % 256 ^ (w + 1) = v % 256 + 256 * (v / 256 % 256 ^ w) := by
        rw [pow_succ', Nat.mod_mul]
      rw [read, hhead, htail, ih, UInt8.toNat_ofNat', hsplit]

/-- A number that fits its cells is read back unchanged. -/
theorem read_write_of_lt (m : Memory) {w a v : ℕ} (hv : v < 256 ^ w) :
    (m.write w a v).read w a = v := by
  rw [read_write_same, Nat.mod_eq_of_lt hv]

/-- A read of `w` bytes is below `256 ^ w`. -/
theorem read_lt (m : Memory) (w a : ℕ) : m.read w a < 256 ^ w := by
  induction w generalizing a with
  | zero => exact Nat.one_pos
  | succ w ih =>
      have hbyte : (m a).toNat < 256 := (m a).toNat_lt
      have hrest := ih (a + 1)
      rw [read, pow_succ]
      omega

/-! ## Pointers in memory -/

/-- An address as a pointer: `0` is null. -/
def toPtr (x : ℕ) : Option ℕ := if x = 0 then none else some x

@[simp] theorem toPtr_zero : toPtr 0 = none := rfl

theorem toPtr_of_pos {x : ℕ} (hx : 0 < x) : toPtr x = some x :=
  if_neg (by omega)

theorem toPtr_eq_none_iff {x : ℕ} : toPtr x = none ↔ x = 0 := by
  simp [toPtr]

theorem toPtr_eq_some_iff {x a : ℕ} : toPtr x = some a ↔ x = a ∧ 0 < a := by
  rw [toPtr]
  split_ifs with hx
  · simp only [false_iff]
    omega
  · rw [Option.some_inj]
    omega

theorem toPtr_inj {x y : ℕ} (h : toPtr x = toPtr y) : x = y := by
  by_cases hx : x = 0
  · rw [hx, toPtr_zero] at h
    rw [hx, toPtr_eq_none_iff.mp h.symm]
  · rw [toPtr_of_pos (Nat.pos_of_ne_zero hx)] at h
    exact (toPtr_eq_some_iff.mp h.symm).1.symm

/-- The pointer stored at an address. -/
def loadPtr (m : Memory) (a : ℕ) : Option ℕ := toPtr (m.load64 a)

/-- A stored address is loaded back as a pointer. -/
theorem loadPtr_store64_same (m : Memory) {a v : ℕ} (hv : v < 2 ^ 64) :
    (m.store64 a v).loadPtr a = toPtr v := by
  rw [loadPtr, load64, store64, read_write_of_lt m (by simpa using hv)]

/-- A store leaves the pointers in disjoint words alone. -/
theorem loadPtr_store64_disjoint (m : Memory) {a b v : ℕ} (h : a + 8 ≤ b ∨ b + 8 ≤ a) :
    (m.store64 a v).loadPtr b = m.loadPtr b := by
  rw [loadPtr, loadPtr, load64, store64, read_write_disjoint m h]

/-- A pointer depends on the eight bytes of its word only. -/
theorem loadPtr_congr {m m' : Memory} {a : ℕ} (h : ∀ x, a ≤ x → x < a + 8 → m x = m' x) :
    m.loadPtr a = m'.loadPtr a := by
  rw [loadPtr, loadPtr, load64, load64, read_congr h]

end Memory
