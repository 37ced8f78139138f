/-
# Character arrays and C strings

Byte arrays as functions, with the library functions that read and write strings in them:
a string is what stands before the first zero.  Nothing here mentions a program.
-/
import Mathlib

/-- The bytes of a character array. -/
abbrev Chars := ℕ → UInt8

namespace Chars

/-! ## Reading and writing -/

/-- The bytes of `l` stand in the array from `i` on. -/
def Has (s : Chars) : ℕ → List UInt8 → Prop
  | _, [] => True
  | i, c :: l => s i = c ∧ Has s (i + 1) l

/-- The bytes of `l` are written one after the other, from `i` on. -/
def store (s : Chars) : ℕ → List UInt8 → Chars
  | _, [] => s
  | i, c :: l => store (Function.update s i c) (i + 1) l

/-- The string that starts at `i`, if its end is among the next `n` bytes. -/
def textFrom (s : Chars) : ℕ → ℕ → List UInt8
  | 0, _ => []
  | n + 1, i => if s i = 0 then [] else s i :: textFrom s n (i + 1)

/-- The string in an array of `n` bytes. -/
def text (n : ℕ) (s : Chars) : List UInt8 := textFrom s n 0

/-- `strlen`, of a string in an array of `n` bytes. -/
def strlen (n : ℕ) (s : Chars) : ℕ := (text n s).length

/-- The bytes from `i` on that `strncpy` has still to write. -/
def strncpyFrom (src : Chars) : ℕ → Chars → ℕ → Chars
  | 0, dst, _ => dst
  | n + 1, dst, i =>
    if src i = 0 then store dst i (List.replicate (n + 1) 0)
    else strncpyFrom src n (Function.update dst i (src i)) (i + 1)

/-- `strncpy`: at most `n` bytes of a string are copied, and the rest is filled with zeros. -/
def strncpy (dst src : Chars) (n : ℕ) : Chars := strncpyFrom src n dst 0

section Has

variable {s s' : Chars} {i j n : ℕ} {c : UInt8} {l l' : List UInt8}

@[simp] theorem has_nil (s : Chars) (i : ℕ) : Has s i [] := trivial

@[simp] theorem has_cons : Has s i (c :: l) ↔ s i = c ∧ Has s (i + 1) l := Iff.rfl

theorem has_append : Has s i (l ++ l') ↔ Has s i l ∧ Has s (i + l.length) l' := by
  induction l generalizing i with
  | nil => simp
  | cons c l ih =>
      rw [List.cons_append, has_cons, has_cons, ih, List.length_cons, and_assoc,
        Nat.add_assoc, Nat.add_comm 1]

/-- Only the bytes at the places of the list count. -/
theorem has_congr (h : ∀ k, i ≤ k → k < i + l.length → s' k = s k) (hs : Has s i l) :
    Has s' i l := by
  induction l generalizing i with
  | nil => trivial
  | cons c l ih =>
      rw [List.length_cons] at h
      refine ⟨(h i le_rfl (by omega)).trans hs.1, ih (fun k hk hk' => ?_) hs.2⟩
      exact h k (by omega) (by omega)

theorem store_of_lt (l : List UInt8) (h : j < i) : store s i l j = s j := by
  induction l generalizing s i with
  | nil => rfl
  | cons c l ih =>
      rw [store, ih (by omega), Function.update_of_ne (by omega)]

/-- What was written is there. -/
theorem has_store (s : Chars) (i : ℕ) (l : List UInt8) : Has (store s i l) i l := by
  induction l generalizing s i with
  | nil => trivial
  | cons c l ih =>
      refine ⟨?_, ih _ _⟩
      rw [store, store_of_lt l (Nat.lt_succ_self i), Function.update_self]

/-- A byte is written behind what stands at the start. -/
theorem has_push (c : UInt8) (h : Has s 0 l) : Has (Function.update s l.length c) 0 (l ++ [c]) := by
  refine has_append.mpr ⟨has_congr (fun k _ hk => ?_) h, ?_, trivial⟩
  · rw [Function.update_of_ne (by omega)]
  · rw [Nat.zero_add, Function.update_self]

end Has

/-! ## Strings -/

/-- The array starts with the string `l` and its end. -/
structure IsString (s : Chars) (l : List UInt8) : Prop where
  has : Has s 0 (l ++ [0])
  noZero : 0 ∉ l

section Strings

variable {s src dst : Chars} {i n : ℕ} {l : List UInt8}

theorem zero_notMem_cons {c : UInt8} : 0 ∉ c :: l ↔ c ≠ 0 ∧ 0 ∉ l := by
  rw [List.mem_cons, not_or, ne_comm]

theorem textFrom_eq (h : Has s i (l ++ [0])) (hzero : 0 ∉ l) (hn : l.length ≤ n) :
    textFrom s n i = l := by
  induction l generalizing i n with
  | nil =>
      cases n with
      | zero => rfl
      | succ n => rw [textFrom, if_pos h.1]
  | cons c l ih =>
      obtain ⟨hc, hl⟩ := zero_notMem_cons.mp hzero
      cases n with
      | zero => exact absurd hn (Nat.not_succ_le_zero _)
      | succ n =>
          rw [textFrom, h.1, if_neg hc, ih h.2 hl (Nat.le_of_succ_le_succ hn)]

/-- The end of a string is written behind its bytes. -/
theorem isString_close (h : Has s 0 l) (hzero : 0 ∉ l) :
    IsString (Function.update s l.length 0) l :=
  ⟨has_push 0 h, hzero⟩

theorem IsString.text_eq (h : IsString s l) (hn : l.length ≤ n) : text n s = l :=
  textFrom_eq h.has h.noZero hn

theorem textFrom_noZero (s : Chars) (n i : ℕ) : 0 ∉ textFrom s n i := by
  induction n generalizing i with
  | zero => exact List.not_mem_nil
  | succ n ih =>
      rw [textFrom]
      split_ifs with h
      · exact List.not_mem_nil
      · exact zero_notMem_cons.mpr ⟨h, ih (i + 1)⟩

theorem text_noZero (n : ℕ) (s : Chars) : 0 ∉ text n s := textFrom_noZero s n 0

theorem has_textFrom (s : Chars) (n i : ℕ) : Has s i (textFrom s n i) := by
  induction n generalizing i with
  | zero => trivial
  | succ n ih =>
      rw [textFrom]
      split_ifs with h
      · trivial
      · exact ⟨rfl, ih (i + 1)⟩

theorem has_text (n : ℕ) (s : Chars) : Has s 0 (text n s) := has_textFrom s n 0

/-- Of what is stored as a string, only the bytes in front of the first zero are read. -/
theorem text_store (s : Chars) (hn : l.length ≤ n) :
    text n (s.store 0 (l ++ [0])) = l.takeWhile fun b => b ≠ 0 := by
  have hstored := has_store s 0 (l ++ [0])
  have hzero : 0 ∉ l.takeWhile fun b => b ≠ 0 := by
    intro hmem
    simpa using List.mem_takeWhile_imp hmem
  apply textFrom_eq _ hzero ((List.takeWhile_prefix _).length_le.trans hn)
  -- Behind these bytes stands a zero of the text, or the one that ends it.
  have hsplit := List.takeWhile_append_dropWhile (p := fun b : UInt8 => b ≠ 0) (l := l)
  cases hrest : l.dropWhile fun b => b ≠ 0 with
  | nil =>
    rw [hrest, List.append_nil] at hsplit
    rw [hsplit]
    exact hstored
  | cons b rest =>
    have hne : (l.dropWhile fun b => b ≠ 0) ≠ [] := by
      rw [hrest]
      exact List.cons_ne_nil _ _
    have hb : b = 0 := by
      have hhead := List.head_dropWhile_not (fun b : UInt8 => decide (b ≠ 0)) hne
      simp only [hrest, List.head_cons] at hhead
      simpa using hhead
    rw [hrest, hb] at hsplit
    have hlist : l ++ [0] = (l.takeWhile fun b => b ≠ 0) ++ [0] ++ (rest ++ [0]) := by
      conv_lhs => rw [← hsplit]
      rw [List.append_assoc, List.append_assoc, List.cons_append, List.singleton_append]
    have hfirst : Has (s.store 0 (l ++ [0])) 0
        ((l.takeWhile fun b => b ≠ 0) ++ [0] ++ (rest ++ [0])) := hlist ▸ hstored
    exact (has_append.mp hfirst).1

/-- Copying as many bytes as a string has copies the string. -/
theorem strncpyFrom_eq (h : Has src i l) (hzero : 0 ∉ l) :
    strncpyFrom src l.length dst i = store dst i l := by
  induction l generalizing dst i with
  | nil => rfl
  | cons c l ih =>
      obtain ⟨hc, hl⟩ := zero_notMem_cons.mp hzero
      rw [List.length_cons, strncpyFrom, h.1, if_neg hc, ih h.2 hl, store]

theorem strncpy_eq (h : Has src 0 l) (hzero : 0 ∉ l) :
    strncpy dst src l.length = store dst 0 l :=
  strncpyFrom_eq h hzero

/-- A string that was copied, and its end written behind it. -/
theorem isString_strncpy (h : Has src 0 l) (hzero : 0 ∉ l) :
    IsString (Function.update (strncpy dst src l.length) l.length 0) l := by
  refine isString_close ?_ hzero
  rw [strncpy_eq h hzero]
  exact has_store dst 0 l

end Strings

end Chars
