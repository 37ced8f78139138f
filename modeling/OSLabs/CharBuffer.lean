/-
# Buffers of characters

A buffer has a size and bytes, and logs what is written into it, also where the index is outside.
Writing a text one byte after the other keeps inside exactly when the text fits.
-/
import OSLabs.CharArray

/-- `char[size]`, with the writes so far. -/
structure CharBuffer where
  size : ℕ
  chars : Chars
  written : List (ℕ × UInt8)

namespace CharBuffer

/-- `new char[size]`; the bytes are not initialised. -/
def alloc (size : ℕ) (garbage : Chars) : CharBuffer := ⟨size, garbage, []⟩

/-- `b[i] = c`. -/
def write (b : CharBuffer) (i : ℕ) (c : UInt8) : CharBuffer :=
  { b with chars := Function.update b.chars i c, written := b.written ++ [(i, c)] }

/-- The bytes of a text are written one after the other, from `i` on. -/
def writeAll (b : CharBuffer) : ℕ → List UInt8 → CharBuffer
  | _, [] => b
  | i, c :: l => writeAll (b.write i c) (i + 1) l

/-- The string in the buffer. -/
def text (b : CharBuffer) : List UInt8 := b.chars.text b.size

/-- No write was outside. -/
def Inside (b : CharBuffer) : Prop := ∀ w ∈ b.written, w.1 < b.size

instance (b : CharBuffer) : Decidable b.Inside := inferInstanceAs (Decidable (∀ _ ∈ _, _))

/-- The terminating zero was written at the last index, and no other byte there and no other
zero. -/
structure Terminated (b : CharBuffer) : Prop where
  zero : (b.size - 1, 0) ∈ b.written
  only : ∀ w ∈ b.written, w.2 = 0 ↔ w.1 = b.size - 1

variable {b : CharBuffer} {i n : ℕ} {c : UInt8} {l l' : List UInt8} {garbage : Chars}

@[simp] theorem size_alloc : (alloc n garbage).size = n := rfl

@[simp] theorem written_alloc : (alloc n garbage).written = [] := rfl

@[simp] theorem size_write : (b.write i c).size = b.size := rfl

@[simp] theorem size_writeAll : (b.writeAll i l).size = b.size := by
  induction l generalizing b i with
  | nil => rfl
  | cons c l ih => rw [writeAll, ih, size_write]

/-- What a text leaves in the buffer. -/
theorem chars_writeAll : (b.writeAll i l).chars = b.chars.store i l := by
  induction l generalizing b i with
  | nil => rfl
  | cons c l ih =>
      rw [writeAll, ih]
      rfl

/-- The log of a text: its bytes at the indices from `i` on. -/
theorem written_writeAll : (b.writeAll i l).written = b.written ++ (List.range' i l.length).zip l := by
  induction l generalizing b i with
  | nil => exact (List.append_nil b.written).symm
  | cons c l ih =>
      rw [writeAll, ih, List.length_cons, List.range'_succ, List.zip_cons_cons]
      show (b.written ++ [(i, c)]) ++ _ = _
      rw [List.append_assoc, List.singleton_append]

/-- Two texts are written one behind the other. -/
theorem writeAll_append : b.writeAll i (l ++ l') = (b.writeAll i l).writeAll (i + l.length) l' := by
  induction l generalizing b i with
  | nil => rfl
  | cons c l ih =>
      rw [List.cons_append, writeAll, writeAll, ih, List.length_cons, Nat.add_right_comm,
        Nat.add_assoc]

/-- The last byte of a text. -/
theorem writeAll_concat : b.writeAll i (l ++ [c]) = (b.writeAll i l).write (i + l.length) c := by
  rw [writeAll_append]
  rfl

theorem mem_written_writeAll {w : ℕ × UInt8} (hw : w ∈ ((alloc n garbage).writeAll 0 l).written) :
    w.1 < l.length ∧ l[w.1]? = some w.2 := by
  rw [written_writeAll, written_alloc, List.nil_append] at hw
  obtain ⟨j, hj, rfl⟩ := List.getElem_of_mem hw
  rw [List.length_zip, List.length_range', min_self] at hj
  rw [List.getElem_zip, List.getElem_range']
  refine ⟨by omega, ?_⟩
  rw [Nat.zero_add, Nat.one_mul, List.getElem?_eq_getElem hj]

theorem inside_write_iff : (b.write i c).Inside ↔ b.Inside ∧ i < b.size := by
  constructor
  · intro h
    exact ⟨fun w hw => h w (List.mem_append_left _ hw),
      h (i, c) (List.mem_append_right _ List.mem_cons_self)⟩
  · rintro ⟨h, hi⟩ w hw
    rcases List.mem_append.mp hw with hw | hw
    · exact h w hw
    · rw [List.mem_singleton.mp hw]
      exact hi

/-- **A text keeps inside exactly if it fits.** -/
theorem inside_writeAll_iff (hl : l ≠ []) :
    (b.writeAll i l).Inside ↔ b.Inside ∧ i + l.length ≤ b.size := by
  induction l generalizing b i with
  | nil => exact absurd rfl hl
  | cons c l ih =>
      rw [writeAll, List.length_cons]
      by_cases hnil : l = []
      · rw [hnil, writeAll, inside_write_iff, List.length_nil, Nat.succ_le_iff]
      · rw [ih hnil, inside_write_iff, size_write, and_assoc]
        have hpos := List.length_pos_of_ne_nil hnil
        constructor
        · rintro ⟨hb, -, hle⟩
          exact ⟨hb, by omega⟩
        · rintro ⟨hb, hle⟩
          exact ⟨hb, by omega, by omega⟩

theorem inside_alloc : (alloc n garbage).Inside := by
  intro w hw
  cases hw

/-- **A string in a buffer of its exact size.** -/
theorem terminated_writeAll (hzero : 0 ∉ l) :
    ((alloc (l.length + 1) garbage).writeAll 0 (l ++ [0])).Terminated := by
  constructor
  · rw [size_writeAll, size_alloc, writeAll_concat, Nat.zero_add]
    exact List.mem_append_right _ List.mem_cons_self
  · intro w hw
    obtain ⟨hlt, hget⟩ := mem_written_writeAll hw
    rw [List.length_append, List.length_singleton] at hlt
    rw [size_writeAll, size_alloc, Nat.add_sub_cancel]
    constructor
    · intro hw0
      -- A zero before the end would be a byte of the text.
      by_contra hne
      rw [List.getElem?_append_left (by omega), hw0] at hget
      exact hzero (List.mem_of_getElem? hget)
    · intro heq
      rw [heq, List.getElem?_concat_length] at hget
      exact (Option.some_inj.mp hget).symm

/-- The buffer holds the text that was written into it. -/
theorem text_writeAll (hzero : 0 ∉ l) (h : l.length ≤ b.size) :
    (b.writeAll 0 (l ++ [0])).text = l := by
  have hstring : Chars.IsString (b.writeAll 0 (l ++ [0])).chars l := by
    rw [chars_writeAll]
    exact ⟨Chars.has_store _ 0 _, hzero⟩
  rw [text, size_writeAll]
  exact hstring.text_eq h

end CharBuffer
