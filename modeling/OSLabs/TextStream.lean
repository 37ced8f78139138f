/-
# Reading a stream of text

What `fgets` and `scanf("%ns")` take from a stream of bytes.  A stream is cut into chunks, each
of them ending behind a newline, at the bound of the array or at the end of the stream; put
together again the chunks are the stream.  Nothing here mentions a program.
-/
import OSLabs.CharArray

namespace TextStream

/-! ## Lines -/

/-- The bytes that are read in one go: at most `n`, up to a newline. -/
def takeLine : ℕ → List UInt8 → List UInt8
  | 0, _ => []
  | _ + 1, [] => []
  | n + 1, c :: input => if c = 10 then [c] else c :: takeLine n input

/-- `fgets` into an array of `n` bytes: the array and the rest of the stream, or nothing at the
end of the stream. -/
def fgets (n : ℕ) (s : Chars) (input : List UInt8) : Option (Chars × List UInt8) :=
  match input with
  | [] => none
  | _ => some (s.store 0 (takeLine (n - 1) input ++ [0]),
      input.drop (takeLine (n - 1) input).length)

/-- The chunks of at most `n` bytes, of a stream of at most `fuel` bytes. -/
def chunksFrom (n : ℕ) : ℕ → List UInt8 → List (List UInt8)
  | 0, _ => []
  | _ + 1, [] => []
  | fuel + 1, c :: input =>
    let line := takeLine n (c :: input)
    line :: chunksFrom n fuel ((c :: input).drop line.length)

/-- All chunks of a stream. -/
def chunks (n : ℕ) (input : List UInt8) : List (List UInt8) := chunksFrom n input.length input

/-- The lines of a text, of any length. -/
def lines (input : List UInt8) : List (List UInt8) := chunks (input.length + 1) input

section Lines

variable {n : ℕ} {c : UInt8} {input : List UInt8}

theorem isPrefix_takeLine (n : ℕ) (input : List UInt8) : takeLine n input <+: input := by
  induction n generalizing input with
  | zero => exact List.nil_prefix
  | succ n ih =>
      cases input with
      | nil => exact List.prefix_rfl
      | cons c input =>
          rw [takeLine]
          split_ifs
          · exact ⟨input, rfl⟩
          · exact (List.prefix_cons_inj c).mpr (ih input)

theorem takeLine_append_drop (n : ℕ) (input : List UInt8) :
    takeLine n input ++ input.drop (takeLine n input).length = input := by
  obtain ⟨rest, hrest⟩ := isPrefix_takeLine n input
  conv_rhs => rw [← hrest]
  conv_lhs =>
    enter [2, 2]
    rw [← hrest]
  rw [List.drop_left]

theorem length_takeLine_le (n : ℕ) (input : List UInt8) : (takeLine n input).length ≤ n := by
  induction n generalizing input with
  | zero => exact Nat.le_refl 0
  | succ n ih =>
      cases input with
      | nil => exact Nat.zero_le _
      | cons c input =>
          rw [takeLine]
          split_ifs
          · exact Nat.succ_le_succ (Nat.zero_le n)
          · exact Nat.succ_le_succ (ih input)

/-- There is no newline before the last byte. -/
theorem newline_notMem_takeLine (n : ℕ) (input : List UInt8) :
    10 ∉ (takeLine n input).dropLast := by
  induction n generalizing input with
  | zero => exact List.not_mem_nil
  | succ n ih =>
      cases input with
      | nil => exact List.not_mem_nil
      | cons c input =>
          rw [takeLine]
          split_ifs with hc
          · exact List.not_mem_nil
          · cases hline : takeLine n input with
            | nil => exact List.not_mem_nil
            | cons d line =>
              have hrest := ih input
              rw [hline] at hrest
              rw [List.dropLast_cons_of_ne_nil (List.cons_ne_nil d line)]
              exact List.not_mem_cons_of_ne_of_not_mem (Ne.symm hc) hrest

/-- A smaller bound cuts a line short. -/
theorem takeLine_eq_take {m : ℕ} (hle : n ≤ m) (input : List UInt8) :
    takeLine n input = (takeLine m input).take n := by
  induction n generalizing m input with
  | zero => rfl
  | succ n ih =>
      cases m with
      | zero => exact absurd hle (Nat.not_succ_le_zero n)
      | succ m =>
          cases input with
          | nil => rfl
          | cons c input =>
              rw [takeLine, takeLine]
              split_ifs
              · rw [List.take_succ_cons, List.take_nil]
              · rw [List.take_succ_cons, ih (Nat.le_of_succ_le_succ hle)]

/-- A line that fits under two bounds is the same under both. -/
theorem takeLine_congr {m : ℕ} (hm : (takeLine m input).length ≤ n)
    (hn : (takeLine n input).length ≤ m) : takeLine n input = takeLine m input := by
  rcases Nat.le_total n m with hle | hle
  · rw [takeLine_eq_take hle, List.take_of_length_le hm]
  · rw [takeLine_eq_take hle, List.take_of_length_le hn]

/-- A line is taken whole, or as much of it as fits. -/
theorem takeLine_line {l : List UInt8} (hl : 10 ∉ l) (n : ℕ) (next : List UInt8) :
    takeLine n (l ++ 10 :: next) = (l ++ [10]).take n := by
  induction n generalizing l with
  | zero => rfl
  | succ n ih =>
      cases l with
      | nil => exact (List.take_of_length_le (Nat.succ_le_succ (Nat.zero_le n))).symm
      | cons c l =>
          rw [List.mem_cons, not_or] at hl
          rw [List.cons_append, takeLine, if_neg (Ne.symm hl.1), ih hl.2, List.cons_append,
            List.take_succ_cons]

theorem takeLine_ne_nil (hn : 0 < n) (hinput : input ≠ []) : takeLine n input ≠ [] := by
  cases n with
  | zero => exact absurd hn (Nat.lt_irrefl 0)
  | succ n =>
      cases input with
      | nil => exact absurd rfl hinput
      | cons c input =>
          rw [takeLine]
          split_ifs <;> exact List.cons_ne_nil _ _

theorem zero_notMem_takeLine (h : 0 ∉ input) : 0 ∉ takeLine n input :=
  fun hmem => h ((isPrefix_takeLine n input).subset hmem)

/-- The array that `fgets` fills holds the line as a string. -/
theorem isString_takeLine (s : Chars) (n : ℕ) (h : 0 ∉ input) :
    Chars.IsString (s.store 0 (takeLine n input ++ [0])) (takeLine n input) :=
  ⟨Chars.has_store s 0 _, zero_notMem_takeLine h⟩

theorem fgets_eq (s : Chars) (hinput : input ≠ []) : fgets n s input =
    some (s.store 0 (takeLine (n - 1) input ++ [0]),
      input.drop (takeLine (n - 1) input).length) := by
  cases input with
  | nil => exact absurd rfl hinput
  | cons c input => rfl

/-! ## Chunks -/

theorem length_drop_takeLine (hn : 0 < n) (hinput : input ≠ []) :
    (input.drop (takeLine n input).length).length < input.length := by
  have hpos := List.length_pos_of_ne_nil (takeLine_ne_nil hn hinput)
  have hlength := congrArg List.length (takeLine_append_drop n input)
  rw [List.length_append] at hlength
  omega

/-- More fuel does not give more chunks. -/
theorem chunksFrom_eq (hn : 0 < n) {fuel fuel' : ℕ} (hfuel : input.length ≤ fuel)
    (hfuel' : input.length ≤ fuel') : chunksFrom n fuel input = chunksFrom n fuel' input := by
  induction fuel generalizing fuel' input with
  | zero =>
      obtain rfl := List.eq_nil_of_length_eq_zero (Nat.le_zero.mp hfuel)
      cases fuel' <;> rfl
  | succ fuel ih =>
      cases input with
      | nil => cases fuel' <;> rfl
      | cons c input =>
          cases fuel' with
          | zero => exact absurd hfuel' (Nat.not_succ_le_zero _)
          | succ fuel' =>
              have hlt := length_drop_takeLine hn (List.cons_ne_nil c input)
              rw [List.length_cons] at hlt hfuel hfuel'
              rw [chunksFrom, chunksFrom]
              exact congrArg _ (ih (Nat.le_trans (Nat.le_of_lt_succ hlt) (by omega)) (by omega))

@[simp] theorem chunks_nil (n : ℕ) : chunks n [] = [] := rfl

/-- The first chunk and the chunks of the rest. -/
theorem chunks_eq_cons (hn : 0 < n) (hinput : input ≠ []) : chunks n input =
    takeLine n input :: chunks n (input.drop (takeLine n input).length) := by
  have hlt := length_drop_takeLine hn hinput
  cases input with
  | nil => exact absurd rfl hinput
  | cons c input =>
      rw [List.length_cons] at hlt
      show chunksFrom n (input.length + 1) (c :: input) = _
      rw [chunksFrom, chunks, chunksFrom_eq hn (Nat.le_of_lt_succ hlt) (Nat.le_refl _)]

/-- **The chunks put together are the stream.** -/
theorem flatten_chunks (hn : 0 < n) (input : List UInt8) : (chunks n input).flatten = input := by
  induction hlen : input.length using Nat.strong_induction_on generalizing input with
  | _ k ih =>
      by_cases hinput : input = []
      · rw [hinput]
        rfl
      · -- The first chunk is not empty, so the rest is shorter.
        have hlt := length_drop_takeLine hn hinput
        rw [chunks_eq_cons hn hinput, List.flatten_cons, ih _ (hlen ▸ hlt) _ rfl]
        exact takeLine_append_drop n input

/-- A chunk is a line, or part of one, of at most `n` bytes. -/
theorem of_mem_chunks (hn : 0 < n) {l : List UInt8} (hl : l ∈ chunks n input) :
    l ≠ [] ∧ l.length ≤ n ∧ 10 ∉ l.dropLast := by
  induction hlen : input.length using Nat.strong_induction_on generalizing input with
  | _ k ih =>
      by_cases hinput : input = []
      · rw [hinput] at hl
        exact absurd hl List.not_mem_nil
      · rw [chunks_eq_cons hn hinput] at hl
        rcases List.mem_cons.mp hl with rfl | hl
        · exact ⟨takeLine_ne_nil hn hinput, length_takeLine_le n input,
            newline_notMem_takeLine n input⟩
        · exact ih _ (hlen ▸ length_drop_takeLine hn hinput) hl rfl

theorem length_takeLine_le_length (n : ℕ) (input : List UInt8) :
    (takeLine n input).length ≤ input.length := (isPrefix_takeLine n input).length_le

/-- The bound does not matter where the stream is shorter. -/
theorem chunks_congr {m : ℕ} (hn : input.length < n) (hm : input.length < m) :
    chunks n input = chunks m input := by
  induction hlen : input.length using Nat.strong_induction_on generalizing input with
  | _ k ih =>
      by_cases hinput : input = []
      · rw [hinput, chunks_nil, chunks_nil]
      · have hpos : 0 < n := Nat.zero_lt_of_lt hn
        have hfirst : takeLine n input = takeLine m input :=
          takeLine_congr ((length_takeLine_le_length m input).trans hn.le)
            ((length_takeLine_le_length n input).trans hm.le)
        have hlt := length_drop_takeLine hpos hinput
        rw [chunks_eq_cons hpos hinput, chunks_eq_cons (Nat.zero_lt_of_lt hm) hinput, ← hfirst,
          ih _ (hlen ▸ hlt) (hlt.trans hn) (hlt.trans hm) rfl]

/-- The first line and the lines of the rest. -/
theorem lines_eq_cons (hinput : input ≠ []) :
    lines input = takeLine (input.length + 1) input ::
      lines (input.drop (takeLine (input.length + 1) input).length) := by
  have hlt := length_drop_takeLine (Nat.succ_pos input.length) hinput
  rw [lines, chunks_eq_cons (Nat.succ_pos _) hinput, lines,
    chunks_congr (hlt.trans (Nat.lt_succ_self _)) (Nat.lt_succ_self _)]

/-- **Where every line fits, the chunks are the lines.** -/
theorem chunks_eq_lines (hn : 0 < n) (h : ∀ l ∈ lines input, l.length ≤ n) :
    chunks n input = lines input := by
  induction hlen : input.length using Nat.strong_induction_on generalizing input with
  | _ k ih =>
      by_cases hinput : input = []
      · rw [hinput]
        rfl
      · rw [lines_eq_cons hinput] at h
        have hfits := h _ List.mem_cons_self
        have hfirst : takeLine n input = takeLine (input.length + 1) input :=
          takeLine_congr hfits ((length_takeLine_le_length n input).trans (Nat.le_succ _))
        have hlt := length_drop_takeLine hn hinput
        rw [chunks_eq_cons hn hinput, lines_eq_cons hinput, ← hfirst]
        rw [← hfirst] at h
        rw [ih _ (hlen ▸ hlt) (fun l hl => h l (List.mem_cons_of_mem _ hl)) rfl]

theorem flatten_lines (input : List UInt8) : (lines input).flatten = input :=
  flatten_chunks (Nat.succ_pos _) input

end Lines

/-! ## Words -/

/-- `isspace`. -/
def isSpace (c : UInt8) : Bool := c = 32 ∨ (9 ≤ c ∧ c ≤ 13)

/-- `scanf("%ns")`: white space is skipped, and a word of at most `n` bytes is read. -/
def scanWord (n : ℕ) (input : List UInt8) : List UInt8 × List UInt8 :=
  let input := input.dropWhile isSpace
  let word := (input.takeWhile fun c => !isSpace c).take n
  (word, input.drop word.length)

/-- White space in front of a word does not matter. -/
theorem scanWord_cons_of_space {n : ℕ} {c : UInt8} {input : List UInt8} (hc : isSpace c = true) :
    scanWord n (c :: input) = scanWord n input := by
  unfold scanWord
  rw [List.dropWhile_cons_of_pos hc]

/-- A word of at most `n` bytes in front of white space is read, and the white space stays. -/
theorem scanWord_eq {n : ℕ} {word rest : List UInt8} {c : UInt8}
    (hne : word ≠ []) (hlen : word.length ≤ n) (hword : ∀ x ∈ word, isSpace x = false)
    (hc : isSpace c = true) : scanWord n (word ++ c :: rest) = (word, c :: rest) := by
  have hskip : (word ++ c :: rest).dropWhile isSpace = word ++ c :: rest := by
    cases word with
    | nil => exact absurd rfl hne
    | cons x word =>
        rw [List.cons_append, List.dropWhile_cons_of_neg]
        rw [hword x List.mem_cons_self]
        exact Bool.false_ne_true
  have htake : (word ++ c :: rest).takeWhile (fun x => !isSpace x) = word := by
    rw [List.takeWhile_append_of_pos fun x hx => by rw [hword x hx]; rfl]
    rw [List.takeWhile_cons_of_neg (by rw [hc]; decide), List.append_nil]
  unfold scanWord
  dsimp only
  rw [hskip, htake, List.take_of_length_le hlen, List.drop_left]

end TextStream
