/-
# The loops of the translation libraries

What each loop of the two libraries writes, and from it the buffers of a whole call: the text is a
sign and digits, the ternary digits of the absolute value in one library and the bits of the number
itself, as the machine holds it, in the other.
-/
import OSLabs.Numeral
import OSLabs.Translation

open Numeral

/-! ## Machine arithmetic -/

/-- The character of a remainder. -/
theorem charOf_digit {v : Int64} {d : ℕ} (hv : v.toInt = d) (hd : d < 10) :
    charOf (v + 48) = digitChar d := by
  obtain rfl : v = Int64.ofNat d := by
    rw [← Int64.toInt_inj, hv, Int64.toInt_ofNat_of_lt (by omega)]
  interval_cases d <;> rfl

/-- The lowest bit. -/
theorem toInt_and_one (x : Int64) : (x &&& 1).toInt = x.toInt % 2 := by
  have h : (x &&& 1).toBitVec.toNat = x.toBitVec.toNat % 2 := by
    rw [Int64.toBitVec_and, BitVec.toNat_and]
    exact Nat.and_one_is_mod _
  rw [← Int64.toInt_toBitVec, ← Int64.toInt_toBitVec, BitVec.toInt_eq_toNat_cond,
    BitVec.toInt_eq_toNat_cond, h]
  split_ifs <;> omega

/-- The inverted lowest bit. -/
theorem toInt_xor_one {v : Int64} {d : ℕ} (hv : v.toInt = d) (hd : d < 2) :
    (v ^^^ 1).toInt = ((1 - d : ℕ) : ℤ) := by
  obtain rfl : v = Int64.ofNat d := by
    rw [← Int64.toInt_inj, hv, Int64.toInt_ofNat_of_lt (by omega)]
  interval_cases d <;> rfl

/-- A shift by one place halves. -/
theorem toInt_shiftRight_one (x : Int64) : (x >>> 1).toInt = x.toInt / 2 := by
  have h : (x >>> 1).toBitVec = x.toBitVec.sshiftRight 1 := rfl
  rw [← Int64.toInt_toBitVec, h, BitVec.toInt_sshiftRight, Int.shiftRight_eq_div_pow]
  rfl

theorem toInt_ne_zero {x : Int64} (hx : x ≠ 0) : x.toInt ≠ 0 :=
  fun h => hx (Int64.toInt_inj.mp h)

theorem lt_zero_iff {x : Int64} : x < 0 ↔ x.toInt < 0 := Int64.lt_iff_toInt_lt

/-! ## Results -/

/-- The call returned this text, in a buffer of its exact size that was filled from the start. -/
def Translated.Returns (t : Translated) (resultBytes : Chars) (text : List UInt8) : Prop :=
  t.result = (CharBuffer.alloc (text.length + 1) resultBytes).writeAll 0 (text ++ [0])

/-- A sign and digits have no zero byte. -/
theorem zero_notMem_sign {x : ℤ} {ds : List ℕ} (hds : ∀ d ∈ ds, d < 10) :
    (0 : UInt8) ∉ signText x ++ ds.map digitChar := by
  intro h
  rcases List.mem_append.mp h with h | h
  · rw [signText] at h
    split_ifs at h
    · exact absurd (List.mem_singleton.mp h) (by decide)
    · cases h
  · obtain ⟨d, hd, heq⟩ := List.mem_map.mp h
    exact digitChar_ne (hds d hd) (by decide) heq

theorem Translated.Returns.text_eq {t : Translated} {resultBytes : Chars} {text : List UInt8}
    (h : t.Returns resultBytes text) (hzero : 0 ∉ text) : t.text = text := by
  rw [Translated.text, h]
  exact CharBuffer.text_writeAll hzero (Nat.le_succ _)

/-- The end of both calls: the sign, the digits behind it, and the zero. -/
theorem returns_sign (x : Int64) (temp : Option CharBuffer) (resultBytes : Chars)
    (l : List UInt8) :
    let w := writeSign (decide (x < 0))
      (.alloc (l.length + if decide (x < 0) = true then 2 else 1) resultBytes)
    Translated.Returns ⟨temp, (w.1.writeAll w.2 l).write (w.2 + l.length) 0⟩ resultBytes
      (signText x.toInt ++ l) := by
  by_cases hx : x < 0
  · simp only [decide_eq_true hx, writeSign, if_true, signText, if_pos (lt_zero_iff.mp hx),
      Translated.Returns]
    rw [CharBuffer.writeAll_concat, List.singleton_append, CharBuffer.writeAll, List.length_cons,
      Nat.zero_add, Nat.zero_add, Nat.add_comm 1]
  · simp only [decide_eq_false hx, writeSign, Bool.false_eq_true, if_false, signText,
      if_neg (lt_zero_iff.not.mp hx), Translated.Returns, List.nil_append]
    rw [CharBuffer.writeAll_concat]

/-- The branch for 0. -/
theorem translateZero_returns (resultBytes : Chars) :
    (translateZero resultBytes).Returns resultBytes [48] := rfl

/-! ## `tr_tri.cpp` -/

namespace TrTri

/-- The digit loop writes the ternary digits of a positive number, the lowest first. -/
theorem storeDigits_eq (temp : CharBuffer) (pos : ℕ) (x : Int64) :
    storeDigits temp pos x = (temp.writeAll pos ((Nat.digits 3 x.toInt.toNat).map digitChar),
      pos + (Nat.digits 3 x.toInt.toNat).length) := by
  fun_induction storeDigits temp pos x with
  | case1 temp pos x hpos ih =>
      have hlt : 0 < x.toInt := Int64.lt_iff_toInt_lt.mp hpos
      have hdiv : (x / 3).toInt.toNat = x.toInt.toNat / 3 := by
        rw [Int64.toInt_div_of_ne_right x 3 (by decide), show (3 : Int64).toInt = 3 from rfl,
          Int.tdiv_eq_ediv_of_nonneg hlt.le]
        omega
      have hmod : (x % 3).toInt = (x.toInt.toNat % 3 : ℕ) := by
        rw [Int64.toInt_mod, show (3 : Int64).toInt = 3 from rfl, Int.tmod_eq_emod_of_nonneg hlt.le]
        omega
      have hdigits := Nat.digits_def' (b := 3) (n := x.toInt.toNat) (by decide) (by omega)
      rw [ih, hdiv, charOf_digit hmod (by omega), hdigits, List.map_cons, CharBuffer.writeAll,
        List.length_cons, Nat.add_right_comm, Nat.add_assoc]
  | case2 temp pos x hpos =>
      have hle : x.toInt.toNat = 0 := by
        rw [Int64.lt_iff_toInt_lt] at hpos
        have hzero : (0 : Int64).toInt = 0 := rfl
        omega
      rw [hle]
      rfl

/-- The copying loop turns the digits around. -/
theorem copyBack_eq {temp result : CharBuffer} {j : ℕ} {l : List UInt8}
    (h : temp.chars.Has 0 l) :
    copyBack temp l.length result j = (result.writeAll j l.reverse, j + l.length) := by
  induction l using List.reverseRecOn generalizing result j with
  | nil => rfl
  | append_singleton l c ih =>
      obtain ⟨hl, hc, -⟩ := Chars.has_append.mp h
      rw [Nat.zero_add] at hc
      rw [List.length_append, List.length_singleton, copyBack, ih hl, hc, List.reverse_append,
        List.reverse_singleton, List.singleton_append, CharBuffer.writeAll, Nat.add_right_comm,
        Nat.add_assoc]

/-- The absolute value that the digit loop works on; 0 for the lowest `long`. -/
def magnitude (x : Int64) : ℕ := (if x < 0 then -x else x).toInt.toNat

theorem magnitude_eq {x : Int64} (hx : x ≠ Int64.minValue) : magnitude x = x.toInt.natAbs := by
  rw [magnitude]
  split_ifs with hneg
  · have hlow := x.le_toInt
    have hne : x.toInt ≠ -2 ^ 63 := fun h => hx (Int64.toInt_inj.mp (h.trans Int64.toInt_minValue.symm))
    have hlt := lt_zero_iff.mp hneg
    rw [Int64.toInt_neg, Int.bmod_eq_of_le (by omega) (by omega)]
    omega
  · have hge := lt_zero_iff.not.mp hneg
    omega

theorem magnitude_minValue : magnitude Int64.minValue = 0 := by decide

/-- What the call returns and what it leaves in `temp`. -/
theorem translation_spec {x : Int64} (hx : x ≠ 0) (tempBytes resultBytes : Chars) :
    (translation tempBytes resultBytes x).temp =
        some ((CharBuffer.alloc maxDigits tempBytes).writeAll 0
          ((Nat.digits 3 (magnitude x)).map digitChar)) ∧
      (translation tempBytes resultBytes x).Returns resultBytes
        (signText x.toInt ++ (Nat.digits 3 (magnitude x)).reverse.map digitChar) := by
  have hchars : ((CharBuffer.alloc maxDigits tempBytes).writeAll 0
      ((Nat.digits 3 (magnitude x)).map digitChar)).chars.Has 0
        ((Nat.digits 3 (magnitude x)).map digitChar) := by
    rw [CharBuffer.chars_writeAll]
    exact Chars.has_store _ 0 _
  have hmagnitude : (if decide (x < 0) = true then -x else x).toInt.toNat = magnitude x := by
    simp only [magnitude, decide_eq_true_eq]
  have hcopy := fun result j => @copyBack_eq _ result j _ hchars
  rw [List.length_map] at hcopy
  have hend := returns_sign x (some ((CharBuffer.alloc maxDigits tempBytes).writeAll 0
    ((Nat.digits 3 (magnitude x)).map digitChar))) resultBytes
      ((Nat.digits 3 (magnitude x)).map digitChar).reverse
  rw [List.length_reverse, List.length_map] at hend
  rw [translation, if_neg hx, List.map_reverse]
  simp only [storeDigits_eq, hmagnitude, Nat.zero_add, hcopy]
  exact ⟨trivial, hend⟩

end TrTri

/-! ## `tr_bin.cpp` -/

namespace TrBin

/-- The bits that the loop stores for a number: inverted ones for a negative number. -/
def storedBits (isNegative : Bool) (k n : ℕ) : List ℕ :=
  (fixedDigits 2 k n).map fun d => if isNegative then 1 - d else d

/-- The inverted bits of a number are the bits of its complement. -/
theorem map_complement {k n : ℕ} (hn : n < 2 ^ k) :
    (fixedDigits 2 k n).map (fun d => 1 - d) = fixedDigits 2 k (2 ^ k - 1 - n) := by
  induction k generalizing n with
  | zero => rfl
  | succ k ih =>
      rw [pow_succ] at hn
      rw [fixedDigits, fixedDigits, List.map_cons, ih (by omega), pow_succ]
      congr 1
      · omega
      · congr 1
        omega

/-- The character that an iteration stores. -/
theorem charOf_bit (isNegative : Bool) {x : Int64} (hx : 0 ≤ x.toInt) :
    (if isNegative then charOf (((x &&& 1) ^^^ 1) + 48) else charOf ((x &&& 1) + 48)) =
      digitChar (if isNegative then 1 - x.toInt.toNat % 2 else x.toInt.toNat % 2) := by
  have hbit : (x &&& 1).toInt = (x.toInt.toNat % 2 : ℕ) := by
    rw [toInt_and_one]
    omega
  cases isNegative with
  | true =>
      have hinv := toInt_xor_one hbit (Nat.mod_lt _ (by decide))
      simp only [if_true]
      exact charOf_digit hinv (by omega)
  | false =>
      simp only [Bool.false_eq_true, if_false]
      exact charOf_digit hbit (by omega)

/-- **The bit loop** fills the buffer below `i`, from the top down. -/
theorem storeBits_spec (isNegative : Bool) (i : ℕ) {x : Int64} (hx : 0 ≤ x.toInt)
    (temp : CharBuffer) :
    (storeBits isNegative i x temp).chars.Has 0
        ((storedBits isNegative i x.toInt.toNat).reverse.map digitChar) ∧
      (∀ j, i ≤ j → (storeBits isNegative i x temp).chars j = temp.chars j) ∧
      (storeBits isNegative i x temp).size = temp.size ∧
      ∀ w ∈ (storeBits isNegative i x temp).written, w ∈ temp.written ∨ w.1 < i := by
  induction i generalizing x temp with
  | zero =>
      refine ⟨trivial, ?_, rfl, ?_⟩
      · intro j _
        rfl
      · intro w hw
        exact Or.inl hw
  | succ i ih =>
      have hhalf : (x >>> 1).toInt.toNat = x.toInt.toNat / 2 := by
        -- the lowest bit goes to the highest place that is free
        rw [toInt_shiftRight_one]
        omega
      rw [storeBits, charOf_bit isNegative hx]
      obtain ⟨hhas, hkeep, hsize, hlog⟩ := @ih (x >>> 1) (by rw [toInt_shiftRight_one]; omega)
        (temp.write i (digitChar (if isNegative then 1 - x.toInt.toNat % 2
          else x.toInt.toNat % 2)))
      refine ⟨?_, ?_, hsize, ?_⟩
      · rw [storedBits, fixedDigits, List.map_cons, List.reverse_cons, List.map_append]
        rw [hhalf] at hhas
        have hlen : (List.map digitChar (storedBits isNegative i (x.toInt.toNat / 2)).reverse).length
            = i := by
          rw [List.length_map, List.length_reverse, storedBits, List.length_map, length_fixedDigits]
        refine Chars.has_append.mpr ⟨hhas, ?_⟩
        rw [show (List.map _ (fixedDigits 2 i (x.toInt.toNat / 2))) =
          storedBits isNegative i (x.toInt.toNat / 2) from rfl, hlen, Nat.zero_add]
        refine ⟨?_, trivial⟩
        rw [hkeep i le_rfl]
        exact Function.update_self i _ temp.chars
      · intro j hj
        rw [hkeep j (by omega)]
        exact Function.update_of_ne (by omega) _ _
      · intro w hw
        rcases hlog w hw with hw | hw
        · rcases List.mem_append.mp hw with hw | hw
          · exact Or.inl hw
          · rw [List.mem_singleton.mp hw]
            exact Or.inr (Nat.lt_succ_self i)
        · exact Or.inr (by omega)

/-- The skipping loop stops behind the leading zeros. -/
theorem skipZeros_eq {temp : CharBuffer} {k : ℕ} {l : List UInt8} (h : temp.chars.Has k l)
    (hlen : k + l.length = bits) :
    skipZeros temp k = k + (l.takeWhile (· = 48)).length := by
  induction l generalizing k with
  | nil =>
      rw [skipZeros, if_neg, List.takeWhile_nil, List.length_nil, Nat.add_zero]
      rw [List.length_nil] at hlen
      omega
  | cons c l ih =>
      rw [List.length_cons] at hlen
      obtain ⟨hc, hl⟩ := h
      rw [skipZeros, hc]
      by_cases hzero : c = 48
      · rw [if_pos ⟨by omega, hzero⟩, ih hl (by omega),
          List.takeWhile_cons_of_pos (by simpa using hzero), List.length_cons]
        omega
      · rw [if_neg (by tauto), List.takeWhile_cons_of_neg (by simpa using hzero), List.length_nil,
          Nat.add_zero]

/-- The copying loop. -/
theorem copyFrom_eq {temp result : CharBuffer} {i j : ℕ} {l : List UInt8}
    (h : temp.chars.Has i l) :
    copyFrom temp l.length i result j = (result.writeAll j l, j + l.length) := by
  induction l generalizing i result j with
  | nil => rfl
  | cons c l ih =>
      rw [List.length_cons, copyFrom, h.1, ih h.2, CharBuffer.writeAll, Nat.add_right_comm,
        Nat.add_assoc]

/-- The value that the machine holds for `x`, without its sign. -/
def unsigned (x : Int64) : ℕ := (x.toInt % 2 ^ 64).toNat

/-- The bits of a number, the highest first and without leading zeros. -/
def significantBits (x : Int64) : List ℕ := (fixedDigits 2 bits (unsigned x)).reverse.dropWhile (· = 0)

/-- Leading zeros among the characters are those among the digits. -/
theorem dropWhile_map_digitChar {ds : List ℕ} (hds : ∀ d ∈ ds, d < 10) :
    (ds.map digitChar).dropWhile (· = 48) = (ds.dropWhile (· = 0)).map digitChar := by
  induction ds with
  | nil => rfl
  | cons d ds ih =>
      have hd : digitChar d = 48 ↔ d = 0 := digitChar_eq_zero_iff (hds d List.mem_cons_self)
      rw [List.map_cons]
      by_cases hzero : d = 0
      · rw [List.dropWhile_cons_of_pos (by simpa using hd.mpr hzero),
          List.dropWhile_cons_of_pos (by simpa using hzero)]
        exact ih fun e he => hds e (List.mem_cons_of_mem d he)
      · rw [List.dropWhile_cons_of_neg (by simpa using hd.not.mpr hzero),
          List.dropWhile_cons_of_neg (by simpa using hzero), List.map_cons]

theorem unsigned_lt (x : Int64) : unsigned x < 2 ^ 64 := by
  rw [unsigned]
  omega

theorem lt_of_mem_significantBits {x : Int64} {d : ℕ} (hd : d ∈ significantBits x) : d < 2 := by
  rw [significantBits] at hd
  have hmem := (List.dropWhile_sublist _).subset hd
  exact lt_of_mem_fixedDigits (by decide) (List.mem_reverse.mp hmem)

theorem ofDigits_significantBits (x : Int64) :
    Nat.ofDigits 2 (significantBits x).reverse = unsigned x := by
  rw [significantBits, ofDigits_dropWhile, List.reverse_reverse,
    ofDigits_fixedDigits (unsigned_lt x)]

theorem significantBits_ne_nil {x : Int64} (hx : x ≠ 0) : significantBits x ≠ [] := by
  intro hnil
  have hvalue := ofDigits_significantBits x
  have hlow := x.le_toInt
  have hhigh := x.toInt_lt
  have hne := toInt_ne_zero hx
  rw [hnil, List.reverse_nil, Nat.ofDigits_nil, unsigned] at hvalue
  omega

theorem head?_significantBits (x : Int64) : (significantBits x).head? ≠ some 0 := by
  intro hhead
  have hnot := List.head?_dropWhile_not (· = 0) (fixedDigits 2 bits (unsigned x)).reverse
  rw [← significantBits, hhead] at hnot
  simp at hnot

/-- The number that the bit loop works on is not negative, and the bits it stores are those of
`x`. -/
theorem storedBits_eq (x : Int64) :
    0 ≤ (if x < 0 then -(x + 1) else x).toInt ∧
      storedBits (decide (x < 0)) bits (if x < 0 then -(x + 1) else x).toInt.toNat =
        fixedDigits 2 bits (unsigned x) := by
  have hlow := x.le_toInt
  have hhigh := x.toInt_lt
  by_cases hx : x < 0
  · have hneg := lt_zero_iff.mp hx
    -- `-(x + 1)` is the complement of `x` and does not overflow.
    have hcompl : (-(x + 1)).toInt = -x.toInt - 1 := by
      rw [Int64.toInt_neg, Int64.toInt_add, show (1 : Int64).toInt = 1 from rfl,
        Int.bmod_eq_of_le (n := x.toInt + 1) (by omega) (by omega),
        Int.bmod_eq_of_le (by omega) (by omega)]
      omega
    rw [if_pos hx, hcompl, decide_eq_true hx]
    refine ⟨by omega, ?_⟩
    simp only [storedBits, if_true]
    have hlt : (-x.toInt - 1).toNat < 2 ^ 64 := by omega
    have hvalue : 2 ^ 64 - 1 - (-x.toInt - 1).toNat = unsigned x := by
      rw [unsigned]
      omega
    rw [map_complement hlt, hvalue]
  · have hpos := lt_zero_iff.not.mp hx
    rw [if_neg hx, decide_eq_false hx]
    refine ⟨by omega, ?_⟩
    simp only [storedBits, Bool.false_eq_true, if_false, List.map_id']
    congr 1
    rw [unsigned]
    omega

/-- **What the call returns**, and that it wrote no byte outside `temp`. -/
theorem translation_spec {x : Int64} (hx : x ≠ 0) (tempBytes resultBytes : Chars) :
    (∃ temp, (translation tempBytes resultBytes x).temp = some temp ∧ temp.size = bits ∧
        temp.Inside) ∧
      (translation tempBytes resultBytes x).Returns resultBytes
        (signText x.toInt ++ (significantBits x).map digitChar) := by
  obtain ⟨hnonneg, hbits⟩ := storedBits_eq x
  obtain ⟨hhas, -, hsize, hlog⟩ := storeBits_spec (decide (x < 0)) bits hnonneg
    (.alloc bits tempBytes)
  rw [hbits] at hhas
  set temp := storeBits (decide (x < 0)) bits (if x < 0 then -(x + 1) else x)
    (.alloc bits tempBytes) with htemp
  set l := (fixedDigits 2 bits (unsigned x)).reverse.map digitChar with hl
  have hlen : l.length = bits := by
    rw [hl, List.length_map, List.length_reverse, length_fixedDigits]
  -- the leading zeros are what is not copied
  have hsplit : l.takeWhile (· = 48) ++ (significantBits x).map digitChar = l := by
    have hdrop : l.dropWhile (· = 48) = (significantBits x).map digitChar :=
      dropWhile_map_digitChar fun d hd =>
        (lt_of_mem_fixedDigits (by decide) (List.mem_reverse.mp hd)).trans (by decide)
    rw [← hdrop]
    exact List.takeWhile_append_dropWhile
  have hskip : skipZeros temp 0 = (l.takeWhile (· = 48)).length := by
    rw [skipZeros_eq hhas (by omega), Nat.zero_add]
  have hsum := congrArg List.length hsplit
  rw [List.length_append, hlen] at hsum
  have hpos : 0 < ((significantBits x).map digitChar).length := by
    rw [List.length_map]
    exact List.length_pos_of_ne_nil (significantBits_ne_nil hx)
  -- so the digits start where the loop has stopped
  have hhas' : temp.chars.Has (skipZeros temp 0) ((significantBits x).map digitChar) := by
    rw [← hsplit] at hhas
    have h := (Chars.has_append.mp hhas).2
    rwa [Nat.zero_add, ← hskip] at h
  have hcount : bits - skipZeros temp 0 = ((significantBits x).map digitChar).length := by
    omega
  have hcopy := fun result j => @copyFrom_eq _ result _ j _ hhas'
  have hend := returns_sign x (some temp) resultBytes ((significantBits x).map digitChar)
  have hif : (if decide (x < 0) = true then -(x + 1) else x) =
      if x < 0 then -(x + 1) else x := by
    simp only [decide_eq_true_eq]
  rw [translation, if_neg hx]
  simp only [hif, ← htemp, if_neg (show ¬ skipZeros temp 0 = bits by omega), hcount, hcopy]
  refine ⟨⟨temp, rfl, hsize, ?_⟩, hend⟩
  intro w hw
  rw [hsize]
  exact (hlog w hw).resolve_left List.not_mem_nil

end TrBin
