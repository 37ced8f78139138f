/-
# The translation libraries

Translation of `Labs/Lab4/src/tr_tri.cpp` and `tr_bin.cpp`.  A `long` has 64 bits and its negation
wraps.  What `new` and the stack leave in a buffer is an argument.
-/
import OSLabs.CharBuffer

/-- The buffers of a call of `Translation`; a call with 0 has no `temp`. -/
structure Translated where
  temp : Option CharBuffer
  result : CharBuffer

/-- The string that the call returns. -/
def Translated.text (t : Translated) : List UInt8 := t.result.text

/-- `char(v)`. -/
def charOf (v : Int64) : UInt8 := v.toInt8.toUInt8

/-- The branch for 0 in both libraries. -/
def translateZero (resultBytes : Chars) : Translated :=
  let result := CharBuffer.alloc 2 resultBytes
  let result := result.write 0 48
  ⟨none, result.write 1 0⟩

/-- The sign at the start of `result`, in both libraries; it returns `result` and `j`. -/
def writeSign (isNegative : Bool) (result : CharBuffer) : CharBuffer × ℕ :=
  if isNegative then (result.write 0 45, 1) else (result, 0)

/-! ## `tr_tri.cpp` -/

namespace TrTri

/-- `MAX_DIGITS`. -/
abbrev maxDigits : ℕ := 42

/-- The loop that stores the digits, the lowest first; it returns `temp` and `pos`. -/
def storeDigits (temp : CharBuffer) (pos : ℕ) (x : Int64) : CharBuffer × ℕ :=
  if 0 < x then storeDigits (temp.write pos (charOf (x % 3 + 48))) (pos + 1) (x / 3) else (temp, pos)
termination_by x.toInt.toNat
decreasing_by
  rename_i hpos
  have hlt : 0 < x.toInt := Int64.lt_iff_toInt_lt.mp hpos
  rw [Int64.toInt_div_of_ne_right x 3 (by decide), show (3 : Int64).toInt = 3 from rfl,
    Int.tdiv_eq_ediv_of_nonneg hlt.le]
  omega

/-- The loop that copies the digits back, from `temp[i - 1]` down; it returns `result` and `j`. -/
def copyBack (temp : CharBuffer) : (i : ℕ) → CharBuffer → (j : ℕ) → CharBuffer × ℕ
  | 0, result, j => (result, j)
  | i + 1, result, j => copyBack temp i (result.write j (temp.chars i)) (j + 1)

/-- `Translation`. -/
def translation (tempBytes resultBytes : Chars) (x : Int64) : Translated :=
  if x = 0 then translateZero resultBytes
  else
    let isNegative := decide (x < 0)
    let x := if isNegative then -x else x
    let (temp, pos) := storeDigits (.alloc maxDigits tempBytes) 0 x
    let resultSize := pos + if isNegative then 2 else 1
    let (result, j) := writeSign isNegative (.alloc resultSize resultBytes)
    let (result, j) := copyBack temp pos result j
    ⟨some temp, result.write j 0⟩

end TrTri

/-! ## `tr_bin.cpp` -/

namespace TrBin

/-- `BITS`. -/
abbrev bits : ℕ := 64

/-- The loop that stores the bits of `x`, from `temp[i - 1]` down. -/
def storeBits (isNegative : Bool) : (i : ℕ) → Int64 → CharBuffer → CharBuffer
  | 0, _, temp => temp
  | i + 1, x, temp =>
    let c := if isNegative then charOf (((x &&& 1) ^^^ 1) + 48) else charOf ((x &&& 1) + 48)
    storeBits isNegative i (x >>> 1) (temp.write i c)

/-- The loop that skips leading zeros. -/
def skipZeros (temp : CharBuffer) (firstDigit : ℕ) : ℕ :=
  if firstDigit < bits ∧ temp.chars firstDigit = 48 then skipZeros temp (firstDigit + 1)
  else firstDigit
termination_by bits - firstDigit

/-- The loop that copies `n` bytes from `temp[i]` on; it returns `result` and `j`. -/
def copyFrom (temp : CharBuffer) : (n i : ℕ) → CharBuffer → (j : ℕ) → CharBuffer × ℕ
  | 0, _, result, j => (result, j)
  | n + 1, i, result, j => copyFrom temp n (i + 1) (result.write j (temp.chars i)) (j + 1)

/-- `Translation`. -/
def translation (tempBytes resultBytes : Chars) (x : Int64) : Translated :=
  if x = 0 then translateZero resultBytes
  else
    let isNegative := decide (x < 0)
    let x := if isNegative then -(x + 1) else x
    let temp := storeBits isNegative bits x (.alloc bits tempBytes)
    let firstDigit := skipZeros temp 0
    let firstDigit := if firstDigit = bits then firstDigit - 1 else firstDigit
    let resultSize := bits - firstDigit + if isNegative then 2 else 1
    let (result, j) := writeSign isNegative (.alloc resultSize resultBytes)
    let (result, j) := copyFrom temp (bits - firstDigit) firstDigit result j
    ⟨some temp, result.write j 0⟩

end TrBin
