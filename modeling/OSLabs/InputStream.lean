/-
# Formatted input

`std::istream`: the bytes that are not yet taken and the state flags.  An extraction skips white
space and takes a number or a word.  When the stream has failed or is at its end, an extraction
leaves its operand unchanged; text that is no number stores 0, and a number out of range the nearest
bound.  Nothing here mentions a program.
-/
import OSLabs.NumberText

open TextStream

/-! ## `std::istream` -/

/-- `std::istream`. -/
structure InputStream where
  bytes : List UInt8
  eof : Bool := false
  fail : Bool := false
  deriving DecidableEq, Repr

/-- The value of an extraction, whether it succeeded, and the rest of the text. -/
structure Parsed (α : Type) where
  value : α
  ok : Bool
  rest : List UInt8

/-- An integer type with the bounds `lo` and `hi`. -/
def parseInt (lo hi : ℤ) (input : List UInt8) : Parsed ℤ :=
  match scanInt input with
  | (none, rest) => ⟨0, false, rest⟩
  | (some v, rest) =>
    if v < lo then ⟨lo, false, rest⟩ else if hi < v then ⟨hi, false, rest⟩ else ⟨v, true, rest⟩

/-- `float`, without its value: a number that is not rounded to infinity. -/
def parseFloat (input : List UInt8) : Parsed Unit :=
  match scanFloat input with
  | (none, rest) => ⟨(), false, rest⟩
  | (some v, rest) => ⟨(), |v| < 2 ^ 128 - 2 ^ 103, rest⟩

/-- `std::string`: a word. -/
def parseWord (input : List UInt8) : Parsed (List UInt8) :=
  ⟨input.takeWhile fun c => !isSpace c, true, input.dropWhile fun c => !isSpace c⟩

namespace InputStream

variable {α : Type}

/-- `good()`. -/
def good (s : InputStream) : Bool := !s.eof && !s.fail

/-- `s >> operand`; the new value of the operand is returned. -/
def extract (s : InputStream) (parse : List UInt8 → Parsed α) (operand : α) : α × InputStream :=
  if s.good then
    let input := s.bytes.dropWhile isSpace
    if input = [] then (operand, ⟨[], true, true⟩)
    else
      let p := parse input
      (p.value, ⟨p.rest, p.rest.isEmpty, !p.ok⟩)
  else (operand, { s with fail := true })

/-- `s >> operand` for an `int`. -/
def extractInt (s : InputStream) (operand : ℤ) : ℤ × InputStream :=
  s.extract (parseInt (-2 ^ 31) (2 ^ 31 - 1)) operand

/-- `s >> operand` for a `long`. -/
def extractLong (s : InputStream) (operand : ℤ) : ℤ × InputStream :=
  s.extract (parseInt (-2 ^ 63) (2 ^ 63 - 1)) operand

/-- `s >> operand` for a `float`. -/
def extractFloat (s : InputStream) : InputStream := (s.extract parseFloat ()).2

/-- `s >> operand` for a `std::string`. -/
def extractWord (s : InputStream) (operand : List UInt8) : List UInt8 × InputStream :=
  s.extract parseWord operand

variable {s : InputStream} {parse : List UInt8 → Parsed α} {operand : α}

/-- After a failure nothing is taken any more. -/
theorem extract_of_fail (h : s.fail = true) : s.extract parse operand = (operand, s) := by
  have hgood : s.good = false := by
    rw [good, h, Bool.not_true, Bool.and_false]
  rw [extract, hgood, if_neg Bool.false_ne_true]
  cases s
  cases h
  rfl

/-- At the end of the stream an extraction fails and leaves the operand. -/
theorem extract_of_blank (h : s.bytes.dropWhile isSpace = []) :
    (s.extract parse operand).1 = operand ∧ (s.extract parse operand).2.fail = true := by
  rw [extract]
  by_cases hgood : s.good = true
  · simp only [hgood, h, if_true]
    exact ⟨trivial, trivial⟩
  · rw [if_neg hgood]
    exact ⟨rfl, rfl⟩

/-! ### Streams that have not failed -/

/-- The stream has not failed, and knows its end only if it is there. -/
structure Fresh (s : InputStream) : Prop where
  ok : s.fail = false
  eof : s.eof = true → s.bytes = []

/-- A text that was not read from yet. -/
theorem fresh_mk (input : List UInt8) : Fresh { bytes := input } :=
  ⟨rfl, fun h => absurd h Bool.false_ne_true⟩

/-- What a successful extraction leaves. -/
theorem fresh_rest (rest : List UInt8) : Fresh ⟨rest, rest.isEmpty, false⟩ :=
  ⟨rfl, fun h => List.isEmpty_iff.mp h⟩

/-- An extraction from a stream that is not at its end. -/
theorem Fresh.extract_eq (h : s.Fresh) (hne : s.bytes.dropWhile isSpace ≠ []) :
    s.extract parse operand =
      ((parse (s.bytes.dropWhile isSpace)).value, ⟨(parse (s.bytes.dropWhile isSpace)).rest,
        (parse (s.bytes.dropWhile isSpace)).rest.isEmpty,
        !(parse (s.bytes.dropWhile isSpace)).ok⟩) := by
  have hgood : s.good = true := by
    have heof : s.eof = false := by
      by_contra heof
      rw [Bool.not_eq_false] at heof
      rw [h.eof heof] at hne
      exact hne rfl
    rw [good, heof, h.ok]
    rfl
  rw [extract, if_pos hgood, if_neg hne]

/-- What is left of a text behind an operand, if there is one. -/
def takeOperand (parse : List UInt8 → Parsed α) (input : List UInt8) : Option (List UInt8) :=
  let p := parse (input.dropWhile isSpace)
  if input.dropWhile isSpace ≠ [] ∧ p.ok = true then some p.rest else none

/-- The stream `t` is left when the operands `ops` have been taken from `s`: a failure stays, and a
missing operand is one. -/
structure Follows (s : InputStream) (ops : List UInt8 → Option (List UInt8)) (t : InputStream) :
    Prop where
  failed : s.fail = true → t.fail = true
  taken : s.Fresh → ∀ rest, ops s.bytes = some rest → t.Fresh ∧ t.bytes = rest
  missing : s.Fresh → ops s.bytes = none → t.fail = true

/-- No operands. -/
theorem Follows.refl (s : InputStream) : s.Follows some s := by
  constructor
  · exact id
  · intro h rest hrest
    exact ⟨h, Option.some_inj.mp hrest⟩
  · intro _ hnone
    cases hnone

/-- One operand. -/
theorem follows_extract (s : InputStream) (parse : List UInt8 → Parsed α) (operand : α) :
    s.Follows (takeOperand parse) (s.extract parse operand).2 := by
  constructor
  · intro h
    rw [extract_of_fail h]
    exact h
  · intro h rest hrest
    rw [takeOperand, Option.ite_none_right_eq_some] at hrest
    obtain ⟨⟨hne, hok⟩, hrest⟩ := hrest
    rw [h.extract_eq hne, hok, Option.some_inj.mp hrest]
    exact ⟨fresh_rest rest, rfl⟩
  · intro h hnone
    by_cases hne : s.bytes.dropWhile isSpace = []
    · exact (extract_of_blank hne).2
    · have hok : (parse (s.bytes.dropWhile isSpace)).ok = false := by
        by_contra hok
        rw [takeOperand, if_pos ⟨hne, Bool.not_eq_false _ ▸ hok⟩] at hnone
        cases hnone
      rw [h.extract_eq hne, hok]
      rfl

/-- One operand behind others. -/
theorem Follows.trans {t u : InputStream} {ops ops' : List UInt8 → Option (List UInt8)}
    (h : s.Follows ops t) (h' : t.Follows ops' u) :
    s.Follows (fun input => (ops input).bind ops') u := by
  constructor
  · intro hs
    exact h'.failed (h.failed hs)
  · intro hs rest hrest
    obtain ⟨mid, hmid, hrest⟩ := Option.bind_eq_some_iff.mp hrest
    obtain ⟨ht, hbytes⟩ := h.taken hs mid hmid
    exact h'.taken ht rest (hbytes ▸ hrest)
  · intro hs hnone
    cases hmid : ops s.bytes with
    | none => exact h'.failed (h.missing hs hmid)
    | some mid =>
        obtain ⟨ht, hbytes⟩ := h.taken hs mid hmid
        rw [hmid, Option.bind_some, ← hbytes] at hnone
        exact h'.missing ht hnone

end InputStream
