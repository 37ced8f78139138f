/-
# Numbers and words in a text

What `scanf` and the extractors of a stream take from the start of a text: an optional sign and
digits, a fraction, an exponent, a word.  What stands behind a number or a word does not matter if
it cannot continue it.  Nothing here mentions a program.
-/
import OSLabs.Numeral
import OSLabs.TextStream

namespace TextStream

/-! ## Numbers -/

/-- `isdigit`. -/
def isDigit (c : UInt8) : Bool := 48 ≤ c ∧ c ≤ 57

/-- An optional sign: whether it is a minus, and the rest. -/
def scanSign : List UInt8 → Bool × List UInt8
  | [] => (false, [])
  | c :: input => if c = 45 then (true, input) else if c = 43 then (false, input) else (false, c :: input)

/-- The value of digits behind a sign. -/
def signedValue (negative : Bool) (digits : List UInt8) : ℤ :=
  if negative then -(Numeral.natValue 10 digits : ℤ) else Numeral.natValue 10 digits

/-- A decimal integer, if there is one, and the rest. -/
def scanInt (input : List UInt8) : Option ℤ × List UInt8 :=
  let (negative, input) := scanSign input
  let digits := input.takeWhile isDigit
  (if digits = [] then none else some (signedValue negative digits), input.dropWhile isDigit)

/-- The digits behind a point, and the rest. -/
def scanFraction : List UInt8 → List UInt8 × List UInt8
  | [] => ([], [])
  | c :: input =>
    if c = 46 then (input.takeWhile isDigit, input.dropWhile isDigit) else ([], c :: input)

/-- The exponent behind `e` or `E`, which is 0 without one, and the rest. -/
def scanExponent : List UInt8 → Option ℤ × List UInt8
  | [] => (some 0, [])
  | c :: input => if c = 101 ∨ c = 69 then scanInt input else (some 0, c :: input)

/-- A decimal number with optional fraction and exponent, if there is one, and the rest. -/
def scanFloat (input : List UInt8) : Option ℚ × List UInt8 :=
  let (negative, input) := scanSign input
  let whole := input.takeWhile isDigit
  let (fraction, input) := scanFraction (input.dropWhile isDigit)
  if whole ++ fraction = [] then (none, input)
  else
    let (exponent, input) := scanExponent input
    (exponent.map fun e : ℤ =>
      (signedValue negative (whole ++ fraction) : ℚ) * 10 ^ (e - fraction.length), input)

/-! ## Where a number or a word ends -/

/-- The text does not start with a byte of the kind `p`. -/
def Stops (p : UInt8 → Bool) (rest : List UInt8) : Prop := ∀ c ∈ rest.head?, p c = false

section Ends

variable {p : UInt8 → Bool} {l text word gap rest : List UInt8} {v : ℤ} {n : ℕ}

theorem stops_nil (p : UInt8 → Bool) : Stops p [] := by
  intro c hc
  cases hc

theorem Stops.append (hl : Stops p l) (hrest : Stops p rest) : Stops p (l ++ rest) := by
  cases l with
  | nil => exact hrest
  | cons c l => exact hl

/-- The bytes of the kind `p` in front of a text that stops. -/
theorem takeWhile_of_stops (hl : ∀ c ∈ l, p c = true) (hrest : Stops p rest) :
    (l ++ rest).takeWhile p = l := by
  rw [List.takeWhile_append_of_pos hl]
  cases rest with
  | nil => rw [List.takeWhile_nil, List.append_nil]
  | cons c rest => rw [List.takeWhile_cons_of_neg (by rw [hrest c rfl]; decide), List.append_nil]

theorem dropWhile_of_stops (hl : ∀ c ∈ l, p c = true) (hrest : Stops p rest) :
    (l ++ rest).dropWhile p = rest := by
  rw [List.dropWhile_append_of_pos hl]
  cases rest with
  | nil => rfl
  | cons c rest => rw [List.dropWhile_cons_of_neg (by rw [hrest c rfl]; decide)]

/-- White space is no digit. -/
theorem isDigit_of_isSpace {c : UInt8} (h : isSpace c = true) : isDigit c = false := by
  by_contra hdigit
  rw [Bool.not_eq_false] at hdigit
  simp only [isSpace, isDigit, decide_eq_true_eq, UInt8.le_iff_toNat_le, ← UInt8.toNat_inj]
    at h hdigit
  simp at h hdigit
  omega

/-- A text of blanks, with or without something behind it, stops a number if it is not empty. -/
theorem stops_of_blanks (hgap : ∀ c ∈ gap, isSpace c = true) : Stops isDigit gap := by
  intro c hc
  exact isDigit_of_isSpace (hgap c (List.mem_of_mem_head? hc))

theorem scanSign_cons_append (c : UInt8) (l : List UInt8) :
    scanSign (c :: (l ++ rest)) = ((scanSign (c :: l)).1, (scanSign (c :: l)).2 ++ rest) := by
  simp only [scanSign]
  split_ifs <;> rfl

/-- The text is an integer and nothing else. -/
def IsInt (text : List UInt8) (v : ℤ) : Prop := scanInt text = (some v, [])

instance : Decidable (IsInt text v) := inferInstanceAs (Decidable (_ = _))

theorem IsInt.ne_nil (h : IsInt text v) : text ≠ [] := by
  rintro rfl
  cases congrArg Prod.fst h

/-- An integer consists of a sign and digits. -/
theorem IsInt.digits (h : IsInt text v) :
    (scanSign text).2 ≠ [] ∧ (∀ c ∈ (scanSign text).2, isDigit c = true) ∧
      v = signedValue (scanSign text).1 (scanSign text).2 := by
  have hvalue := congrArg Prod.fst h
  have hrest := congrArg Prod.snd h
  simp only [scanInt] at hvalue hrest
  have hall : ∀ c ∈ (scanSign text).2, isDigit c = true := List.dropWhile_eq_nil_iff.mp hrest
  have htake : (scanSign text).2.takeWhile isDigit = (scanSign text).2 := by
    rw [List.takeWhile_eq_self_iff]
    exact hall
  rw [htake] at hvalue
  split_ifs at hvalue with hnil
  exact ⟨hnil, hall, (Option.some_inj.mp hvalue).symm⟩

/-- **An integer is read up to where its digits end.** -/
theorem IsInt.scan_append (h : IsInt text v) (hrest : Stops isDigit rest) :
    scanInt (text ++ rest) = (some v, rest) := by
  obtain ⟨hnil, hall, hv⟩ := h.digits
  cases text with
  | nil => exact absurd rfl h.ne_nil
  | cons c text =>
      rw [scanInt, List.cons_append, scanSign_cons_append]
      simp only [takeWhile_of_stops hall hrest, dropWhile_of_stops hall hrest, if_neg hnil, hv]

/-- The bytes of an integer. -/
theorem IsInt.mem (h : IsInt text v) {c : UInt8} (hc : c ∈ text) :
    c = 45 ∨ c = 43 ∨ isDigit c = true := by
  obtain ⟨-, hall, -⟩ := h.digits
  cases text with
  | nil => cases hc
  | cons d text =>
      rw [scanSign] at hall
      split_ifs at hall with h₁ h₂
      · rcases List.mem_cons.mp hc with rfl | hc
        · exact Or.inl h₁
        · exact Or.inr (Or.inr (hall c hc))
      · rcases List.mem_cons.mp hc with rfl | hc
        · exact Or.inr (Or.inl h₂)
        · exact Or.inr (Or.inr (hall c hc))
      · exact Or.inr (Or.inr (hall c hc))

/-- An integer has no white space and no zero. -/
theorem IsInt.visible (h : IsInt text v) {c : UInt8} (hc : c ∈ text) :
    isSpace c = false ∧ c ≠ 0 := by
  rcases h.mem hc with rfl | rfl | hdigit
  · decide
  · decide
  · constructor
    · by_contra hspace
      rw [Bool.not_eq_false] at hspace
      rw [isDigit_of_isSpace hspace] at hdigit
      cases hdigit
    · rintro rfl
      cases hdigit

/-- A word behind blanks is read up to its end, or up to the bound. -/
theorem scanWord_append (hgap : ∀ c ∈ gap, isSpace c = true) (hne : word ≠ [])
    (hword : ∀ c ∈ word, isSpace c = false) (hrest : Stops (fun c => !isSpace c) rest) :
    scanWord n (gap ++ (word ++ rest)) = (word.take n, word.drop n ++ rest) := by
  have hskip : (gap ++ (word ++ rest)).dropWhile isSpace = word ++ rest := by
    apply dropWhile_of_stops hgap
    cases word with
    | nil => exact absurd rfl hne
    | cons c word =>
        intro d hd
        rw [← Option.some_inj.mp hd]
        exact hword c List.mem_cons_self
  have htake : (word ++ rest).takeWhile (fun c => !isSpace c) = word :=
    takeWhile_of_stops (fun c hc => by rw [hword c hc]; rfl) hrest
  simp only [scanWord, hskip, htake]
  congr 1
  rcases Nat.le_total n word.length with hn | hn
  · rw [List.length_take, min_eq_left hn, List.drop_append_of_le_length hn]
  · rw [List.take_of_length_le hn, List.drop_left, List.drop_of_length_le hn, List.nil_append]

end Ends

end TextStream
