/-
# What the translation libraries show

The ternary library writes the numeral of every number but the lowest `long`, whose negation is
itself: no digit follows its sign.  The binary library puts the sign in front of the bits that the
machine holds, which are the bits of the absolute value for the lowest `long` alone.  Both keep
inside their buffers for every number.
-/
import OSLabs.TranslationLoops

open Numeral

variable (tempBytes resultBytes : Chars) (x : Int64)

/-- The text for 0 is its numeral in every radix. -/
theorem isNumeral_zero {r : ℕ} (hpos : 0 < r) (hr : r ≤ 10) : IsNumeral r 0 [48] := by
  have hds : ∀ d ∈ [0], d < r := by
    intro d hd
    rwa [List.mem_singleton.mp hd]
  have h := @isNumeral_iff r 0 [0] hr (List.cons_ne_nil 0 []) hds (fun h => absurd rfl h)
  exact h.mpr rfl

/-! ## `tr_tri.cpp` -/

namespace TrTri

variable {x}

theorem lt_of_mem_digits {m d : ℕ} (hd : d ∈ (Nat.digits 3 m).reverse) : d < 3 :=
  Nat.digits_lt_base (by decide) (List.mem_reverse.mp hd)

/-- The text of the call. -/
theorem text_eq (hx : x ≠ 0) : (translation tempBytes resultBytes x).text =
    signText x.toInt ++ (Nat.digits 3 (magnitude x)).reverse.map digitChar := by
  apply (translation_spec hx tempBytes resultBytes).2.text_eq
  apply zero_notMem_sign
  intro d hd
  exact (lt_of_mem_digits hd).trans (by decide)

/-- A number other than the lowest has its numeral written. -/
theorem isNumeral_text (hne : x ≠ Int64.minValue) :
    IsNumeral 3 x.toInt (translation tempBytes resultBytes x).text := by
  by_cases hx : x = 0
  · rw [hx]
    exact isNumeral_zero (by decide) (by decide)
  · have hmagnitude := magnitude_eq hne
    have hpos : magnitude x ≠ 0 := by
      have hzero := toInt_ne_zero hx
      omega
    have hnil : (Nat.digits 3 (magnitude x)).reverse ≠ [] := by
      rw [ne_eq, List.reverse_eq_nil_iff]
      exact Nat.digits_ne_nil_iff_ne_zero.mpr hpos
    have hhead : x.toInt ≠ 0 → (Nat.digits 3 (magnitude x)).reverse.head? ≠ some 0 := by
      intro _ hhead
      rw [List.head?_reverse] at hhead
      have hlast := Nat.getLast_digit_ne_zero 3 hpos
      rw [List.getLast?_eq_getLast_of_ne_nil (Nat.digits_ne_nil_iff_ne_zero.mpr hpos)] at hhead
      exact hlast (Option.some_inj.mp hhead)
    rw [text_eq tempBytes resultBytes hx,
      isNumeral_iff (by decide) hnil (fun d hd => lt_of_mem_digits hd) hhead, List.reverse_reverse,
      Nat.ofDigits_digits, hmagnitude]

/-- The lowest number is shown as a sign alone. -/
theorem text_minValue : (translation tempBytes resultBytes Int64.minValue).text = [minus] := by
  rw [text_eq tempBytes resultBytes (by decide), magnitude_minValue, Nat.digits_zero]
  rfl

/-- A sign alone is no numeral. -/
theorem not_isNumeral_minus {y : ℤ} : ¬ IsNumeral 3 y [minus] :=
  fun h => h.nonempty rfl

/-- **Ternary translation is right for every number but the lowest `long`.** -/
theorem ternary_is_numeral_iff :
    IsNumeral 3 x.toInt (translation tempBytes resultBytes x).text ↔ x ≠ Int64.minValue := by
  constructor
  · rintro h rfl
    rw [text_minValue] at h
    exact not_isNumeral_minus h
  · exact isNumeral_text tempBytes resultBytes

/-- The lowest `long` has no digits. -/
theorem lowest_long_has_no_digits :
    ¬ IsNumeral 3 Int64.minValue.toInt
      (translation (fun _ => 0) (fun _ => 0) Int64.minValue).text := by
  rw [text_minValue]
  exact not_isNumeral_minus

end TrTri

/-! ## `tr_bin.cpp` -/

namespace TrBin

variable {x}

/-- The text of the call. -/
theorem text_eq (hx : x ≠ 0) : (translation tempBytes resultBytes x).text =
    signText x.toInt ++ (significantBits x).map digitChar := by
  apply (translation_spec hx tempBytes resultBytes).2.text_eq
  apply zero_notMem_sign
  intro d hd
  exact (lt_of_mem_significantBits hd).trans (by decide)

/-- The text is the numeral where the bits of the number are those of its absolute value. -/
theorem isNumeral_text_iff :
    IsNumeral 2 x.toInt (translation tempBytes resultBytes x).text ↔
      unsigned x = x.toInt.natAbs := by
  by_cases hx : x = 0
  · rw [hx]
    exact iff_of_true (isNumeral_zero (by decide) (by decide)) rfl
  · rw [text_eq tempBytes resultBytes hx, isNumeral_iff (by decide) (significantBits_ne_nil hx)
      (fun d hd => lt_of_mem_significantBits hd) (fun _ => head?_significantBits x),
      ofDigits_significantBits]

/-- The bits of a number are those of its absolute value if it is not negative, or the lowest. -/
theorem unsigned_eq_natAbs_iff : unsigned x = x.toInt.natAbs ↔ 0 ≤ x ∨ x = Int64.minValue := by
  have hlow := x.le_toInt
  have hhigh := x.toInt_lt
  rw [Int64.le_iff_toInt_le, ← Int64.toInt_inj, Int64.toInt_minValue, unsigned]
  have hzero : (0 : Int64).toInt = 0 := rfl
  omega

/-- The binary library shows the number. -/
structure ShowsNumber (tempBytes resultBytes : Chars) (x : Int64) : Prop where
  numeral : IsNumeral 2 x.toInt (translation tempBytes resultBytes x).text
  same : shown 2 (translation tempBytes resultBytes x).text =
    shown 3 (TrTri.translation tempBytes resultBytes x).text

/-- **Binary translation is right for the numbers that are not negative**, and then shows the same
number as the ternary library.  Of the others the lowest `long` alone has its binary numeral
written, and the ternary library does not show it. -/
theorem binary_shows_number_iff :
    (ShowsNumber tempBytes resultBytes x ↔ 0 ≤ x) ∧
      (IsNumeral 2 x.toInt (translation tempBytes resultBytes x).text ↔
        0 ≤ x ∨ x = Int64.minValue) := by
  have hiff : IsNumeral 2 x.toInt (translation tempBytes resultBytes x).text ↔
      0 ≤ x ∨ x = Int64.minValue := by
    rw [isNumeral_text_iff, unsigned_eq_natAbs_iff]
  refine ⟨?_, hiff⟩
  constructor
  · rintro ⟨hnumeral, hsame⟩
    rcases hiff.mp hnumeral with hx | rfl
    · exact hx
    · rw [hnumeral.shown_eq, TrTri.text_minValue] at hsame
      cases hsame
  · intro hx
    have hne : x ≠ Int64.minValue := by
      rintro rfl
      exact absurd hx (by decide)
    have hnumeral := hiff.mpr (Or.inl hx)
    refine ⟨hnumeral, ?_⟩
    rw [hnumeral.shown_eq, (TrTri.isNumeral_text tempBytes resultBytes hne).shown_eq]

/-- Minus one is shown as the largest number of 64 bits with a sign. -/
theorem minus_one_is_not_shown : ¬ ShowsNumber (fun _ => 0) (fun _ => 0) (-1) := by
  rintro ⟨hnumeral, -⟩
  rw [isNumeral_text_iff] at hnumeral
  exact absurd hnumeral (by decide)

end TrBin

/-! ## Buffers -/

/-- The call kept inside its buffers, and the zero at the end of the result is its last byte. -/
structure Translated.KeepsInside (t : Translated) (capacity : ℕ) : Prop where
  temp : ∀ temp, t.temp = some temp → temp.size = capacity ∧ temp.Inside
  result : t.result.Inside
  terminated : t.result.Terminated

/-- A result of its exact size is filled without going outside. -/
theorem Translated.Returns.keepsInside {t : Translated} {resultBytes : Chars} {text : List UInt8}
    (h : t.Returns resultBytes text) (hzero : 0 ∉ text) {capacity : ℕ}
    (htemp : ∀ temp, t.temp = some temp → temp.size = capacity ∧ temp.Inside) :
    t.KeepsInside capacity := by
  refine ⟨htemp, ?_, ?_⟩
  · rw [h]
    rw [CharBuffer.inside_writeAll_iff (List.append_ne_nil_of_right_ne_nil _ (List.cons_ne_nil _ _)),
      List.length_append, List.length_singleton, Nat.zero_add]
    exact ⟨CharBuffer.inside_alloc, le_rfl⟩
  · rw [h]
    exact CharBuffer.terminated_writeAll hzero

theorem translateZero_keepsInside (capacity : ℕ) :
    (translateZero resultBytes).KeepsInside capacity := by
  apply (translateZero_returns resultBytes).keepsInside (by decide)
  intro temp htemp
  cases htemp

/-- 42 digits are enough for the absolute value of a `long`. -/
theorem TrTri.length_digits_le (x : Int64) : (Nat.digits 3 (TrTri.magnitude x)).length ≤ 42 := by
  have hlt : TrTri.magnitude x < 2 ^ 63 := by
    have hhigh := (if x < 0 then -x else x).toInt_lt
    rw [TrTri.magnitude]
    omega
  apply (Nat.digits_length_le_iff (by decide) _).mpr
  exact hlt.trans (by norm_num)

/-- **Both libraries keep inside their buffers.** -/
theorem translations_keep_inside :
    (TrTri.translation tempBytes resultBytes x).KeepsInside 42 ∧
      (TrBin.translation tempBytes resultBytes x).KeepsInside 64 := by
  by_cases hx : x = 0
  · rw [TrTri.translation, if_pos hx, TrBin.translation, if_pos hx]
    exact ⟨translateZero_keepsInside resultBytes 42, translateZero_keepsInside resultBytes 64⟩
  constructor
  · obtain ⟨htemp, hreturns⟩ := TrTri.translation_spec hx tempBytes resultBytes
    apply hreturns.keepsInside
    · apply zero_notMem_sign
      intro d hd
      exact (TrTri.lt_of_mem_digits hd).trans (by decide)
    · rintro temp heq
      rw [htemp, Option.some_inj] at heq
      rw [← heq, CharBuffer.size_writeAll]
      refine ⟨rfl, ?_⟩
      have hlen := TrTri.length_digits_le x
      by_cases hnil : (Nat.digits 3 (TrTri.magnitude x)).map digitChar = []
      · rw [hnil]
        exact CharBuffer.inside_alloc
      · rw [CharBuffer.inside_writeAll_iff hnil, List.length_map, Nat.zero_add]
        exact ⟨CharBuffer.inside_alloc, hlen⟩
  · obtain ⟨⟨temp, htemp, hsize, hinside⟩, hreturns⟩ :=
      TrBin.translation_spec hx tempBytes resultBytes
    apply hreturns.keepsInside
    · apply zero_notMem_sign
      intro d hd
      exact (TrBin.lt_of_mem_significantBits hd).trans (by decide)
    · rintro temp' heq
      rw [htemp, Option.some_inj] at heq
      rw [← heq]
      exact ⟨hsize, hinside⟩
