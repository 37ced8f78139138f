/-
# Signed numerals

Texts of an optional sign and digits, in a radix of at most ten: what a text is worth, when it is
the numeral of a number, and the numeral that a list of digits makes.  Nothing here mentions a
program.
-/
import Mathlib

namespace Numeral

/-- `'-'`. -/
abbrev minus : UInt8 := 45

/-- `'0'`. -/
abbrev zero : UInt8 := 48

/-- The character of a digit. -/
def digitChar (d : ℕ) : UInt8 := UInt8.ofNat (48 + d)

/-- What a character is worth as a digit. -/
def digitValue (c : UInt8) : ℕ := c.toNat - 48

/-- The character is a digit in the radix `r`. -/
def IsDigit (r : ℕ) (c : UInt8) : Prop := 48 ≤ c.toNat ∧ c.toNat < 48 + r

instance (r : ℕ) (c : UInt8) : Decidable (IsDigit r c) := inferInstanceAs (Decidable (_ ∧ _))

/-- What a text of digits is worth, the first digit the highest. -/
def natValue (r : ℕ) (digits : List UInt8) : ℕ :=
  digits.foldl (fun v c => r * v + digitValue c) 0

/-- The text without its sign. -/
def digitsOf (text : List UInt8) : List UInt8 :=
  if text.head? = some minus then text.tail else text

/-- What a text of an optional sign and digits is worth. -/
def value (r : ℕ) (text : List UInt8) : ℤ :=
  if text.head? = some minus then -natValue r (digitsOf text) else natValue r (digitsOf text)

/-- The number that a text shows, if it is a sign and digits. -/
def shown (r : ℕ) (text : List UInt8) : Option ℤ :=
  if digitsOf text ≠ [] ∧ ∀ c ∈ digitsOf text, IsDigit r c then some (value r text) else none

/-- The text is the numeral of `x` in the radix `r`. -/
structure IsNumeral (r : ℕ) (x : ℤ) (text : List UInt8) : Prop where
  sign : text.head? = some minus ↔ x < 0
  nonempty : digitsOf text ≠ []
  digits : ∀ c ∈ digitsOf text, IsDigit r c
  noLeadingZero : x ≠ 0 → (digitsOf text).head? ≠ some zero
  value_eq : value r text = x

/-- The sign of a number. -/
def signText (x : ℤ) : List UInt8 := if x < 0 then [minus] else []

/-- A magnitude with the sign of `x`. -/
def withSign (x : ℤ) (n : ℕ) : ℤ := if x < 0 then -(n : ℤ) else n

/-! ## Texts of digits -/

section Digits

variable {r d : ℕ} {x : ℤ} {ds : List ℕ}

theorem toNat_digitChar (hd : d < 10) : (digitChar d).toNat = 48 + d := by
  rw [digitChar, UInt8.toNat_ofNat']
  exact Nat.mod_eq_of_lt (by omega)

theorem digitValue_digitChar (hd : d < 10) : digitValue (digitChar d) = d := by
  rw [digitValue, toNat_digitChar hd, Nat.add_sub_cancel_left]

theorem isDigit_digitChar (hr : r ≤ 10) (hd : d < r) : IsDigit r (digitChar d) := by
  rw [IsDigit, toNat_digitChar (by omega)]
  omega

theorem digitChar_ne (hd : d < 10) {c : UInt8} (hc : c.toNat < 48) : digitChar d ≠ c := by
  intro heq
  have hnat := toNat_digitChar hd
  rw [heq] at hnat
  omega

theorem digitChar_eq_zero_iff (hd : d < 10) : digitChar d = zero ↔ d = 0 := by
  constructor
  · intro heq
    have hnat := toNat_digitChar hd
    rw [heq] at hnat
    have hzero : zero.toNat = 48 := rfl
    omega
  · rintro rfl
    rfl

/-- The value of a text of digits is the value of the digits. -/
theorem natValue_map (hr : r ≤ 10) (hds : ∀ d ∈ ds, d < r) :
    natValue r (ds.map digitChar) = Nat.ofDigits r ds.reverse := by
  induction ds using List.reverseRecOn with
  | nil => rfl
  | append_singleton ds d ih =>
      have hd : d < r := hds d (List.mem_append_right _ List.mem_cons_self)
      have hinit := ih fun e he => hds e (List.mem_append_left _ he)
      rw [natValue] at hinit
      rw [natValue, List.map_append, List.foldl_append, hinit, List.reverse_append]
      show r * Nat.ofDigits r ds.reverse + digitValue (digitChar d) = _
      rw [digitValue_digitChar (by omega), List.reverse_singleton, List.singleton_append,
        Nat.ofDigits_cons, Nat.add_comm]

/-- A text of digits has no sign of its own. -/
theorem digitsOf_sign (hds : ∀ d ∈ ds, d < 10) :
    digitsOf (signText x ++ ds.map digitChar) = ds.map digitChar ∧
      ((signText x ++ ds.map digitChar).head? = some minus ↔ x < 0) := by
  by_cases hx : x < 0
  · rw [signText, if_pos hx]
    exact ⟨rfl, iff_of_true rfl hx⟩
  · have hhead : (ds.map digitChar).head? ≠ some minus := by
      intro hminus
      obtain ⟨d, hd, heq⟩ := List.mem_map.mp (List.mem_of_mem_head? hminus)
      exact digitChar_ne (hds d hd) (by decide) heq
    rw [signText, if_neg hx, List.nil_append, digitsOf, if_neg hhead]
    exact ⟨rfl, iff_of_false hhead hx⟩

/-- What a sign and digits are worth. -/
theorem value_sign (hr : r ≤ 10) (hds : ∀ d ∈ ds, d < r) :
    value r (signText x ++ ds.map digitChar) = withSign x (Nat.ofDigits r ds.reverse) := by
  obtain ⟨hdigits, hsign⟩ := @digitsOf_sign x ds fun d hd => (hds d hd).trans_le hr
  rw [value, hdigits, natValue_map hr hds]
  exact if_congr hsign rfl rfl

/-- **A sign and digits without leading zeros make a numeral** exactly if the digits are worth the
absolute value. -/
theorem isNumeral_iff (hr : r ≤ 10) (hne : ds ≠ []) (hds : ∀ d ∈ ds, d < r)
    (hhead : x ≠ 0 → ds.head? ≠ some 0) :
    IsNumeral r x (signText x ++ ds.map digitChar) ↔ Nat.ofDigits r ds.reverse = x.natAbs := by
  have hds10 : ∀ d ∈ ds, d < 10 := fun d hd => (hds d hd).trans_le hr
  obtain ⟨hdigits, hsign⟩ := digitsOf_sign (x := x) hds10
  have hvalue := @value_sign r x ds hr hds
  constructor
  · intro h
    have heq := h.value_eq
    rw [hvalue, withSign] at heq
    split_ifs at heq <;> omega
  · intro h
    constructor
    · exact hsign
    · rw [hdigits]
      simpa using hne
    · rw [hdigits]
      intro c hc
      obtain ⟨d, hd, rfl⟩ := List.mem_map.mp hc
      exact isDigit_digitChar hr (hds d hd)
    · rw [hdigits]
      intro hx hzero
      rw [List.head?_map, Option.map_eq_some_iff] at hzero
      obtain ⟨d, hd, heq⟩ := hzero
      have hmem := List.mem_of_mem_head? hd
      exact hhead hx (hd.trans (congrArg some ((digitChar_eq_zero_iff (hds10 d hmem)).mp heq)))
    · rw [hvalue, withSign]
      split_ifs <;> omega

/-- A numeral shows its number. -/
theorem IsNumeral.shown_eq {text : List UInt8} (h : IsNumeral r x text) :
    shown r text = some x := by
  rw [shown, if_pos ⟨h.nonempty, h.digits⟩, h.value_eq]

end Digits

/-! ## Digits of a fixed number -/

/-- The `k` lowest digits of `n` in the radix `r`, the lowest first. -/
def fixedDigits (r : ℕ) : ℕ → ℕ → List ℕ
  | 0, _ => []
  | k + 1, n => n % r :: fixedDigits r k (n / r)

section FixedDigits

variable {r : ℕ}

@[simp] theorem length_fixedDigits (k n : ℕ) : (fixedDigits r k n).length = k := by
  induction k generalizing n with
  | zero => rfl
  | succ k ih => rw [fixedDigits, List.length_cons, ih]

theorem lt_of_mem_fixedDigits (hr : 0 < r) {k n d : ℕ} (hd : d ∈ fixedDigits r k n) : d < r := by
  induction k generalizing n with
  | zero => cases hd
  | succ k ih =>
      rcases List.mem_cons.mp hd with rfl | hd
      · exact Nat.mod_lt n hr
      · exact ih hd

/-- Enough digits are worth the number. -/
theorem ofDigits_fixedDigits {k n : ℕ} (hn : n < r ^ k) :
    Nat.ofDigits r (fixedDigits r k n) = n := by
  induction k generalizing n with
  | zero =>
      rw [pow_zero, Nat.lt_one_iff] at hn
      rw [hn]
      rfl
  | succ k ih =>
      have hdiv : n / r < r ^ k := by
        rw [pow_succ] at hn
        exact Nat.div_lt_of_lt_mul (by rwa [Nat.mul_comm] at hn)
      rw [fixedDigits, Nat.ofDigits_cons, ih hdiv]
      exact Nat.mod_add_div n r

/-- Leading zeros are worth nothing. -/
theorem ofDigits_dropWhile (ds : List ℕ) :
    Nat.ofDigits r (ds.dropWhile (· = 0)).reverse = Nat.ofDigits r ds.reverse := by
  induction ds with
  | nil => rfl
  | cons d ds ih =>
      by_cases hd : d = 0
      · rw [List.dropWhile_cons_of_pos (by simpa using hd), ih, hd, List.reverse_cons,
          Nat.ofDigits_append]
        simp
      · rw [List.dropWhile_cons_of_neg (by simpa using hd)]

end FixedDigits

end Numeral
