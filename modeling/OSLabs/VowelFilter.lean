/-
# Removing vowels in place

Translation of the two functions that all four children have: `is_vowel` and `remove_vowels`
of `Labs/Lab1/src/child1.c` and `child2.c`, called `isVowel` and `removeVowels` in
`Labs/Lab3/src/child1.cpp` and `child2.cpp`.
-/
import OSLabs.CharArray

namespace VowelFilter

/-- `tolower`, of the ASCII letters. -/
def tolower (c : UInt8) : UInt8 := if 65 ≤ c ∧ c ≤ 90 then c + 32 else c

/-- `isVowel`. -/
def isVowel (c : UInt8) : Bool :=
  let c := tolower c
  c = 97 ∨ c = 101 ∨ c = 105 ∨ c = 111 ∨ c = 117

/-- The loop of `removeVowels`: `fuel` bytes of the array are left from `i` on. -/
def removeVowelsLoop : ℕ → Chars → ℕ → ℕ → Chars
  | 0, str, _, j => Function.update str j 0
  | fuel + 1, str, i, j =>
    if str i = 0 then Function.update str j 0
    else if !isVowel (str i) then
      removeVowelsLoop fuel (Function.update str j (str i)) (i + 1) (j + 1)
    else removeVowelsLoop fuel str (i + 1) j

/-- `removeVowels`, of a string in an array of `n` bytes. -/
def removeVowels (n : ℕ) (str : Chars) : Chars := removeVowelsLoop n str 0 0

/-- What is left of a text without its vowels. -/
def consonants (l : List UInt8) : List UInt8 := l.filter fun c => !isVowel c

section Consonants

variable {c : UInt8} {l l' : List UInt8}

@[simp] theorem consonants_nil : consonants [] = [] := rfl

theorem consonants_cons_of_vowel (h : isVowel c = true) : consonants (c :: l) = consonants l :=
  List.filter_cons_of_neg (by simp [h])

theorem consonants_cons_of_not_vowel (h : isVowel c = false) :
    consonants (c :: l) = c :: consonants l :=
  List.filter_cons_of_pos (by simp [h])

@[simp] theorem consonants_append : consonants (l ++ l') = consonants l ++ consonants l' :=
  List.filter_append _ _

theorem isVowel_of_mem_consonants (h : c ∈ consonants l) : isVowel c = false := by
  simpa using (List.mem_filter.mp h).2

theorem length_consonants_le (l : List UInt8) : (consonants l).length ≤ l.length :=
  List.length_filter_le _ _

end Consonants

open Chars

/-- **One pass of the loop and all that follow**: what was kept stands at the start, the rest of
the string from `i` on. -/
theorem isString_removeVowelsLoop {fuel i : ℕ} {str : Chars} {kept rest : List UInt8}
    (hi : kept.length ≤ i) (hkept : Has str 0 kept) (hkept0 : 0 ∉ kept)
    (hrest : Has str i (rest ++ [0])) (hrest0 : 0 ∉ rest) (hfuel : rest.length ≤ fuel) :
    IsString (removeVowelsLoop fuel str i kept.length) (kept ++ consonants rest) := by
  induction rest generalizing fuel str i kept with
  | nil =>
      rw [consonants_nil, List.append_nil]
      cases fuel with
      | zero => exact isString_close hkept hkept0
      | succ fuel =>
          rw [removeVowelsLoop, if_pos hrest.1]
          exact isString_close hkept hkept0
  | cons c rest ih =>
      obtain ⟨hc, hrest0⟩ := zero_notMem_cons.mp hrest0
      obtain ⟨hread, hrest⟩ := hrest
      cases fuel with
      | zero => exact absurd hfuel (Nat.not_succ_le_zero _)
      | succ fuel =>
          have hfuel' := Nat.le_of_succ_le_succ hfuel
          rw [removeVowelsLoop, hread, if_neg hc]
          by_cases hvowel : isVowel c = true
          · rw [if_neg (by simp [hvowel]), consonants_cons_of_vowel hvowel]
            exact ih (by omega) hkept hkept0 hrest hrest0 hfuel'
          · -- The byte moves behind the kept ones, in front of all that is still to be read.
            have hnot : isVowel c = false := by simpa using hvowel
            have hkept' : Has (Function.update str kept.length c) 0 (kept ++ [c]) := has_push c hkept
            have hkept0' : 0 ∉ kept ++ [c] := by
              rw [List.mem_append, List.mem_singleton, not_or]
              exact ⟨hkept0, Ne.symm hc⟩
            have hlen' : kept.length + 1 = (kept ++ [c]).length := by
              rw [List.length_append, List.length_singleton]
            have hrest' : Has (Function.update str kept.length c) (i + 1) (rest ++ [0]) :=
              has_congr (fun k hk _ => by rw [Function.update_of_ne (by omega)]) hrest
            rw [if_pos (by simp [hnot]), consonants_cons_of_not_vowel hnot, List.append_cons, hlen']
            exact ih (by omega) hkept' hkept0' hrest' hrest0 hfuel'

/-- **`removeVowels` leaves the string without its vowels.** -/
theorem isString_removeVowels {n : ℕ} {str : Chars} {l : List UInt8} (h : IsString str l)
    (hn : l.length ≤ n) : IsString (removeVowels n str) (consonants l) :=
  isString_removeVowelsLoop le_rfl (has_nil _ _) List.not_mem_nil h.has h.noZero hn

example : text 8 (removeVowels 8 (store (fun _ => 0) 0 [72, 69, 108, 108, 79, 10])) =
    [72, 108, 108, 10] := by decide

end VowelFilter
