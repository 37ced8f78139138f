/-
# Menu loops

The body of a loop without a condition leads to the next state, or returns.  A loop returns if its
body does after finitely many passes; it never does from a state with an invariant under which the
body always goes on.

A menu loop reads a code into a variable that keeps its value when nothing can be read, returns for
some codes, and takes the operands of the others from the same stream.  Once the stream has failed
the loop repeats its last command, so it returns exactly on the inputs that are complete commands
followed by a code that ends it.  Nothing here mentions a program.
-/
import OSLabs.InputStream

/-! ## Loops that may never return -/

section Loops

variable {σ : Type*} {body : σ → Option σ} {s t : σ}

/-- The loop has returned after at most `n` passes. -/
def ReturnsWithin (body : σ → Option σ) : ℕ → σ → Prop
  | 0, _ => False
  | n + 1, s => ∀ t, body s = some t → ReturnsWithin body n t

/-- `while (true) body`, from the state `s`, returns. -/
def Returns (body : σ → Option σ) (s : σ) : Prop := ∃ n, ReturnsWithin body n s

namespace Returns

/-- The body returns at once. -/
theorem of_none (h : body s = none) : Returns body s := by
  refine ⟨1, ?_⟩
  intro t ht
  rw [h] at ht
  cases ht

/-- One pass does not decide whether the loop returns. -/
theorem iff_of_some (h : body s = some t) : Returns body s ↔ Returns body t := by
  constructor
  · rintro ⟨n, hn⟩
    cases n with
    | zero => exact hn.elim
    | succ n => exact ⟨n, hn t h⟩
  · rintro ⟨n, hn⟩
    refine ⟨n + 1, ?_⟩
    intro t' ht'
    rw [h, Option.some_inj] at ht'
    exact ht' ▸ hn

/-- **Divergence rule.**  A loop whose body goes on under an invariant, and keeps it, never
returns. -/
theorem not_of_invariant {I : σ → Prop} (hbody : ∀ s, I s → ∃ t, body s = some t ∧ I t)
    (hs : I s) : ¬ Returns body s := by
  rintro ⟨n, hn⟩
  induction n generalizing s with
  | zero => exact hn
  | succ n ih =>
      obtain ⟨t, hst, ht⟩ := hbody s hs
      exact ih ht (hn t hst)

end Returns

end Loops

/-! ## Menus -/

open TextStream

/-- The code at the start of a text: an `int` behind white space. -/
def menuCode (input : List UInt8) : Parsed ℤ :=
  parseInt (-2 ^ 31) (2 ^ 31 - 1) (input.dropWhile isSpace)

/-- A loop over a menu: the operands that each code takes, or that the code ends the loop. -/
structure MenuLoop (σ : Type) where
  pass : σ → Option σ
  cin : σ → InputStream
  prog : σ → ℤ
  operands : ℤ → Option (List UInt8 → Option (List UInt8))
  ends : ∀ s, operands ((cin s).extractInt (prog s)).1 = none → pass s = none
  goesOn : ∀ s ops, operands ((cin s).extractInt (prog s)).1 = some ops →
    ∃ t, pass s = some t ∧ prog t = ((cin s).extractInt (prog s)).1 ∧
      ((cin s).extractInt (prog s)).2.Follows ops (cin t)

/-- The text is a sequence of complete commands, followed by a code that ends the loop. -/
inductive EndsWithExit (operands : ℤ → Option (List UInt8 → Option (List UInt8))) :
    List UInt8 → Prop
  | exit {input : List UInt8} : input.dropWhile isSpace ≠ [] →
      operands (menuCode input).value = none → EndsWithExit operands input
  | command {input rest : List UInt8} {ops : List UInt8 → Option (List UInt8)} :
      input.dropWhile isSpace ≠ [] → (menuCode input).ok = true →
      operands (menuCode input).value = some ops → ops (menuCode input).rest = some rest →
      EndsWithExit operands rest → EndsWithExit operands input

namespace MenuLoop

variable {σ : Type} (M : MenuLoop σ) {s : σ}

/-- **After a failure a command is repeated for ever.** -/
theorem not_returns_of_fail (hfail : (M.cin s).fail = true) (hcode : M.operands (M.prog s) ≠ none) :
    ¬ Returns M.pass s := by
  refine Returns.not_of_invariant
    (I := fun s => (M.cin s).fail = true ∧ M.operands (M.prog s) ≠ none) ?_ ⟨hfail, hcode⟩
  rintro s ⟨hfail, hcode⟩
  have hsame : (M.cin s).extractInt (M.prog s) = (M.prog s, M.cin s) :=
    InputStream.extract_of_fail hfail
  obtain ⟨ops, hops⟩ := Option.ne_none_iff_exists'.mp hcode
  obtain ⟨t, hpass, hprog, hfollows⟩ := M.goesOn s ops (by rw [hsame]; exact hops)
  rw [hsame] at hprog hfollows
  refine ⟨t, hpass, hfollows.failed hfail, ?_⟩
  rw [hprog]
  exact hcode

/-- The code that a fresh stream yields. -/
theorem extractInt_eq (hfresh : (M.cin s).Fresh) (hne : (M.cin s).bytes.dropWhile isSpace ≠ []) :
    (M.cin s).extractInt (M.prog s) = ((menuCode (M.cin s).bytes).value,
      ⟨(menuCode (M.cin s).bytes).rest, (menuCode (M.cin s).bytes).rest.isEmpty,
        !(menuCode (M.cin s).bytes).ok⟩) :=
  hfresh.extract_eq hne

/-- A command that is not complete is the last one, and is repeated for ever. -/
theorem not_returns_of_incomplete (hfresh : (M.cin s).Fresh)
    (hne : (M.cin s).bytes.dropWhile isSpace ≠ []) {ops : List UInt8 → Option (List UInt8)}
    (hops : M.operands (menuCode (M.cin s).bytes).value = some ops)
    (hbad : (menuCode (M.cin s).bytes).ok = false ∨ ops (menuCode (M.cin s).bytes).rest = none) :
    ¬ Returns M.pass s := by
  have hcode := M.extractInt_eq hfresh hne
  obtain ⟨t, hpass, hprog, hfollows⟩ := M.goesOn s ops (by rw [hcode]; exact hops)
  rw [hcode] at hprog hfollows
  rw [Returns.iff_of_some hpass]
  apply M.not_returns_of_fail
  · cases hok : (menuCode (M.cin s).bytes).ok with
    | false => exact hfollows.failed (by rw [hok]; rfl)
    | true =>
        have hnone := hbad.resolve_left (by rw [hok]; decide)
        rw [hok] at hfollows
        exact hfollows.missing (InputStream.fresh_rest _) hnone
  · rw [hprog, hops]
    exact Option.some_ne_none ops

/-- At the end of the stream the last command is repeated for ever. -/
theorem not_returns_of_blank (hblank : (M.cin s).bytes.dropWhile isSpace = [])
    (hcode : M.operands (M.prog s) ≠ none) : ¬ Returns M.pass s := by
  obtain ⟨hsame, hfail⟩ : ((M.cin s).extractInt (M.prog s)).1 = M.prog s ∧
      ((M.cin s).extractInt (M.prog s)).2.fail = true := InputStream.extract_of_blank hblank
  obtain ⟨ops, hops⟩ := Option.ne_none_iff_exists'.mp hcode
  obtain ⟨t, hpass, hprog, hfollows⟩ := M.goesOn s ops (by rw [hsame]; exact hops)
  rw [Returns.iff_of_some hpass]
  apply M.not_returns_of_fail
  · exact hfollows.failed hfail
  · rw [hprog, hsame]
    exact hcode

/-- A complete command leads to the text behind it. -/
theorem pass_command (hfresh : (M.cin s).Fresh) (hne : (M.cin s).bytes.dropWhile isSpace ≠ [])
    (hok : (menuCode (M.cin s).bytes).ok = true) {ops : List UInt8 → Option (List UInt8)}
    (hops : M.operands (menuCode (M.cin s).bytes).value = some ops) {rest : List UInt8}
    (hrest : ops (menuCode (M.cin s).bytes).rest = some rest) :
    ∃ t, M.pass s = some t ∧ (M.cin t).Fresh ∧ (M.cin t).bytes = rest ∧
      M.operands (M.prog t) ≠ none := by
  have hcode := M.extractInt_eq hfresh hne
  obtain ⟨t, hpass, hprog, hfollows⟩ := M.goesOn s ops (by rw [hcode]; exact hops)
  rw [hcode, hok] at hfollows
  obtain ⟨hfresh', hbytes⟩ := hfollows.taken (InputStream.fresh_rest _) rest hrest
  refine ⟨t, hpass, hfresh', hbytes, ?_⟩
  rw [hprog, hcode, hops]
  exact Option.some_ne_none ops

/-- A loop that returns had complete commands and a code that ends it. -/
theorem endsWithExit_of_returns {n : ℕ} (hfresh : (M.cin s).Fresh)
    (hcode : M.operands (M.prog s) ≠ none ∨ (M.cin s).bytes.dropWhile isSpace ≠ [])
    (hn : ReturnsWithin M.pass n s) : EndsWithExit M.operands (M.cin s).bytes := by
  induction n generalizing s with
  | zero => exact hn.elim
  | succ n ih =>
      have hreturns : Returns M.pass s := ⟨n + 1, hn⟩
      by_cases hne : (M.cin s).bytes.dropWhile isSpace = []
      · exact absurd hreturns (M.not_returns_of_blank hne (hcode.resolve_right (not_not.mpr hne)))
      cases hops : M.operands (menuCode (M.cin s).bytes).value with
      | none => exact .exit hne hops
      | some ops =>
          cases hok : (menuCode (M.cin s).bytes).ok with
          | false =>
              exact absurd hreturns (M.not_returns_of_incomplete hfresh hne hops (Or.inl hok))
          | true =>
              cases hrest : ops (menuCode (M.cin s).bytes).rest with
              | none =>
                  exact absurd hreturns
                    (M.not_returns_of_incomplete hfresh hne hops (Or.inr hrest))
              | some rest =>
                  obtain ⟨t, hpass, hfresh', hbytes, hprog⟩ :=
                    M.pass_command hfresh hne hok hops hrest
                  have htail := ih hfresh' (Or.inl hprog) (hn t hpass)
                  rw [hbytes] at htail
                  exact .command hne hok hops hrest htail

/-- Complete commands and a code that ends the loop end it. -/
theorem returns_of_endsWithExit {input : List UInt8} (h : EndsWithExit M.operands input)
    (hfresh : (M.cin s).Fresh) (hbytes : (M.cin s).bytes = input) : Returns M.pass s := by
  induction h generalizing s with
  | exit hne hnone =>
      subst hbytes
      apply Returns.of_none
      apply M.ends
      rw [M.extractInt_eq hfresh hne]
      exact hnone
  | command hne hok hops hrest _ ih =>
      subst hbytes
      obtain ⟨t, hpass, hfresh', hbytes', -⟩ := M.pass_command hfresh hne hok hops hrest
      rw [Returns.iff_of_some hpass]
      exact ih hfresh' hbytes'

/-- **When a menu loop returns**: exactly on complete commands followed by a code that ends it.  A
stream that is already at its end leaves the last command. -/
theorem returns_iff (hfresh : (M.cin s).Fresh)
    (hcode : M.operands (M.prog s) ≠ none ∨ (M.cin s).bytes.dropWhile isSpace ≠ []) :
    Returns M.pass s ↔ EndsWithExit M.operands (M.cin s).bytes := by
  constructor
  · rintro ⟨n, hn⟩
    exact M.endsWithExit_of_returns hfresh hcode hn
  · intro h
    exact M.returns_of_endsWithExit h hfresh rfl

end MenuLoop
