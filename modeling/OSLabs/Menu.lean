/-
# The menus of Lab 4

The command loops of `Labs/Lab4/src/program1.cpp` and `program2.cpp`.  A loop state is the stream
with the variables that outlive a pass; `none` is the `return` of the program.  `SinIntegral` and
`Translation` return, and libraries load.  What is printed is left out.

Both programs are menu loops.  They return on complete commands followed by a code that is none of
theirs; on any other input, such as one that just ends, they repeat a command for ever.
-/
import OSLabs.MenuLoop

/-! ## `program1.cpp` -/

namespace Program1

/-- `std::cin` and `prog`. -/
structure State where
  cin : InputStream
  prog : ℤ

/-- A pass of the loop. -/
def pass (s : State) : Option State :=
  let (prog, cin) := s.cin.extractInt s.prog
  if prog = 1 then
    -- `A`, `B` and `e`
    some ⟨cin.extractFloat.extractFloat.extractFloat, prog⟩
  else if prog = 2 then some ⟨(cin.extractLong 0).2, prog⟩
  else none

/-- The loop is entered with an uninitialised `prog`. -/
def start (input : List UInt8) (prog : ℤ) : State := ⟨{ bytes := input }, prog⟩

end Program1

/-! ## `program2.cpp` -/

namespace Program2

/-- `std::cin`, `prog`, and which library is loaded. -/
structure State where
  cin : InputStream
  prog : ℤ
  real : ℕ

/-- A pass of the loop. -/
def pass (s : State) : Option State :=
  let (prog, cin) := s.cin.extractInt s.prog
  if prog = 0 then some ⟨cin, prog, if s.real = 1 then 2 else 1⟩
  else if prog = 1 then
    -- `A`, `B` and `e`
    some ⟨cin.extractFloat.extractFloat.extractFloat, prog, s.real⟩
  else if prog = 2 then some ⟨(cin.extractLong 0).2, prog, s.real⟩
  else none

/-- The loop is entered with `prog = 1` and the first library. -/
def start (input : List UInt8) : State := ⟨{ bytes := input }, 1, 1⟩

end Program2

/-! ## When the menus end -/

open InputStream

/-- The operands of the integral: three numbers. -/
def threeFloats (input : List UInt8) : Option (List UInt8) :=
  ((takeOperand parseFloat input).bind (takeOperand parseFloat)).bind (takeOperand parseFloat)

/-- The operand of the translation. -/
def oneLong (input : List UInt8) : Option (List UInt8) :=
  takeOperand (parseInt (-2 ^ 63) (2 ^ 63 - 1)) input

theorem follows_threeFloats (s : InputStream) :
    s.Follows threeFloats s.extractFloat.extractFloat.extractFloat :=
  ((follows_extract s parseFloat ()).trans (follows_extract _ parseFloat ())).trans
    (follows_extract _ parseFloat ())

theorem follows_oneLong (s : InputStream) (operand : ℤ) :
    s.Follows oneLong (s.extractLong operand).2 :=
  follows_extract s _ operand

namespace Program1

/-- The operands of the two commands; every other code ends the program. -/
def operands (code : ℤ) : Option (List UInt8 → Option (List UInt8)) :=
  if code = 1 then some threeFloats else if code = 2 then some oneLong else none

/-- The loop of `program1` is a menu loop. -/
def menu : MenuLoop State where
  pass := pass
  cin := State.cin
  prog := State.prog
  operands := operands
  ends := by
    intro s hnone
    rw [operands] at hnone
    split_ifs at hnone with h₁ h₂
    simp only [pass, h₁, h₂, if_false]
  goesOn := by
    intro s ops hops
    rw [operands] at hops
    split_ifs at hops with h₁ h₂
    · rw [← Option.some_inj.mp hops]
      refine ⟨_, if_pos h₁, rfl, follows_threeFloats _⟩
    · rw [← Option.some_inj.mp hops]
      refine ⟨_, (if_neg h₁).trans (if_pos h₂), rfl, follows_oneLong _ 0⟩

/-- The program returns whatever the uninitialised code was. -/
theorem returns_iff (input : List UInt8) :
    (∀ prog, Returns pass (start input prog)) ↔ EndsWithExit operands input := by
  constructor
  · intro h
    have hcode : menu.operands (menu.prog (start input 1)) ≠ none := Option.some_ne_none threeFloats
    exact (menu.returns_iff (s := start input 1) (fresh_mk input) (Or.inl hcode)).mp (h 1)
  · intro h prog
    exact menu.returns_of_endsWithExit h (s := start input prog) (fresh_mk input) rfl

end Program1

namespace Program2

/-- The operands of the three commands; every other code ends the program. -/
def operands (code : ℤ) : Option (List UInt8 → Option (List UInt8)) :=
  if code = 0 then some some
  else if code = 1 then some threeFloats
  else if code = 2 then some oneLong
  else none

/-- The loop of `program2` is a menu loop. -/
def menu : MenuLoop State where
  pass := pass
  cin := State.cin
  prog := State.prog
  operands := operands
  ends := by
    intro s hnone
    rw [operands] at hnone
    split_ifs at hnone with h₀ h₁ h₂
    simp only [pass, h₀, h₁, h₂, if_false]
  goesOn := by
    intro s ops hops
    rw [operands] at hops
    split_ifs at hops with h₀ h₁ h₂
    · rw [← Option.some_inj.mp hops]
      exact ⟨_, if_pos h₀, rfl, Follows.refl _⟩
    · rw [← Option.some_inj.mp hops]
      exact ⟨_, (if_neg h₀).trans (if_pos h₁), rfl, follows_threeFloats _⟩
    · rw [← Option.some_inj.mp hops]
      exact ⟨_, (if_neg h₀).trans ((if_neg h₁).trans (if_pos h₂)), rfl, follows_oneLong _ 0⟩

theorem returns_iff (input : List UInt8) :
    Returns pass (start input) ↔ EndsWithExit operands input := by
  have hcode : menu.operands (menu.prog (start input)) ≠ none := Option.some_ne_none threeFloats
  exact menu.returns_iff (s := start input) (fresh_mk input) (Or.inl hcode)

end Program2

/-- **The menus end** exactly on complete commands followed by a code that is no command. -/
theorem menus_end_iff (input : List UInt8) :
    ((∀ prog, Returns Program1.pass (Program1.start input prog)) ∧
        Returns Program2.pass (Program2.start input)) ↔
      EndsWithExit Program1.operands input ∧ EndsWithExit Program2.operands input := by
  rw [Program1.returns_iff, Program2.returns_iff]

/-- An input that ends behind the code 1 keeps both programs at their integrals. -/
theorem menus_do_not_end_after_one :
    (¬ ∀ prog, Returns Program1.pass (Program1.start [49, 10] prog)) ∧
      ¬ Returns Program2.pass (Program2.start [49, 10]) := by
  have hne : [49, 10].dropWhile TextStream.isSpace ≠ [] := List.cons_ne_nil 49 [10]
  constructor
  · intro h
    have hops : Program1.menu.operands (menuCode [49, 10]).value = some threeFloats := rfl
    exact Program1.menu.not_returns_of_incomplete (s := Program1.start [49, 10] 0) (fresh_mk _) hne
      hops (Or.inr rfl) (h 0)
  · have hops : Program2.menu.operands (menuCode [49, 10]).value = some threeFloats := rfl
    exact Program2.menu.not_returns_of_incomplete (s := Program2.start [49, 10]) (fresh_mk _) hne
      hops (Or.inr rfl)
