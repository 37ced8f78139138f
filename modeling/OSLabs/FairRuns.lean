/-
# Infinite runs and what must happen in them

An infinite run has a state and a label at every moment.  Some moments recur: those at which a given
process takes a turn, for instance.  What is kept until such a moment comes still holds then, and a
rank that each turn of a process lessens comes down to zero.  Nothing here mentions a program.
-/
import Mathlib.Tactic

/-- An infinite run: the state at every moment, and the label of the step that is taken then. -/
structure InfiniteRun {σ ℓ : Type*} (step : σ → ℓ → σ → Prop) where
  state : ℕ → σ
  label : ℕ → ℓ
  step_at : ∀ n, step (state n) (label n) (state (n + 1))

/-- There is always another moment with the property. -/
def Recurs (A : ℕ → Prop) : Prop := ∀ n, ∃ m, n ≤ m ∧ A m

/-- A step, or a moment at which nothing happens. -/
def OrIdle {σ ℓ : Type*} (step : σ → ℓ → σ → Prop) (s : σ) : Option ℓ → σ → Prop
  | some l, t => step s l t
  | none, t => t = s

/-! ## Moments -/

section Moments

variable {A P Q : ℕ → Prop} {n : ℕ}

/-- **Persistence rule.**  What is kept until a recurring moment comes holds at that moment. -/
theorem Recurs.exists_meeting (h : Recurs A) (hn : P n)
    (hkeep : ∀ k, n ≤ k → P k → ¬ A k → P (k + 1)) : ∃ m, n ≤ m ∧ P m ∧ A m := by
  obtain ⟨m, hle, hA⟩ := h n
  -- The induction is on the time that is left until the moment that is known to come.
  induction hd : m - n generalizing n with
  | zero =>
    obtain rfl : n = m := by omega
    exact ⟨n, le_rfl, hn, hA⟩
  | succ d ih =>
    by_cases hnow : A n
    · exact ⟨n, le_rfl, hn, hnow⟩
    · have hnext : P (n + 1) := hkeep n le_rfl hn hnow
      obtain ⟨m', hle', hmeet⟩ :=
        ih hnext (fun k hk => hkeep k (by omega)) (by omega) (by omega)
      exact ⟨m', by omega, hmeet⟩

/-- **Ranking rule.**  What holds until a goal is reached, with a rank that is lessened again and
again, leads to the goal. -/
theorem exists_of_rank (rank : ℕ → ℕ) (hn : P n)
    (hprogress : ∀ k, n ≤ k → P k → ∃ m, k ≤ m ∧ (Q m ∨ (P m ∧ rank m < rank k))) :
    ∃ m, n ≤ m ∧ Q m := by
  induction hr : rank n using Nat.strong_induction_on generalizing n with
  | _ r ih =>
    obtain ⟨m, hle, hgoal | ⟨hm, hlt⟩⟩ := hprogress n le_rfl hn
    · exact ⟨m, hle, hgoal⟩
    · obtain ⟨m', hle', hgoal⟩ :=
        ih (rank m) (by omega) hm (fun k hk => hprogress k (by omega)) rfl
      exact ⟨m', by omega, hgoal⟩

/-- **Turn rule.**  A rank that every turn of a process lessens and nothing else raises is zero at
some turn. -/
theorem Recurs.exists_turn {mine : ℕ → Prop} (h : Recurs mine) (rank : ℕ → ℕ) (hn : P n)
    (hother : ∀ k, n ≤ k → P k → ¬ mine k → P (k + 1) ∧ rank (k + 1) ≤ rank k)
    (hmine : ∀ k, n ≤ k → P k → mine k → rank k ≠ 0 → P (k + 1) ∧ rank (k + 1) < rank k) :
    ∃ m, n ≤ m ∧ P m ∧ mine m ∧ rank m = 0 := by
  apply exists_of_rank (P := P) rank hn
  intro k hk hP
  obtain ⟨m, hle, ⟨hPm, hrank⟩, hturn⟩ := h.exists_meeting (P := fun j => P j ∧ rank j ≤ rank k)
    (n := k) ⟨hP, le_rfl⟩ fun j hj hPj hnot => by
      obtain ⟨hnext, hle⟩ := hother j (by omega) hPj.1 hnot
      exact ⟨hnext, hle.trans hPj.2⟩
  by_cases hzero : rank m = 0
  · exact ⟨m, hle, Or.inl ⟨hPm, hturn, hzero⟩⟩
  · obtain ⟨hnext, hlt⟩ := hmine m (by omega) hPm hturn hzero
    exact ⟨m + 1, by omega, Or.inr ⟨hnext, by omega⟩⟩

/-- **Justice rule.**  Nobody can be ready for ever without a turn.  If at every moment the goal is
reached or somebody helps, who stays ready to help until a turn of theirs comes or the rank is
lessened, and whose turn lessens it, then the goal is reached. -/
theorem exists_of_just {ι : Type*} {ready turn H : ι → ℕ → Prop}
    (hjust : ∀ p, Recurs fun n => turn p n ∨ ¬ ready p n) (rank : ℕ → ℕ)
    (hsome : ∀ k, n ≤ k → Q k ∨ ∃ p, H p k)
    (hready : ∀ p k, H p k → ready p k)
    (hle : ∀ k, n ≤ k → rank (k + 1) ≤ rank k)
    (hhelps : ∀ p k, n ≤ k → H p k →
      rank (k + 1) < rank k ∨ (¬ turn p k ∧ H p (k + 1))) : ∃ m, n ≤ m ∧ Q m := by
  apply exists_of_rank (P := fun _ => True) rank trivial
  intro k hk _
  rcases hsome k hk with hgoal | ⟨p, hp⟩
  · exact ⟨k, le_rfl, Or.inl hgoal⟩
  -- Either the rank has been lessened on the way to the turn, or the one who helps still does.
  obtain ⟨m, hkm, hm, hturn⟩ := (hjust p).exists_meeting
    (P := fun j => rank j < rank k ∨ (rank j ≤ rank k ∧ H p j)) (n := k)
    (Or.inr ⟨le_rfl, hp⟩) fun j hj hP _ => by
      have hlej := hle j (by omega)
      rcases hP with hlt | ⟨hlej', hpj⟩
      · exact Or.inl (by omega)
      · rcases hhelps p j (by omega) hpj with hlt | ⟨-, hnext⟩
        · exact Or.inl (by omega)
        · exact Or.inr ⟨by omega, hnext⟩
  rcases hm with hlt | ⟨hlem, hpm⟩
  · exact ⟨m, hkm, Or.inr ⟨trivial, hlt⟩⟩
  · rcases hhelps p m (by omega) hpm with hlt | ⟨hnot, -⟩
    · exact ⟨m + 1, by omega, Or.inr ⟨trivial, by omega⟩⟩
    · rcases hturn with hmine | hidle
      · exact absurd hmine hnot
      · exact absurd (hready p m hpm) hidle

end Moments

/-! ## Infinite runs -/

namespace InfiniteRun

variable {σ ℓ : Type*} {step : σ → ℓ → σ → Prop} (ρ : InfiniteRun step)

/-- **Invariant rule.**  What every step keeps holds from then on. -/
theorem preserves {I : σ → Prop} (hstep : ∀ s l t, I s → step s l t → I t) {n m : ℕ}
    (hn : I (ρ.state n)) (hle : n ≤ m) : I (ρ.state m) := by
  induction m, hle using Nat.le_induction with
  | base => exact hn
  | succ m _ ih => exact hstep _ _ _ ih (ρ.step_at m)

end InfiniteRun
