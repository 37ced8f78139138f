/-
# Runs of labelled transition systems

Finite runs of a step relation whose steps carry labels, with the rules the rest
of the development reasons by: what every step preserves holds along every run,
also together with the labels so far; a run of a restricted system is a run of the
full one; and a step-by-step simulation lifts to runs.  Nothing here mentions a
program.
-/
import Mathlib

/-! ## Runs -/

/-- `Run step s ls t`: the labels `ls`, oldest first, lead from `s` to `t`. -/
inductive Run {σ ℓ : Type*} (step : σ → ℓ → σ → Prop) : σ → List ℓ → σ → Prop
  | nil (s : σ) : Run step s [] s
  | cons {s t u : σ} {l : ℓ} {ls : List ℓ} :
      step s l t → Run step t ls u → Run step s (l :: ls) u

/-- `Reachable init step s`: some run from an initial state ends in `s`. -/
def Reachable {σ ℓ : Type*} (init : σ → Prop) (step : σ → ℓ → σ → Prop) (s : σ) : Prop :=
  ∃ s₀ ls, init s₀ ∧ Run step s₀ ls s

namespace Run

variable {σ τ ℓ : Type*} {step step' : σ → ℓ → σ → Prop}

/-- A single step is a run. -/
theorem single {s t : σ} {l : ℓ} (h : step s l t) : Run step s [l] t :=
  .cons h (.nil t)

/-- Runs compose. -/
theorem append {s t u : σ} {ls ms : List ℓ} (h₁ : Run step s ls t) (h₂ : Run step t ms u) :
    Run step s (ls ++ ms) u := by
  induction h₁ with
  | nil s => exact h₂
  | cons hstep _ ih => exact .cons hstep (ih h₂)

/-- A run can be extended at its end. -/
theorem snoc {s t u : σ} {ls : List ℓ} {l : ℓ} (h₁ : Run step s ls t) (h₂ : step t l u) :
    Run step s (ls ++ [l]) u :=
  h₁.append (single h₂)

/-- A run along a concatenation passes through a state between the two parts. -/
theorem exists_of_append {s u : σ} {ls ms : List ℓ} (h : Run step s (ls ++ ms) u) :
    ∃ t, Run step s ls t ∧ Run step t ms u := by
  induction ls generalizing s with
  | nil => exact ⟨s, .nil s, h⟩
  | cons l ls ih =>
      rw [List.cons_append] at h
      cases h with
      | cons hstep hrest =>
          obtain ⟨t, h₁, h₂⟩ := ih hrest
          exact ⟨t, .cons hstep h₁, h₂⟩

/-- **Invariant rule.**  What every step preserves, every run preserves. -/
theorem preserves {I : σ → Prop} (hstep : ∀ s l t, I s → step s l t → I t)
    {s t : σ} {ls : List ℓ} (h : Run step s ls t) (hs : I s) : I t := by
  induction h with
  | nil s => exact hs
  | cons hst _ ih => exact ih (hstep _ _ _ hs hst)

/-- **Termination rule.**  Where every step lessens a weight, a run is no longer than the weight
of its first state. -/
theorem length_le {I : σ → Prop} {weight : σ → ℕ} (hstep : ∀ s l t, I s → step s l t → I t)
    (hlt : ∀ s l t, I s → step s l t → weight t < weight s)
    {s t : σ} {ls : List ℓ} (h : Run step s ls t) (hs : I s) :
    ls.length + weight t ≤ weight s := by
  induction h with
  | nil s => exact Nat.le_of_eq (Nat.zero_add _)
  | cons hst _ ih =>
      have hrest := ih (hstep _ _ _ hs hst)
      have hfirst := hlt _ _ _ hs hst
      rw [List.length_cons]
      omega

/-- **Completion rule.**  Where moreover every state that is not done has a step, every run can be
completed. -/
theorem exists_complete {I done : σ → Prop} {weight : σ → ℕ}
    (hstep : ∀ s l t, I s → step s l t → I t) (hlt : ∀ s l t, I s → step s l t → weight t < weight s)
    (hprogress : ∀ s, I s → done s ∨ ∃ l t, step s l t) {s : σ} (hs : I s) :
    ∃ ls t, Run step s ls t ∧ done t := by
  induction hn : weight s using Nat.strong_induction_on generalizing s with
  | _ n ih =>
      rcases hprogress s hs with hdone | ⟨l, t, hst⟩
      · exact ⟨[], s, .nil s, hdone⟩
      · obtain ⟨ls, u, hrun, hdone⟩ := ih _ (hn ▸ hlt s l t hs hst) (hstep s l t hs hst) rfl
        exact ⟨l :: ls, u, .cons hst hrun, hdone⟩

/-- **Invariant rule with the history.**  What holds of the first state and no labels, and is
kept by every step together with its label, holds of every run and its labels. -/
theorem history {I : List ℓ → σ → Prop} {s t : σ} {ls : List ℓ} (h : Run step s ls t)
    (hnil : I [] s)
    (hstep : ∀ ls u l t, Run step s ls u → I ls u → step u l t → I (ls ++ [l]) t) : I ls t := by
  induction ls using List.reverseRecOn generalizing t with
  | nil =>
      cases h
      exact hnil
  | append_singleton ls l ih =>
      obtain ⟨u, hu, hlast⟩ := h.exists_of_append
      cases hlast with
      | cons hst hrest =>
          cases hrest
          exact hstep ls u l t hu (ih hu) hst

/-- A run of a system is a run of every system with more steps. -/
theorem mono (hstep : ∀ s l t, step s l t → step' s l t)
    {s t : σ} {ls : List ℓ} (h : Run step s ls t) : Run step' s ls t := by
  induction h with
  | nil s => exact .nil s
  | cons hst _ ih => exact .cons (hstep _ _ _ hst) ih

/-- The labels are possible one after the other in a system that computes its next state. -/
def Possible (enabled : σ → ℓ → Prop) (next : σ → ℓ → σ) : σ → List ℓ → Prop
  | _, [] => True
  | s, l :: ls => enabled s l ∧ Possible enabled next (next s l) ls

instance decidablePossible (enabled : σ → ℓ → Prop) (next : σ → ℓ → σ)
    [∀ s l, Decidable (enabled s l)] :
    (s : σ) → (ls : List ℓ) → Decidable (Possible enabled next s ls)
  | _, [] => inferInstanceAs (Decidable True)
  | s, l :: ls =>
    have := decidablePossible enabled next (next s l) ls
    inferInstanceAs (Decidable (enabled s l ∧ Possible enabled next (next s l) ls))

/-- Possible labels make a run. -/
theorem Possible.run {enabled : σ → ℓ → Prop} {next : σ → ℓ → σ} {s : σ} {ls : List ℓ}
    (h : Possible enabled next s ls) :
    Run (fun s l t => enabled s l ∧ t = next s l) s ls (ls.foldl next s) := by
  induction ls generalizing s with
  | nil => exact .nil s
  | cons l ls ih => exact .cons ⟨h.1, rfl⟩ (ih h.2)

/-- **Simulation rule.**  A relation under which every step is matched by a step
with the same label carries runs to runs with the same labels. -/
theorem simulate {stepA : τ → ℓ → τ → Prop} {R : σ → τ → Prop}
    (hstep : ∀ s l t a, R s a → step s l t → ∃ b, stepA a l b ∧ R t b)
    {s t : σ} {ls : List ℓ} (h : Run step s ls t) {a : τ} (hs : R s a) :
    ∃ b, Run stepA a ls b ∧ R t b := by
  induction h generalizing a with
  | nil s => exact ⟨a, .nil a, hs⟩
  | cons hst _ ih =>
      obtain ⟨b, hab, hb⟩ := hstep _ _ _ _ hs hst
      obtain ⟨c, hbc, hc⟩ := ih hb
      exact ⟨c, .cons hab hbc, hc⟩

/-- **Stuttering rule.**  Where every step is matched by a run, every run is; what relates the labels
of a step to those of its run relates the labels of the two runs. -/
theorem simulate_runs {stepA : τ → ℓ → τ → Prop} {R : σ → τ → Prop} {P : List ℓ → List ℓ → Prop}
    (hnil : P [] []) (happend : ∀ l ls ms ms', P [l] ms → P ls ms' → P (l :: ls) (ms ++ ms'))
    (hstep : ∀ s l t a, R s a → step s l t → ∃ ms b, Run stepA a ms b ∧ P [l] ms ∧ R t b)
    {s t : σ} {ls : List ℓ} (h : Run step s ls t) {a : τ} (hs : R s a) :
    ∃ ms b, Run stepA a ms b ∧ P ls ms ∧ R t b := by
  induction h generalizing a with
  | nil s => exact ⟨[], a, .nil a, hnil, hs⟩
  | cons hst _ ih =>
      obtain ⟨ms, b, hab, hms, hb⟩ := hstep _ _ _ _ hs hst
      obtain ⟨ms', c, hbc, hms', hc⟩ := ih hb
      exact ⟨ms ++ ms', c, hab.append hbc, happend _ _ _ _ hms hms', hc⟩

/-- **Refinement rule.**  Where every step is matched by a run of a system with other labels, every
run is. -/
theorem exists_image {κ : Type*} {stepA : τ → κ → τ → Prop} {R : σ → τ → Prop}
    (hstep : ∀ s l t a, R s a → step s l t → ∃ ms b, Run stepA a ms b ∧ R t b)
    {s t : σ} {ls : List ℓ} (h : Run step s ls t) {a : τ} (hs : R s a) :
    ∃ ms b, Run stepA a ms b ∧ R t b := by
  induction h generalizing a with
  | nil s => exact ⟨[], a, .nil a, hs⟩
  | cons hst _ ih =>
      obtain ⟨ms, b, hab, hb⟩ := hstep _ _ _ _ hs hst
      obtain ⟨ms', c, hbc, hc⟩ := ih hb
      exact ⟨ms ++ ms', c, hab.append hbc, hc⟩

/-! ## Two runs -/

section Twins

variable {seen : ℓ → Bool} {I : σ → Prop}

/-- What silent steps keep holds at the end of a run of silent steps. -/
theorem preserves_of_silent (hsilent : ∀ s l t, I s → seen l = false → step s l t → I t)
    {s t : σ} {ls : List ℓ} (h : Run step s ls t) (hls : ls.filter seen = []) (hs : I s) : I t := by
  induction h with
  | nil s => exact hs
  | @cons s t u l ls hst _ ih =>
      have hl : seen l = false := by
        simpa using List.filter_eq_nil_iff.mp hls l List.mem_cons_self
      rw [List.filter_cons_of_neg (by rw [hl]; exact Bool.false_ne_true)] at hls
      exact ih hls (hsilent _ _ _ hs hl hst)

/-- The first step of a run that is not silent. -/
theorem exists_seen (hsilent : ∀ s l t, I s → seen l = false → step s l t → I t)
    {s u : σ} {ls ms : List ℓ} {m : ℓ} (h : Run step s ls u) (hls : ls.filter seen = m :: ms)
    (hs : I s) : ∃ t t' ks, I t ∧ step t m t' ∧ Run step t' ks u ∧ ks.filter seen = ms := by
  induction h with
  | nil s => cases hls
  | @cons s t u l ls hst hrest ih =>
      cases hl : seen l with
      | true =>
          rw [List.filter_cons_of_pos hl] at hls
          obtain ⟨rfl, rfl⟩ := List.cons.inj hls
          exact ⟨s, t, ls, hs, hst, hrest, rfl⟩
      | false =>
          rw [List.filter_cons_of_neg (by rw [hl]; exact Bool.false_ne_true)] at hls
          exact ih hls (hsilent _ _ _ hs hl hst)

/-- **Two-run rule.**  Two runs whose steps that are not silent look alike have the same such
steps, if a relation is kept by the silent steps of each side, and on both sides at once by steps
that look alike, which then are the same. -/
theorem twin {κ : Type*} {stepA : τ → ℓ → τ → Prop} {R : σ → τ → Prop} {view : ℓ → κ}
    (hleft : ∀ s t l s', R s t → seen l = false → step s l s' → R s' t)
    (hright : ∀ s t l t', R s t → seen l = false → stepA t l t' → R s t')
    (hboth : ∀ s t l m s' t', R s t → seen l = true → view l = view m → step s l s' →
      stepA t m t' → l = m ∧ R s' t')
    {s s' : σ} {t t' : τ} {ls ms : List ℓ} (h : Run step s ls s') (h' : Run stepA t ms t')
    (hview : (ls.filter seen).map view = (ms.filter seen).map view) (hR : R s t) :
    ls.filter seen = ms.filter seen ∧ R s' t' := by
  induction h generalizing t ms with
  | nil s =>
      have hms : ms.filter seen = [] := List.map_eq_nil_iff.mp hview.symm
      exact ⟨hms.symm, h'.preserves_of_silent (I := R s) (hright s) hms hR⟩
  | @cons s u s' l ls hst _ ih =>
      cases hl : seen l with
      | false =>
          rw [List.filter_cons_of_neg (by rw [hl]; exact Bool.false_ne_true)] at hview ⊢
          exact ih h' hview (hleft _ _ _ _ hR hl hst)
      | true =>
          rw [List.filter_cons_of_pos hl] at hview ⊢
          cases hms : ms.filter seen with
          | nil =>
              rw [hms] at hview
              cases hview
          | cons m ms' =>
              rw [hms, List.map_cons, List.map_cons] at hview
              obtain ⟨hlook, hrest⟩ := List.cons.inj hview
              obtain ⟨v, v', ks, hv, hstv, hks, hfilter⟩ :=
                h'.exists_seen (I := R s) (hright s) hms hR
              obtain ⟨rfl, hR'⟩ := hboth _ _ _ _ _ _ hv hl hlook hst hstv
              rw [← hfilter] at hrest ⊢
              obtain ⟨hsame, hend⟩ := ih hks hrest hR'
              exact ⟨congrArg _ hsame, hend⟩

end Twins

end Run

namespace Reachable

variable {σ ℓ : Type*} {init : σ → Prop} {step : σ → ℓ → σ → Prop}

/-- Initial states are reachable. -/
theorem of_init {s : σ} (h : init s) : Reachable init step s :=
  ⟨s, [], h, .nil s⟩

/-- A step out of a reachable state leads to a reachable state. -/
theorem snoc {s t : σ} {l : ℓ} (h : Reachable init step s) (hst : step s l t) :
    Reachable init step t := by
  obtain ⟨s₀, ls, h₀, hrun⟩ := h
  exact ⟨s₀, ls ++ [l], h₀, hrun.snoc hst⟩

/-- **Invariant rule for reachable states.** -/
theorem invariant {I : σ → Prop} (hinit : ∀ s, init s → I s)
    (hstep : ∀ s l t, I s → step s l t → I t) {s : σ} (h : Reachable init step s) : I s := by
  obtain ⟨s₀, ls, h₀, hrun⟩ := h
  exact hrun.preserves hstep (hinit s₀ h₀)

end Reachable
