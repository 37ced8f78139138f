/-
# Thread budgets of fork-join programs

A locked section that grants its outcome reserves threads, and a later section of the same label
releases them.  In a program that creates threads only under a reservation, what the tree of the
running threads still holds is what has been reserved and not yet released, and no more threads
run than are reserved.
-/
import OSLabs.ForkJoin

namespace Prog

variable {A B : Type} (amount : B → ℕ)

/-! ## Reservations of a running program -/

/-- What a program gives back in its first step. -/
def pending : Prog A B → ℕ
  | .lock b => amount b
  | _ => 0

@[simp] theorem pending_seq (p q : Prog A B) : (seq p q).pending amount = 0 := rfl

@[simp] theorem pending_test (b : B) (p q : Prog A B) : (test b p q).pending amount = 0 := rfl

@[simp] theorem pending_lock (b : B) : (lock b : Prog A B).pending amount = amount b := rfl

/-- What the running threads of a program have reserved and not yet released. -/
def held : Prog A B → ℕ
  | .seq p q => p.held + q.pending amount
  | .join p q => p.held + q.held
  | .lock b => amount b
  | _ => 0

/-- A thread counts until it has finished. -/
def unfinished : Prog A B → ℕ
  | .skip => 0
  | _ => 1

/-- The created threads that have not finished. -/
def threads : Prog A B → ℕ
  | .seq p _ => p.threads
  | .join p q => p.unfinished + p.threads + q.threads
  | _ => 0

/-- What a step reserves. -/
def Event.reserved : Event A B → ℕ
  | .test b true => amount b
  | _ => 0

/-- What a step releases. -/
def Event.released : Event A B → ℕ
  | .lock b => amount b
  | _ => 0

/-- A program that has not started.  It creates at most `k` threads besides those it reserves, and
a section that reserves is followed by one that releases the same. -/
inductive Fresh : ℕ → Prog A B → Prop
  | skip (k : ℕ) : Fresh k .skip
  | act (k : ℕ) (a : A) : Fresh k (.act a)
  | seq {k : ℕ} {p q : Prog A B} : Fresh k p → Fresh k q → Fresh k (.seq p q)
  | spawn {k : ℕ} {p q : Prog A B} : Fresh 0 p → Fresh k q → Fresh (k + 1) (.spawn p q)
  | test {k : ℕ} {b : B} {p q : Prog A B} : Fresh (amount b) p → Fresh k q →
      Fresh k (.test b (.seq p (.lock b)) q)

/-- A program in the middle of its run. -/
inductive Runs : ℕ → Prog A B → Prop
  | skip (k : ℕ) : Runs k .skip
  | act (k : ℕ) (a : A) : Runs k (.act a)
  | seq {k : ℕ} {p q : Prog A B} : Runs k p → Fresh amount k q → Runs k (.seq p q)
  | spawn {k : ℕ} {p q : Prog A B} : Fresh amount 0 p → Fresh amount k q →
      Runs (k + 1) (.spawn p q)
  | join {k : ℕ} {p q : Prog A B} : Runs 0 p → Runs k q → Runs (k + 1) (.join p q)
  | test {k : ℕ} {b : B} {p q : Prog A B} : Fresh amount (amount b) p → Fresh amount k q →
      Runs k (.test b (.seq p (.lock b)) q)
  | reserved {k : ℕ} {b : B} {p : Prog A B} : Runs (amount b) p → Runs k (.seq p (.lock b))
  | lock (k : ℕ) (b : B) : Runs k (.lock b)

variable {amount} {k : ℕ} {p p' : Prog A B} {e : Event A B}

/-- A program that has not started can run. -/
theorem Fresh.runs (h : Fresh amount k p) : Runs amount k p := by
  induction h with
  | skip k => exact .skip k
  | act k a => exact .act k a
  | seq _ hq ihp _ => exact .seq ihp hq
  | spawn hp hq _ _ => exact .spawn hp hq
  | test hp hq _ _ => exact .test hp hq

/-- It does not start with a release. -/
theorem Fresh.pending_eq (h : Fresh amount k p) : p.pending amount = 0 := by
  cases h <;> rfl

/-- It has reserved nothing. -/
theorem Fresh.held_eq (h : Fresh amount k p) : p.held amount = 0 := by
  induction h with
  | seq _ hq ihp _ => rw [held, ihp, hq.pending_eq]
  | _ => rfl

/-- A block of programs that have not started. -/
theorem fresh_block {ps : List (Prog A B)} (h : ∀ p ∈ ps, p.Fresh amount k) :
    (block ps).Fresh amount k := by
  induction ps with
  | nil => exact .skip k
  | cons p ps ih =>
      exact .seq (h p List.mem_cons_self) (ih fun q hq => h q (List.mem_cons_of_mem p hq))

/-- **A step keeps the discipline.** -/
theorem Step.runs (h : Step p e p') (hp : Runs amount k p) : Runs amount k p' := by
  induction h generalizing k with
  | act a => exact .skip k
  | seqLeft _ ih =>
      cases hp with
      | seq hleft hq => exact .seq (ih hleft) hq
      | reserved hleft => exact .reserved (ih hleft)
  | seqSkip q =>
      cases hp with
      | seq _ hq => exact hq.runs
      -- The branch is over: what is left of the section is its release.
      | reserved _ => exact .lock k _
  | spawn p q =>
      cases hp with
      | spawn hleft hright => exact .join hleft.runs hright.runs
  | joinLeft _ ih =>
      cases hp with
      | join hleft hright => exact .join (ih hleft) hright
  | joinRight _ ih =>
      cases hp with
      | join hleft hright => exact .join hleft (ih hright)
  | joinSkip => exact .skip k
  -- The granted branch runs under the reservation, whatever `k` was before.
  | testTrue b p q =>
      cases hp with
      | test hgrant _ => exact .reserved hgrant.runs
  | testFalse b p q =>
      cases hp with
      | test _ hrefuse => exact hrefuse.runs
  | lock b => exact .skip k

/-- **What a step does to the reservations.** -/
theorem Step.held_eq (h : Step p e p') (hp : Runs amount k p) :
    p'.held amount + e.released amount = p.held amount + e.reserved amount := by
  induction h generalizing k with
  | act a => rfl
  | seqLeft _ ih =>
      simp only [held]
      cases hp with
      | seq hleft _ =>
          have := ih hleft
          omega
      | reserved hleft =>
          have := ih hleft
          omega
  | seqSkip q =>
      cases hp with
      | seq _ hq =>
          simp only [held, hq.pending_eq, hq.held_eq]
          rfl
      -- The finished branch held only its own reservation, and `lock` still holds that.
      | reserved _ =>
          simp only [held, pending_lock, Nat.zero_add]
          rfl
  -- Neither side of a new thread has started, so neither holds anything.
  | spawn p q =>
      cases hp with
      | spawn hleft hright =>
          simp only [held, hleft.held_eq, hright.held_eq]
          rfl
  | joinLeft _ ih =>
      simp only [held]
      cases hp with
      | join hleft _ =>
          have := ih hleft
          omega
  | joinRight _ ih =>
      simp only [held]
      cases hp with
      | join _ hright =>
          have := ih hright
          omega
  | joinSkip => rfl
  | testTrue b p q =>
      cases hp with
      | test hgrant _ =>
          simp only [held, pending_lock, hgrant.held_eq]
          rfl
  | testFalse b p q =>
      cases hp with
      | test _ hrefuse =>
          rw [hrefuse.held_eq]
          rfl
  | lock b => simp only [held, Event.released, Event.reserved, Nat.zero_add, Nat.add_zero]

/-- **No more threads run than are reserved**, but for the `k` that the program may create. -/
theorem Runs.threads_le (h : Runs amount k p) : p.threads ≤ k + p.held amount := by
  -- The induction is on the discipline: `k` grows with a `join`, and `reserved` starts it anew.
  induction h with
  | seq _ _ ih =>
      simp only [threads, held]
      omega
  | @join k p q _ _ ihp ihq =>
      have hone : p.unfinished ≤ 1 := by cases p <;> simp [unfinished]
      simp only [threads, held]
      omega
  | reserved _ ih =>
      simp only [threads, held, pending_lock]
      omega
  | _ => exact Nat.zero_le _

/-! ## Peaks -/

/-- The most that the program may hold at one time. -/
def peak (amount : B → ℕ) : Prog A B → ℕ
  | .seq p q => max (p.peak amount + q.pending amount) (q.peak amount)
  | .spawn p q => p.peak amount + q.peak amount
  | .join p q => p.peak amount + q.peak amount
  | .test _ p q => max (p.peak amount) (q.peak amount)
  | .lock b => amount b
  | _ => 0

/-- What is held is below the peak. -/
theorem held_le_peak (p : Prog A B) : p.held amount ≤ p.peak amount := by
  induction p with
  | seq p q ihp _ =>
      simp only [held, peak]
      omega
  | join p q ihp ihq =>
      simp only [held, peak]
      omega
  | lock b => exact le_rfl
  | _ => exact Nat.zero_le _

/-- A block of programs that hold nothing holds nothing. -/
theorem peak_block {ps : List (Prog A B)} (h : ∀ p ∈ ps, p.peak amount = 0) :
    (block ps).peak amount = 0 := by
  induction ps with
  | nil => rfl
  | cons p ps ih =>
      have hpending : (block ps).pending amount = 0 := by cases ps <;> rfl
      show max (p.peak amount + (block ps).pending amount) ((block ps).peak amount) = 0
      rw [hpending, h p List.mem_cons_self, ih fun q hq => h q (List.mem_cons_of_mem p hq)]
      rfl

/-- A step does not raise the peak. -/
theorem Step.peak_le (h : Step p e p') : p'.peak amount ≤ p.peak amount := by
  induction h with
  | seqLeft _ ih => exact max_le_max_right _ (Nat.add_le_add_right ih _)
  | seqSkip q => exact le_max_right _ _
  | spawn p q => exact le_rfl
  | joinLeft _ ih => exact Nat.add_le_add_right ih _
  | joinRight _ ih => exact Nat.add_le_add_left ih _
  | joinSkip => exact le_rfl
  | testTrue b p q => exact le_max_left _ _
  | testFalse b p q => exact le_max_right _ _
  | _ => exact Nat.zero_le _

/-- A section may grant whatever it did decide. -/
theorem Step.grant {b : B} {o : Bool} (h : Step p (.test b o) p') :
    ∃ q, Step p (.test b true) q := by
  generalize he : Event.test b o = e at h
  induction h with
  | seqLeft _ ih =>
      obtain ⟨q, hq⟩ := ih he
      exact ⟨_, .seqLeft hq⟩
  | joinLeft _ ih =>
      obtain ⟨q, hq⟩ := ih he
      exact ⟨_, .joinLeft hq⟩
  | joinRight _ ih =>
      obtain ⟨q, hq⟩ := ih he
      exact ⟨_, .joinRight hq⟩
  | testTrue b' p q =>
      cases he
      exact ⟨_, .testTrue _ p q⟩
  | testFalse b' p q =>
      cases he
      exact ⟨_, .testTrue _ p q⟩
  | _ => cases he

/-- A section that is about to decide leaves room for its reservation below the peak. -/
theorem Step.held_add_le_peak {b : B} {o : Bool} (h : Step p (.test b o) p')
    (hp : Runs amount k p) : p.held amount + amount b ≤ p.peak amount := by
  -- The section may not have granted; the peak of the program it would have led to counts.
  obtain ⟨q, hq⟩ := h.grant
  calc
    p.held amount + amount b = q.held amount := (hq.held_eq hp).symm
    _ ≤ q.peak amount := q.held_le_peak
    _ ≤ p.peak amount := hq.peak_le

end Prog

/-! ## Systems with a budget -/

namespace ForkJoin

variable {A B σ : Type}

/-- The control state counts the reservations, and a section grants one only within the limit. -/
structure Budgeted (S : ForkJoin A B σ ℤ) (amount : B → ℕ) (limit : ℤ) : Prop where
  grant : ∀ b c c', S.test b true c c' → c' = c + amount b ∧ c' ≤ limit
  refuse : ∀ b c c', S.test b false c c' → c' = c
  release : ∀ b c c', S.lock b c c' → c' = c - amount b

/-- The budget is kept: the control state is what is held, and within the limit. -/
structure Kept (amount : B → ℕ) (limit : ℤ) (x : Config A B σ ℤ) : Prop where
  runs : x.prog.Runs amount 0
  held : x.ctrl = x.prog.held amount
  limit : x.ctrl ≤ max 0 limit

variable {S : ForkJoin A B σ ℤ} {amount : B → ℕ} {limit : ℤ} {x y : Config A B σ ℤ}
  {e : Prog.Event A B} {es : List (Prog.Event A B)}

/-- What a step does to the control state. -/
theorem Budgeted.ctrl_step (hS : Budgeted S amount limit) (h : S.Step x e y) :
    y.ctrl + e.released amount = x.ctrl + e.reserved amount ∧
      (y.ctrl ≤ x.ctrl ∨ y.ctrl ≤ limit) := by
  have hctrl := h.ctrl
  cases e with
  | act a =>
      rw [show y.ctrl = x.ctrl from hctrl]
      exact ⟨rfl, Or.inl le_rfl⟩
  | silent =>
      rw [show y.ctrl = x.ctrl from hctrl]
      exact ⟨rfl, Or.inl le_rfl⟩
  | test b o =>
      cases o with
      | true =>
          obtain ⟨hc, hle⟩ := hS.grant b _ _ hctrl
          refine ⟨?_, Or.inr hle⟩
          rw [hc]
          simp [Prog.Event.released, Prog.Event.reserved]
      | false =>
          rw [hS.refuse b _ _ hctrl]
          exact ⟨rfl, Or.inl le_rfl⟩
  | lock b =>
      rw [hS.release b _ _ hctrl]
      simp [Prog.Event.released, Prog.Event.reserved]

/-- **A step keeps the budget.** -/
theorem Budgeted.kept_step (hS : Budgeted S amount limit) (h : S.Step x e y)
    (hx : Kept amount limit x) : Kept amount limit y := by
  obtain ⟨hctrl, hle⟩ := hS.ctrl_step h
  have hheld := h.prog.held_eq hx.runs
  have hxheld := hx.held
  have hlimit := hx.limit
  constructor
  · exact h.prog.runs hx.runs
  · omega
  · -- A grant ends within the limit; any other step does not raise the state.
    rcases hle with hle | hle
    · exact hle.trans hlimit
    · exact hle.trans (le_max_right _ _)

/-- **A run keeps the budget**, and its control state is what the run reserved and did not
release. -/
theorem Budgeted.kept_run (hS : Budgeted S amount limit) (h : Run S.Step x es y)
    (hx : Kept amount limit x) :
    Kept amount limit y ∧
      y.ctrl + (es.map fun e => e.released amount).sum
        = x.ctrl + (es.map fun e => e.reserved amount).sum := by
  induction h with
  | nil x => exact ⟨hx, rfl⟩
  | @cons x z y e es hst _ ih =>
      obtain ⟨hy, hsum⟩ := ih (hS.kept_step hst hx)
      have hctrl := (hS.ctrl_step hst).1
      constructor
      · exact hy
      · simp only [List.map_cons, List.sum_cons, Nat.cast_add]
        omega

/-- Along a run the peak does not rise. -/
theorem peak_le_of_run (h : Run S.Step x es y) : y.prog.peak amount ≤ x.prog.peak amount := by
  induction h with
  | nil x => exact le_rfl
  | cons hst _ ih => exact ih.trans hst.prog.peak_le

end ForkJoin
