/-
# All three processes end

The children spin, so they only end if they are given turns.  If every process that has not finished
gets another turn again and again, the parent comes to the end of its input and sets `done` in both
files, and then each child takes what is left and leaves its loop.
-/
import OSLabs.FairRuns
import OSLabs.MappedSlotAccounts

namespace MappedSlot

/-! ## The parent -/

/-- The steps that the parent has still to take. -/
def World.parentSteps (w : World) : ℕ :=
  match w.parent with
  | .reading => w.input.length + 2
  | .closing => 1
  | .waiting => 0

/-- The parent takes the step. -/
def Event.IsParent : Event → Prop
  | .advance _ => False
  | _ => True

section Parent

variable {w : World} {e : Event} {c : Child}

/-- A child leaves the parent alone. -/
theorem advance_parent (w : World) (c : Child) :
    (advance w c).parent = w.parent ∧ (advance w c).input = w.input := by
  unfold advance
  dsimp only
  split <;> exact ⟨rfl, rfl⟩

/-- Each step of the parent is one fewer to take. -/
theorem parentSteps_lt (he : e.Enabled w) (hparent : e.IsParent) :
    (w.next e).parentSteps < w.parentSteps := by
  cases e with
  | advance c => exact hparent.elim
  | write =>
    obtain ⟨hreading, hne⟩ := he
    show (write w).parentSteps < _
    unfold write
    split
    · next hnil => exact absurd hnil hne
    · next below bytes input hinput =>
      simp only [World.parentSteps, hreading, hinput, List.length_cons]
      omega
  | close =>
    show (close w).parentSteps < _
    rcases he with ⟨hreading, -⟩ | hclosing
    · simp only [close, hreading, World.parentSteps]
      omega
    · simp only [close, hclosing, World.parentSteps]
      omega

/-- The other steps leave them as many. -/
theorem parentSteps_eq (hchild : ¬ e.IsParent) : (w.next e).parentSteps = w.parentSteps := by
  cases e with
  | advance c =>
    obtain ⟨hparent, hinput⟩ := advance_parent w c
    show (advance w c).parentSteps = _
    unfold World.parentSteps
    rw [hparent, hinput]
  | _ => exact absurd trivial hchild

/-- What was closed has `done` set. -/
structure Closed (w : World) : Prop where
  first : w.parent ≠ .reading → (w.shared .file1).done = true
  second : w.parent = .waiting → (w.shared .file2).done = true

/-- A child keeps `done`. -/
theorem advance_done (w : World) (c : Child) (f : MappedFile) :
    ((advance w c).shared f).done = (w.shared f).done := by
  unfold advance
  dsimp only
  split
  · rfl
  · rfl
  · rfl
  · unfold consume
    dsimp only
    by_cases hf : f = c.mapped
    · rw [hf, Function.update_self]
    · rw [Function.update_of_ne hf]
  · rfl

theorem Closed.next (h : Closed w) (he : e.Enabled w) : Closed (w.next e) := by
  cases e with
  | write =>
    have hreading : (write w).parent = .reading := by
      unfold write
      split <;> exact he.1
    exact ⟨fun hne => absurd hreading hne, fun heq => by
      rw [show w.next .write = write w from rfl, hreading] at heq
      cases heq⟩
  | close =>
    show Closed (close w)
    unfold close
    split
    · exact ⟨fun _ => by dsimp only; rw [Function.update_self], fun heq => by cases heq⟩
    · next hclosing =>
      have hfirst := h.first (by rw [hclosing]; decide)
      refine ⟨fun _ => ?_, fun _ => ?_⟩
      · dsimp only
        rw [Function.update_of_ne (by decide)]
        exact hfirst
      · dsimp only
        rw [Function.update_self]
    · exact h
  | advance c =>
    obtain ⟨hparent, -⟩ := advance_parent w c
    show Closed (advance w c)
    constructor
    · rw [hparent, advance_done]
      exact h.first
    · rw [hparent, advance_done]
      exact h.second

end Parent

/-! ## The children -/

/-- The steps that a child has still to take when `done` is set, at most; `full` tells whether
there is a line in its file. -/
def Phase.steps (full : Bool) : Phase → ℕ
  | .left => 0
  | .atSize => if full then 7 else 1
  | .atDone => if full then 8 else 2
  | .atTest => if full then 6 else 3
  | .atLock => if full then 5 else 4

/-- There is a line in the file of the child. -/
def World.full (w : World) (c : Child) : Bool := decide ((w.shared c.mapped).size > 0)

/-- The steps that the child has still to take when `done` is set, at most. -/
def World.childSteps (w : World) (c : Child) : ℕ := (w.child c).phase.steps (w.full c)

section Children

variable {w : World} {c c' : Child}

/-- A child that takes what is in the file leaves it empty. -/
theorem consume_full (w : World) (hsame : c'.mapped = c.mapped) : (consume w c).full c' = false := by
  have hsize : ((consume w c).shared c'.mapped).size = 0 := by
    show (Function.update w.shared c.mapped { w.shared c.mapped with size := 0 } c'.mapped).size = 0
    rw [hsame, Function.update_self]
  rw [World.full, hsize]
  rfl

theorem goto_full (w : World) (p : Phase) : (w.goto c p).full c' = w.full c' := rfl

/-- Both children map the same file. -/
theorem mapped_eq (c c' : Child) : c.mapped = c'.mapped := by
  cases c <;> cases c' <;> rfl

/-- Each step of a child is one fewer to take. -/
theorem childSteps_lt (hdone : (w.shared c.mapped).done = true) (hleft : (w.child c).phase ≠ .left) :
    (advance w c).childSteps c < w.childSteps c := by
  have hgoto : ∀ p, (w.goto c p).childSteps c = p.steps (w.full c) := by
    intro p
    unfold World.childSteps
    rw [goto_full, goto_child, if_pos rfl]
  unfold advance
  cases hphase : (w.child c).phase with
  | atDone =>
    dsimp only
    rw [if_pos hdone, hgoto, World.childSteps, hphase]
    cases w.full c <;> decide
  | atSize =>
    dsimp only
    rw [hgoto, World.childSteps, hphase]
    by_cases hsize : (w.shared c.mapped).size > 0
    · rw [if_pos hsize, show w.full c = true from decide_eq_true hsize]
      decide
    · rw [if_neg hsize, show w.full c = false from decide_eq_false hsize]
      decide
  | atTest =>
    dsimp only
    rw [hgoto, World.childSteps, hphase]
    by_cases hsize : (w.shared c.mapped).size > 0
    · rw [if_pos hsize, show w.full c = true from decide_eq_true hsize]
      decide
    · rw [if_neg hsize, show w.full c = false from decide_eq_false hsize]
      decide
  | atLock =>
    dsimp only
    have hchild : (consume w c).child c = _ := Function.update_self _ _ _
    have hself : ((consume w c).child c).phase = .atDone := by rw [hchild]
    rw [World.childSteps, consume_full w rfl, hself, World.childSteps, hphase]
    cases w.full c <;> decide
  | left => exact absurd hphase hleft

/-- A step of the other child adds none. -/
theorem childSteps_le (hne : c' ≠ c) : (advance w c).childSteps c' ≤ w.childSteps c' := by
  have hgoto : ∀ p, (w.goto c p).childSteps c' ≤ w.childSteps c' := by
    intro p
    unfold World.childSteps
    rw [goto_full, goto_child, if_neg hne]
  unfold advance
  dsimp only
  split
  · exact hgoto _
  · exact hgoto _
  · exact hgoto _
  · have hchild : (consume w c).child c' = w.child c' := Function.update_of_ne hne _ _
    unfold World.childSteps
    rw [consume_full w (mapped_eq c' c), hchild]
    cases (w.child c').phase <;> cases w.full c' <;> decide
  · exact le_rfl

/-- A child that has left its loop has no steps to take, and no other. -/
theorem childSteps_eq_zero : w.childSteps c = 0 ↔ (w.child c).phase = .left := by
  unfold World.childSteps
  cases (w.child c).phase <;> cases w.full c <;> decide

end Children

/-! ## Executions in which nobody starves -/

/-- An infinite execution from the start, in which every process that has not finished takes another
step again and again. -/
structure Fair (stack : Child → Chars) (input : List (Bool × List UInt8))
    (ρ : InfiniteRun (OrIdle Step)) : Prop where
  start : ρ.state 0 = initial stack input
  parent : Recurs fun n => (ρ.state n).parent = .waiting ∨ ∃ e, ρ.label n = some e ∧ e.IsParent
  child : ∀ c, Recurs fun n => ((ρ.state n).child c).phase = .left ∨
    ρ.label n = some (.advance c)

section Ending

variable {stack : Child → Chars} {input : List (Bool × List UInt8)}
  {ρ : InfiniteRun (OrIdle Step)} {n m : ℕ}

/-- What every step keeps holds from then on. -/
theorem preserves {P : World → Prop} (hstep : ∀ w e, P w → e.Enabled w → P (w.next e))
    (hP : P (ρ.state n)) (hle : n ≤ m) : P (ρ.state m) := by
  refine ρ.preserves (fun w l w' hw hst => ?_) hP hle
  cases l with
  | none =>
    obtain rfl : w' = w := hst
    exact hw
  | some e =>
    obtain ⟨he, rfl⟩ := hst
    exact hstep w e hw he

/-- **The parent comes to wait** for the children. -/
theorem Fair.exists_waiting (h : Fair stack input ρ) : ∃ n, (ρ.state n).parent = .waiting := by
  obtain ⟨m, -, -, -, hzero⟩ := h.parent.exists_turn (P := fun _ => True)
    (fun k => (ρ.state k).parentSteps) (n := 0) trivial
    (fun k _ _ hnot => by
      refine ⟨trivial, Nat.le_of_eq ?_⟩
      have hstep := ρ.step_at k
      cases hlabel : ρ.label k with
      | none =>
        rw [hlabel] at hstep
        rw [show ρ.state (k + 1) = ρ.state k from hstep]
      | some e =>
        rw [hlabel] at hstep
        obtain ⟨-, hnext⟩ := hstep
        rw [hnext]
        exact parentSteps_eq fun hparent => hnot (Or.inr ⟨e, hlabel, hparent⟩))
    (fun k _ _ hmine hrank => by
      refine ⟨trivial, ?_⟩
      rcases hmine with hwaiting | ⟨e, hlabel, hparent⟩
      · exact absurd (by rw [World.parentSteps, hwaiting]) hrank
      · have hstep := ρ.step_at k
        rw [hlabel] at hstep
        obtain ⟨he, hnext⟩ := hstep
        rw [hnext]
        exact parentSteps_lt he hparent)
  refine ⟨m, ?_⟩
  unfold World.parentSteps at hzero
  cases hparent : (ρ.state m).parent with
  | waiting => rfl
  | reading => simp [hparent] at hzero
  | closing => simp [hparent] at hzero

/-- The parent waits for good: only the children take steps then. -/
theorem waiting_next {w : World} {e : Event} (h : w.parent = .waiting) (he : e.Enabled w) :
    (w.next e).parent = .waiting ∧ ∃ c, e = .advance c := by
  cases e with
  | write => exact absurd (he.1.symm.trans h) (by decide)
  | close =>
    rcases he with ⟨hreading, -⟩ | hclosing
    · exact absurd (hreading.symm.trans h) (by decide)
    · exact absurd (hclosing.symm.trans h) (by decide)
  | advance c => exact ⟨(advance_parent w c).1.trans h, c, rfl⟩

/-- **A child leaves its loop** once the parent waits. -/
theorem Fair.exists_left (h : Fair stack input ρ) (hwait : (ρ.state n).parent = .waiting)
    (c : Child) : ∃ m, n ≤ m ∧ ((ρ.state m).child c).phase = .left := by
  have hclosed : ∀ k, Closed (ρ.state k) := by
    intro k
    refine preserves (fun w e hw he => hw.next he) (n := 0) ?_ (Nat.zero_le k)
    rw [h.start]
    exact ⟨fun hne => absurd rfl hne, fun heq => by cases heq⟩
  obtain ⟨m, hle, -, -, hzero⟩ := (h.child c).exists_turn
    (P := fun k => (ρ.state k).parent = .waiting) (fun k => (ρ.state k).childSteps c) hwait
    -- The other processes leave the child where it is.
    (fun k _ hk hnot => by
      have hstep := ρ.step_at k
      cases hlabel : ρ.label k with
      | none =>
        rw [hlabel] at hstep
        rw [show ρ.state (k + 1) = ρ.state k from hstep]
        exact ⟨hk, le_rfl⟩
      | some e =>
        rw [hlabel] at hstep
        obtain ⟨he, hnext⟩ := hstep
        obtain ⟨hwaiting, c', rfl⟩ := waiting_next hk he
        have hne : c ≠ c' := by
          rintro rfl
          exact hnot (Or.inr hlabel)
        rw [hnext]
        exact ⟨hwaiting, childSteps_le hne⟩)
    -- With `done` set, each of its own steps brings the child closer to the end.
    (fun k _ hk hmine hrank => by
      rcases hmine with hleft | hlabel
      · exact absurd (childSteps_eq_zero.mpr hleft) hrank
      · have hstep := ρ.step_at k
        rw [hlabel] at hstep
        obtain ⟨he, hnext⟩ := hstep
        obtain ⟨hwaiting, -⟩ := waiting_next hk he
        have hdone : ((ρ.state k).shared c.mapped).done = true := by
          have hfirst := (hclosed k).first (by rw [hk]; decide)
          cases c <;> exact hfirst
        rw [hnext]
        exact ⟨hwaiting, childSteps_lt hdone he⟩)
  exact ⟨m, hle, childSteps_eq_zero.mp hzero⟩

/-- A child that has left its loop stays outside. -/
theorem left_next {w : World} {e : Event} {c : Child} (h : (w.child c).phase = .left)
    (he : e.Enabled w) : ((w.next e).child c).phase = .left := by
  cases e with
  | write =>
    show ((write w).child c).phase = _
    unfold write
    split <;> exact h
  | close =>
    show ((close w).child c).phase = _
    unfold close
    split <;> exact h
  | advance c' =>
    have hne : c ≠ c' := by
      rintro rfl
      exact he h
    have hgoto : ∀ p, ((w.goto c' p).child c).phase = .left := by
      intro p
      rw [goto_child, if_neg hne, h]
    show ((advance w c').child c).phase = _
    unfold advance
    dsimp only
    split
    · exact hgoto _
    · exact hgoto _
    · exact hgoto _
    · have hchild : (consume w c').child c = w.child c := Function.update_of_ne hne _ _
      rw [hchild, h]
    · exact h

/-- **All three processes end.**  In every execution in which no process that has not finished is
starved, whatever the lines and the draws are, the parent and both children finish. -/
theorem processes_end (h : Fair stack input ρ) : ∃ n, ∀ m, n ≤ m → (ρ.state m).Finished := by
  obtain ⟨n, hwait⟩ := h.exists_waiting
  obtain ⟨m₁, hle₁, hleft₁⟩ := h.exists_left hwait .child1
  obtain ⟨m₂, hle₂, hleft₂⟩ := h.exists_left hwait .child2
  refine ⟨max m₁ m₂, fun m hm => ⟨?_, fun c => ?_⟩⟩
  · exact preserves (P := fun w => w.parent = .waiting) (fun w e hw he => (waiting_next hw he).1)
      hwait (by omega)
  · cases c with
    | child1 => exact preserves (fun w e hw he => left_next hw he) hleft₁ (by omega)
    | child2 => exact preserves (fun w e hw he => left_next hw he) hleft₂ (by omega)

end Ending

/-! ## An execution in turns -/

/-- The child whose turn it is, when it is not the turn of the parent. -/
def childAt (n : ℕ) : Child := if n % 3 = 1 then .child1 else .child2

/-- The step that the process whose turn it is can take. -/
def turn (n : ℕ) (w : World) : Option Event :=
  if n % 3 = 0 then
    if Event.write.Enabled w then some .write
    else if Event.close.Enabled w then some .close else none
  else if (Event.advance (childAt n)).Enabled w then some (.advance (childAt n)) else none

/-- The states when the processes take turns. -/
def inTurns (w : World) : ℕ → World
  | 0 => w
  | n + 1 => (turn n (inTurns w n)).elim (inTurns w n) (inTurns w n).next

theorem turn_enabled {n : ℕ} {w : World} {e : Event} (h : turn n w = some e) : e.Enabled w := by
  unfold turn at h
  split_ifs at h with hn hwrite hclose hadvance
  · exact Option.some_inj.mp h ▸ hwrite
  · exact Option.some_inj.mp h ▸ hclose
  · exact Option.some_inj.mp h ▸ hadvance

/-- The execution in which the processes take turns. -/
def turnExecution (w : World) : InfiniteRun (OrIdle Step) where
  state := inTurns w
  label n := turn n (inTurns w n)
  step_at n := by
    rw [inTurns]
    cases h : turn n (inTurns w n) with
    | none => rfl
    | some e => exact ⟨turn_enabled h, rfl⟩

/-- Nobody starves when the processes take turns. -/
theorem fair_turnExecution (stack : Child → Chars) (input : List (Bool × List UInt8)) :
    Fair stack input (turnExecution (initial stack input)) := by
  set ρ := turnExecution (initial stack input) with hρ
  have hlabel : ∀ n, ρ.label n = turn n (ρ.state n) := fun n => rfl
  refine ⟨rfl, fun n => ⟨3 * n, by omega, ?_⟩, fun c => ?_⟩
  · -- In every third turn it is the parent that goes on, or it is waiting.
    dsimp only
    rw [hlabel, turn, if_pos (by omega)]
    cases hparent : (ρ.state (3 * n)).parent with
    | waiting => exact Or.inl rfl
    | closing =>
      right
      have hwrite : ¬ Event.write.Enabled (ρ.state (3 * n)) := fun he => by
        rw [Event.Enabled, hparent] at he
        exact absurd he.1 (by decide)
      have hclose : Event.close.Enabled (ρ.state (3 * n)) := Or.inr hparent
      exact ⟨.close, by rw [if_neg hwrite, if_pos hclose], trivial⟩
    | reading =>
      right
      by_cases hwrite : Event.write.Enabled (ρ.state (3 * n))
      · exact ⟨.write, by rw [if_pos hwrite], trivial⟩
      · have hnil : (ρ.state (3 * n)).input = [] := by
          by_contra hne
          exact hwrite ⟨hparent, hne⟩
        have hclose : Event.close.Enabled (ρ.state (3 * n)) := Or.inl ⟨hparent, hnil⟩
        exact ⟨.close, by rw [if_neg hwrite, if_pos hclose], trivial⟩
  · -- The two turns between those belong to the children.
    have hturn : ∀ n, n % 3 ≠ 0 → childAt n = c →
        ((ρ.state n).child c).phase = .left ∨ ρ.label n = some (.advance c) := by
      rintro n hn rfl
      by_cases hleft : ((ρ.state n).child (childAt n)).phase = .left
      · exact Or.inl hleft
      · right
        have hadvance : (Event.advance (childAt n)).Enabled (ρ.state n) := hleft
        rw [hlabel, turn, if_neg hn, if_pos hadvance]
    cases c with
    | child1 =>
      exact fun n => ⟨3 * n + 1, by omega, hturn _ (by omega) (if_pos (by omega))⟩
    | child2 =>
      exact fun n => ⟨3 * n + 2, by omega, hturn _ (by omega) (if_neg (by omega))⟩

/-- With two lines, when the processes take turns. -/
theorem processes_end_two_lines :
    ∃ n, ∀ m, n ≤ m → (inTurns (initial (fun _ _ => 0) twoLines) m).Finished :=
  processes_end (fair_turnExecution (fun _ _ => 0) twoLines)

end MappedSlot
