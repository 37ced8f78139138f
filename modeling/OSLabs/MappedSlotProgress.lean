/-
# The semaphores exclude and nobody waits for ever

At most one process is under a semaphore.  If nobody who can go on is left without a turn for ever,
all three processes end, whatever they do in between: a process that has to wait is let in, since a
child only comes back to the semaphore when there is a new line.
-/
import OSLabs.FairRuns
import OSLabs.MappedSlotEnding
import OSLabs.MappedSlotRefinement

namespace MappedSlot

open Chars

namespace Bytes

/-! ## Somebody can always go on -/

section Ready

variable {w : World} {m : Mover} {f : MappedFile} {c : Child}

/-- Who holds a semaphore does not have to wait. -/
theorem World.Holds.enabled (h : w.Holds f m) : m.Enabled w := by
  cases m with
  | parent =>
    have hheld : w.parent.held = some f := h
    constructor
    · intro heq
      rw [heq] at hheld
      cases hheld
    · intro below bytes heq
      rw [heq] at hheld
      cases hheld
  | child c =>
    obtain ⟨hinside, -⟩ := h
    constructor
    · intro heq
      rw [heq] at hinside
      exact absurd hinside Bool.false_ne_true
    · intro heq
      rw [heq] at hinside
      exact absurd hinside Bool.false_ne_true

/-- Where the parent has to wait, a child is under the semaphore. -/
theorem World.Guarded.exists_child (h : w.Guarded) (hne : w.parent ≠ .waiting)
    (hblocked : ¬ Mover.parent.Enabled w) : ∃ c, (w.child c).place.inside = true := by
  have hwants : ∃ below bytes, w.parent = .entering below bytes ∧ w.sem (target below) = 0 := by
    by_contra hnone
    apply hblocked
    refine ⟨hne, fun below bytes heq hzero => hnone ⟨below, bytes, heq, hzero⟩⟩
  obtain ⟨below, bytes, hplace, hzero⟩ := hwants
  obtain ⟨m, hm⟩ := (h _).held hzero
  cases m with
  | parent =>
    have hheld : w.parent.held = _ := hm
    rw [hplace] at hheld
    cases hheld
  | child c => exact ⟨c, hm.1⟩

/-- **The processes are never stuck.** -/
theorem World.Guarded.exists_enabled (h : w.Guarded) (hnot : ¬ w.Finished) :
    ∃ m : Mover, m.Enabled w := by
  by_cases hparent : w.parent = .waiting
  · have hleft : ∃ c, (w.child c).place ≠ .left := by
      by_contra hall
      apply hnot
      refine ⟨hparent, fun c => ?_⟩
      by_contra hc
      exact hall ⟨c, hc⟩
    obtain ⟨c, hc⟩ := hleft
    by_cases hfree : w.sem c.mapped ≠ 0
    · exact ⟨.child c, hc, fun _ => hfree⟩
    · obtain ⟨m, hm⟩ := (h _).held (not_not.mp hfree)
      exact ⟨m, hm.enabled⟩
  · by_cases hready : Mover.parent.Enabled w
    · exact ⟨.parent, hready⟩
    · obtain ⟨c, hc⟩ := h.exists_child hparent hready
      have hholds : w.Holds c.mapped (.child c) := ⟨hc, rfl⟩
      exact ⟨.child c, hholds.enabled⟩

end Ready

/-! ## How many steps are left -/

/-- The steps of a child until it is out of the semaphore and its loop has nothing to do, at most;
with `ended`, until it leaves its loop.  `size` is what is stored in its file. -/
def ChildPlace.stepsLeft (ended : Bool) (size : ℕ) : ChildPlace → ℕ
  | .atDone => if size = 0 then (if ended then 2 else 0) else size + 13
  | .atSize => if size = 0 then (if ended then 1 else 0) else size + 12
  | .atTest => if size = 0 then (if ended then 3 else 0) else size + 11
  | .atLock => size + 10
  | .measuring => size + 9
  | .copying copy => copy.size - copy.pos + 8
  | .ending => 7
  | .printing => 6
  | .emptying => 5
  | .posting => if size = 0 then 4 else size + 14
  | .left => 0

/-- The steps that are left for both children. -/
def World.childrenLeft (ended : Bool) (w : World) : ℕ :=
  (w.child .child1).place.stepsLeft ended (w.shared .file1).size +
    (w.child .child2).place.stepsLeft ended (w.shared .file1).size

/-- What a new line may add to the steps of the children. -/
def lineCost : ℕ := 2 * (maxLine + 14)

/-- The steps that are left for the parent, each line with what it may add to those of the children. -/
def World.parentLeft (w : World) : ℕ :=
  (lineCost + maxLine + 10) * w.input.length +
    match w.parent with
    | .reading => 2
    | .entering _ _ => lineCost + maxLine + 10
    | .copying _ _ copy => lineCost + (copy.size - copy.pos) + 5
    | .sizing _ _ => lineCost + 4
    | .posting _ => 3
    | .closing => 1
    | .waiting => 0

/-- A larger size adds little. -/
theorem ChildPlace.stepsLeft_le {size size' : ℕ} (ended : Bool) (place : ChildPlace)
    (h : size' ≤ maxLine) :
    place.stepsLeft ended size' ≤ place.stepsLeft ended size + (maxLine + 14) := by
  cases place <;> grind [ChildPlace.stepsLeft]

/-- A file that is emptied adds nothing. -/
theorem ChildPlace.stepsLeft_zero_le (size : ℕ) (place : ChildPlace) (ended : Bool) :
    place.stepsLeft ended 0 ≤ place.stepsLeft ended size := by
  cases place <;> grind [ChildPlace.stepsLeft]

/-- Where a child goes next. -/
def ChildPlace.next (d : SharedData) : ChildPlace → ChildPlace
  | .atDone => if d.done then .atSize else .atTest
  | .atSize => if d.size > 0 then .atTest else .left
  | .atTest => if d.size > 0 then .atLock else .atDone
  | .atLock => .measuring
  | .measuring => .copying { size := d.size }
  | .copying copy => if copy.pos < copy.size then .copying (copy.advance d.data) else .ending
  | .ending => .printing
  | .printing => .emptying
  | .emptying => .posting
  | .posting => .atDone
  | .left => .left

/-- The size after the step of a child at this place. -/
def ChildPlace.sizeAfter (size : ℕ) (place : ChildPlace) : ℕ :=
  if place = .emptying then 0 else size

/-- No step of a child adds to its own. -/
theorem ChildPlace.stepsLeft_next_le (d : SharedData) (place : ChildPlace) :
    (place.next d).stepsLeft false (place.sizeAfter d.size) ≤ place.stepsLeft false d.size := by
  cases place with
  | copying copy => grind [ChildPlace.next, ChildPlace.stepsLeft, ChildPlace.sizeAfter, Copy.advance]
  | _ => grind [ChildPlace.next, ChildPlace.stepsLeft, ChildPlace.sizeAfter]

/-- A step under the semaphore, or into it, is one fewer to take, and so is every step when `done`
is set. -/
theorem ChildPlace.stepsLeft_next_lt {ended : Bool} {d : SharedData} {place : ChildPlace}
    (hne : place ≠ .left)
    (h : place.inside = true ∨ place = .atLock ∨ (ended = true ∧ d.done = true)) :
    (place.next d).stepsLeft ended (place.sizeAfter d.size) < place.stepsLeft ended d.size := by
  cases place with
  | copying copy => grind [ChildPlace.next, ChildPlace.stepsLeft, ChildPlace.sizeAfter, Copy.advance]
  | left => exact absurd rfl hne
  | _ => grind [ChildPlace.next, ChildPlace.stepsLeft, ChildPlace.sizeAfter, ChildPlace.inside]

section Children

variable {w : World} {c c' : Child}

theorem childNext_place (w : World) (c : Child) :
    ((childNext w c).child c).place = (w.child c).place.next (w.shared c.mapped) := by
  unfold childNext
  cases hplace : (w.child c).place with
  | copying copy =>
    dsimp only
    by_cases hpos : copy.pos < copy.size
    · simp only [hplace, ChildPlace.next, hpos, if_true, World.setChild_self]
    · simp only [hplace, ChildPlace.next, hpos, if_false, World.goto_self]
  | atLock =>
    simp only [hplace]
    exact congrArg ChildLocal.place (w.goto_self c .measuring)
  | emptying =>
    simp only [hplace]
    exact congrArg ChildLocal.place (w.goto_self c .posting)
  | posting =>
    simp only [hplace]
    exact congrArg ChildLocal.place (w.goto_self c .atDone)
  | _ => simp [hplace, ChildPlace.next, World.goto_self, World.setChild_self]

theorem childNext_size (w : World) (c : Child) :
    ((childNext w c).shared .file1).size =
      (w.child c).place.sizeAfter (w.shared .file1).size := by
  have hmapped : c.mapped = .file1 := by cases c <;> rfl
  unfold childNext
  cases hplace : (w.child c).place with
  | copying copy =>
    dsimp only
    by_cases hpos : copy.pos < copy.size
    · simp only [hplace, hpos, if_true]
      rfl
    · simp only [hplace, hpos, if_false]
      rfl
  | emptying =>
    simp only [hplace, hmapped]
    show (Function.update w.shared _ _ _).size = 0
    rw [Function.update_self]
  | _ =>
    simp only [hplace]
    rfl

/-- A step of one child adds nothing to the other. -/
theorem ChildPlace.stepsLeft_sizeAfter_le (ended : Bool) (size : ℕ) (place other : ChildPlace) :
    other.stepsLeft ended (place.sizeAfter size) ≤ other.stepsLeft ended size := by
  unfold ChildPlace.sizeAfter
  split_ifs
  · exact other.stepsLeft_zero_le size ended
  · exact le_rfl

/-- The steps that are left after a step of a child, of which only its own count. -/
theorem childrenLeft_childNext (w : World) (c : Child) (ended : Bool) :
    (childNext w c).childrenLeft ended + (w.child c).place.stepsLeft ended (w.shared .file1).size ≤
      w.childrenLeft ended + ((w.child c).place.next (w.shared .file1)).stepsLeft ended
        ((w.child c).place.sizeAfter (w.shared .file1).size) := by
  have hother := (w.child c).place.stepsLeft_sizeAfter_le ended (w.shared .file1).size
  unfold World.childrenLeft
  rw [childNext_size]
  cases c with
  | child1 =>
    have hplace := childNext_place w .child1
    rw [hplace, childNext_other w (by decide : Child.child2 ≠ Child.child1)]
    have := hother (w.child .child2).place
    simp only [Child.mapped]
    omega
  | child2 =>
    have hplace := childNext_place w .child2
    rw [hplace, childNext_other w (by decide : Child.child1 ≠ Child.child2)]
    have := hother (w.child .child1).place
    simp only [Child.mapped]
    omega

/-- No step of a child adds to the steps that are left. -/
theorem childrenLeft_childNext_le (w : World) (c : Child) :
    (childNext w c).childrenLeft false ≤ w.childrenLeft false := by
  have hsum := childrenLeft_childNext w c false
  have hown := ChildPlace.stepsLeft_next_le (w.shared .file1) (w.child c).place
  omega

/-- A step under the semaphore, or into it, is one fewer, and so is every step when `done` is set. -/
theorem childrenLeft_childNext_lt (ended : Bool) (hne : (w.child c).place ≠ .left)
    (h : (w.child c).place.inside = true ∨ (w.child c).place = .atLock ∨
      (ended = true ∧ (w.shared .file1).done = true)) :
    (childNext w c).childrenLeft ended < w.childrenLeft ended := by
  have hsum := childrenLeft_childNext w c ended
  have hown := ChildPlace.stepsLeft_next_lt hne h
  omega

end Children

/-! ## The parent -/

section Parent

variable {w : World}

/-- The children have as many steps left when neither their places nor the size change. -/
theorem childrenLeft_congr {w' : World} {ended : Bool} (hchild : w'.child = w.child)
    (hsize : (w'.shared .file1).size = (w.shared .file1).size) :
    w'.childrenLeft ended = w.childrenLeft ended := by
  unfold World.childrenLeft
  rw [hchild, hsize]

theorem strlen_le (s : Chars) : strlen maxLine s ≤ maxLine := length_textFrom_le _ _ _

/-- Of the steps of the parent only the store to `size` changes the size of a file. -/
theorem size_parentNext (hnot : ∀ below bytes, w.parent ≠ .sizing below bytes) (f : MappedFile) :
    ((parentNext w).shared f).size = (w.shared f).size := by
  have hstore : ∀ (g : MappedFile) (d : SharedData), d.size = (w.shared g).size →
      (Function.update w.shared g d f).size = (w.shared f).size := by
    intro g d hd
    by_cases hf : f = g
    · rw [hf, Function.update_self, hd]
    · rw [Function.update_of_ne hf]
  unfold parentNext
  cases hplace : w.parent with
  | reading =>
    cases w.input with
    | nil => exact hstore _ _ rfl
    | cons x rest => rfl
  | copying below bytes copy =>
    dsimp only
    split_ifs
    · exact hstore _ _ rfl
    · rfl
  | sizing below bytes => exact absurd hplace (hnot below bytes)
  | closing => exact hstore _ _ rfl
  | _ => rfl

/-- The new line may give each child another round. -/
theorem childrenLeft_of_sizing {below : Bool} {bytes : List UInt8}
    (hplace : w.parent = .sizing below bytes) :
    (parentNext w).childrenLeft false ≤ w.childrenLeft false + lineCost := by
  have hnext : parentNext w = { w with parent := .posting below }.setShared (target below)
      { w.shared (target below) with size := strlen maxLine (lineArray bytes) } := by
    simp only [parentNext, hplace]
  by_cases hf : MappedFile.file1 = target below
  · have hsize : ((parentNext w).shared .file1).size = strlen maxLine (lineArray bytes) := by
      rw [hnext]
      show (Function.update w.shared _ _ _).size = _
      rw [← hf, Function.update_self]
    have hle : ∀ place : ChildPlace, place.stepsLeft false (strlen maxLine (lineArray bytes)) ≤
        place.stepsLeft false (w.shared .file1).size + (maxLine + 14) :=
      fun place => place.stepsLeft_le false (strlen_le _)
    have h₁ := hle (w.child .child1).place
    have h₂ := hle (w.child .child2).place
    unfold World.childrenLeft lineCost
    rw [hsize, parentNext_child]
    omega
  · -- The children look at the first file only.
    have hsame : (parentNext w).childrenLeft false = w.childrenLeft false := by
      apply childrenLeft_congr (parentNext_child w)
      rw [hnext]
      show (Function.update w.shared _ _ _).size = _
      rw [Function.update_of_ne hf]
    omega

/-- The store to `size` pays for that round. -/
theorem parentLeft_of_sizing {below : Bool} {bytes : List UInt8}
    (hplace : w.parent = .sizing below bytes) :
    (parentNext w).parentLeft + lineCost < w.parentLeft := by
  have hnext : parentNext w = { w with parent := .posting below }.setShared (target below)
      { w.shared (target below) with size := strlen maxLine (lineArray bytes) } := by
    simp only [parentNext, hplace]
  rw [hnext]
  simp only [World.parentLeft, World.setShared, hplace]
  omega

/-- Every step of the parent is one fewer for it. -/
theorem parentLeft_parentNext (he : Mover.parent.Enabled w) :
    (parentNext w).parentLeft < w.parentLeft := by
  cases hplace : w.parent with
  | reading =>
    cases hinput : w.input with
    | nil =>
      simp only [parentNext, World.parentLeft, World.setShared, hplace, hinput]
      omega
    | cons x rest =>
      simp only [parentNext, World.parentLeft, hplace, hinput, List.length_cons, Nat.mul_succ]
      omega
  | entering below bytes =>
    have hlen := strlen_le (lineArray bytes)
    simp only [parentNext, World.parentLeft, World.semWait, hplace]
    omega
  | copying below bytes copy =>
    by_cases hpos : copy.pos < copy.size
    · simp only [parentNext, World.parentLeft, World.setShared, hplace, hpos, if_true, Copy.advance]
      omega
    · simp only [parentNext, World.parentLeft, hplace, hpos, if_false]
      omega
  | sizing below bytes =>
    have hpaid := parentLeft_of_sizing hplace
    omega
  | posting below =>
    simp only [parentNext, World.parentLeft, World.semPost, hplace]
    omega
  | closing =>
    simp only [parentNext, World.parentLeft, World.setShared, hplace]
    omega
  | waiting => exact absurd hplace he.1

/-- **Every step of the parent** is paid for by what is left for it. -/
theorem left_parentNext (he : Mover.parent.Enabled w) :
    (parentNext w).parentLeft + (parentNext w).childrenLeft false <
      w.parentLeft + w.childrenLeft false := by
  by_cases hsizing : ∃ below bytes, w.parent = .sizing below bytes
  · obtain ⟨below, bytes, hplace⟩ := hsizing
    have hparent := parentLeft_of_sizing hplace
    have hchildren := childrenLeft_of_sizing hplace
    omega
  · have hnot : ∀ below bytes, w.parent ≠ .sizing below bytes :=
      fun below bytes hplace => hsizing ⟨below, bytes, hplace⟩
    rw [childrenLeft_congr (parentNext_child w) (size_parentNext hnot .file1)]
    exact Nat.add_lt_add_right (parentLeft_parentNext he) _

/-- A step of a child leaves the parent's steps alone. -/
theorem parentLeft_childNext (w : World) (c : Child) :
    (childNext w c).parentLeft = w.parentLeft := by
  obtain ⟨hparent, hinput⟩ := childNext_parent w c
  unfold World.parentLeft
  rw [hparent, hinput]

end Parent

/-! ## Executions in which nobody is left out -/

/-- An infinite execution from the start, in which nobody who can go on all the time is left without a
step for ever.  Who waits for a semaphore may find it taken whenever it looks. -/
structure Just (stack : Child → Chars) (input : List (Bool × List UInt8))
    (ρ : InfiniteRun (OrIdle Step)) : Prop where
  start : ρ.state 0 = initial stack input
  just : ∀ m : Mover, Recurs fun n => ρ.label n = some m ∨ ¬ m.Enabled (ρ.state n)

section Ending

variable {stack : Child → Chars} {input : List (Bool × List UInt8)}
  {ρ : InfiniteRun (OrIdle Step)} {n k : ℕ} {w : World} {c : Child} {m : Mover}

/-- What a moment brings: nothing, or a step of somebody. -/
theorem step_cases (ρ : InfiniteRun (OrIdle Step)) (k : ℕ) :
    (ρ.label k = none ∧ ρ.state (k + 1) = ρ.state k) ∨
      ∃ m : Mover, ρ.label k = some m ∧ m.Enabled (ρ.state k) ∧
        ρ.state (k + 1) = (ρ.state k).next m := by
  have hstep := ρ.step_at k
  cases hlabel : ρ.label k with
  | none =>
    rw [hlabel] at hstep
    exact Or.inl ⟨rfl, hstep⟩
  | some m =>
    rw [hlabel] at hstep
    exact Or.inr ⟨m, rfl, hstep.1, hstep.2⟩

/-- At every moment the semaphores go with their holders, and `done` is set when the parent waits. -/
theorem Just.always (h : Just stack input ρ) (k : ℕ) :
    (ρ.state k).Guarded ∧
      ((ρ.state k).parent = .waiting → ((ρ.state k).shared .file1).done = true) := by
  have hstands : ∃ a, Represents (ρ.state k) a ∧ Closed a := by
    induction k with
    | zero =>
      refine ⟨_, h.start ▸ represents_initial stack input, fun hne => absurd rfl hne, ?_⟩
      intro heq
      cases heq
    | succ k ih =>
      obtain ⟨a, hrep, hclosed⟩ := ih
      rcases step_cases ρ k with ⟨-, hsame⟩ | ⟨m, -, he, hnext⟩
      · rw [hsame]
        exact ⟨a, hrep, hclosed⟩
      · rw [hnext]
        obtain ⟨es, b, hrun, -, hb⟩ := hrep.step he
        refine ⟨b, hb, hrun.preserves (fun s e t hs hst => ?_) hclosed⟩
        obtain ⟨hes, rfl⟩ := hst
        exact hs.next hes
  obtain ⟨a, hrep, hclosed⟩ := hstands
  refine ⟨hrep.guarded, fun hwaiting => ?_⟩
  rw [← hrep.done]
  apply hclosed.first
  rw [hrep.parent, hwaiting]
  decide

/-- Only a child that comes out of `sem_wait` lessens a semaphore. -/
theorem childNext_sem (hne : (w.child c).place ≠ .atLock) (f : MappedFile) :
    w.sem f ≤ (childNext w c).sem f := by
  unfold childNext
  dsimp only
  cases hplace : (w.child c).place with
  | atLock => exact absurd hplace hne
  | copying copy =>
    dsimp only
    split_ifs
    · exact le_refl (w.sem f)
    · exact le_refl (w.sem f)
  | posting =>
    show w.sem f ≤ Function.update w.sem c.mapped (w.sem c.mapped + 1) f
    by_cases hf : f = c.mapped
    · rw [hf, Function.update_self]
      exact Nat.le_succ _
    · rw [Function.update_of_ne hf]
  | _ => exact le_refl (w.sem f)

/-- A child that does not take the semaphore lets the parent go on. -/
theorem enabled_childNext (he : Mover.parent.Enabled w) (hne : (w.child c).place ≠ .atLock) :
    Mover.parent.Enabled (childNext w c) := by
  constructor
  · rw [(childNext_parent w c).1]
    exact he.1
  · intro below bytes hplace
    rw [(childNext_parent w c).1] at hplace
    have hpos := he.2 below bytes hplace
    have hle := childNext_sem hne (target below)
    omega

/-- Who helps the parent: the parent itself, and a child that is under the semaphore. -/
def World.Helps (w : World) : Mover → Prop
  | .parent => Mover.parent.Enabled w
  | .child c => (w.child c).place.inside = true

/-- What is left for all three, as long as the parent is not done. -/
def World.left (w : World) : ℕ := w.parentLeft + w.childrenLeft false

/-- No step adds to what is left. -/
theorem left_next_le (he : m.Enabled w) : (w.next m).left ≤ w.left := by
  cases m with
  | parent => exact Nat.le_of_lt (left_parentNext he)
  | child c =>
    have hparent := parentLeft_childNext w c
    have hchildren := childrenLeft_childNext_le w c
    show (childNext w c).parentLeft + (childNext w c).childrenLeft false ≤ _
    unfold World.left
    omega

/-- A step of a child under the semaphore, or into it, leaves less. -/
theorem left_childNext_lt (he : (Mover.child c).Enabled w)
    (h : (w.child c).place.inside = true ∨ (w.child c).place = .atLock) :
    (childNext w c).left < w.left := by
  have hparent := parentLeft_childNext w c
  have hchildren := childrenLeft_childNext_lt false he.1 (by
    rcases h with h | h
    · exact Or.inl h
    · exact Or.inr (Or.inl h))
  unfold World.left
  omega

/-- Who helps still helps after a step of another, or less is left. -/
theorem World.Helps.next {m' : Mover} (h : w.Helps m) (he : m'.Enabled w) :
    (w.next m').left < w.left ∨ (m' ≠ m ∧ (w.next m').Helps m) := by
  cases m' with
  | parent =>
    left
    exact left_parentNext he
  | child c =>
    by_cases hlock : (w.child c).place = .atLock
    · exact Or.inl (left_childNext_lt he (Or.inr hlock))
    · cases m with
      | parent => exact Or.inr ⟨by simp, enabled_childNext h hlock⟩
      | child c' =>
        by_cases hc : c' = c
        · subst hc
          exact Or.inl (left_childNext_lt he (Or.inl h))
        · right
          refine ⟨fun heq => hc (Mover.child.inj heq).symm, ?_⟩
          show ((childNext w c).child c').place.inside = true
          rw [childNext_other w hc]
          exact h

/-- **The parent comes to wait** for the children. -/
theorem Just.exists_waiting (h : Just stack input ρ) : ∃ n, (ρ.state n).parent = .waiting := by
  obtain ⟨n, -, hn⟩ := exists_of_just (n := 0) (Q := fun k => (ρ.state k).parent = .waiting)
    (H := fun m k => (ρ.state k).Helps m) h.just (fun k => (ρ.state k).left)
    (fun k _ => by
      by_cases hwaiting : (ρ.state k).parent = .waiting
      · exact Or.inl hwaiting
      · right
        by_cases he : Mover.parent.Enabled (ρ.state k)
        · exact ⟨.parent, he⟩
        · obtain ⟨c, hc⟩ := (h.always k).1.exists_child hwaiting he
          exact ⟨.child c, hc⟩)
    (fun m k hm => by
      cases m with
      | parent => exact hm
      | child c =>
        have hholds : (ρ.state k).Holds c.mapped (.child c) := ⟨hm, rfl⟩
        exact hholds.enabled)
    (fun k _ => by
      rcases step_cases ρ k with ⟨-, hsame⟩ | ⟨m, -, he, hnext⟩
      · rw [hsame]
      · rw [hnext]
        exact left_next_le he)
    (fun m k _ hm => by
      rcases step_cases ρ k with ⟨hlabel, hsame⟩ | ⟨m', hlabel, he, hnext⟩
      · right
        rw [hlabel, hsame]
        exact ⟨by simp, hm⟩
      · rw [hlabel, hnext]
        rcases World.Helps.next hm he with hlt | ⟨hne, hstill⟩
        · exact Or.inl hlt
        · exact Or.inr ⟨fun heq => hne (Option.some_inj.mp heq), hstill⟩)
  exact ⟨n, hn⟩

/-- The parent waits from then on. -/
theorem waiting_stays (hn : (ρ.state n).parent = .waiting) (hle : n ≤ k) :
    (ρ.state k).parent = .waiting := by
  induction k, hle using Nat.le_induction with
  | base => exact hn
  | succ k _ ih =>
    rcases step_cases ρ k with ⟨-, hsame⟩ | ⟨m, -, he, hnext⟩
    · rw [hsame]
      exact ih
    · rw [hnext]
      cases m with
      | parent => exact absurd ih he.1
      | child c => exact (childNext_parent _ c).1.trans ih

/-- Once the parent waits, every step leaves the children fewer. -/
theorem childrenLeft_next_lt (hwaiting : w.parent = .waiting)
    (hdone : (w.shared .file1).done = true) (he : m.Enabled w) :
    (w.next m).childrenLeft true < w.childrenLeft true := by
  cases m with
  | parent => exact absurd hwaiting he.1
  | child c => exact childrenLeft_childNext_lt true he.1 (Or.inr (Or.inr ⟨rfl, hdone⟩))

/-- What has finished stays as it is. -/
theorem finished_stays (hn : (ρ.state n).Finished) (hle : n ≤ k) : (ρ.state k).Finished := by
  induction k, hle using Nat.le_induction with
  | base => exact hn
  | succ k _ ih =>
    rcases step_cases ρ k with ⟨-, hsame⟩ | ⟨m, -, he, -⟩
    · rw [hsame]
      exact ih
    · cases m with
      | parent => exact absurd ih.1 he.1
      | child c => exact absurd (ih.2 c) he.1

/-- **Nobody waits for ever**: in every execution in which nobody who can go on is left out, the
three processes end. -/
theorem nobody_waits_for_ever (h : Just stack input ρ) :
    ∃ n, ∀ k, n ≤ k → (ρ.state k).Finished := by
  obtain ⟨n, hwaiting⟩ := h.exists_waiting
  obtain ⟨k, -, hk⟩ := exists_of_just (n := n) (Q := fun k => (ρ.state k).Finished)
    (H := fun m k => m.Enabled (ρ.state k)) h.just (fun k => (ρ.state k).childrenLeft true)
    (fun k _ => by
      by_cases hfinished : (ρ.state k).Finished
      · exact Or.inl hfinished
      · exact Or.inr ((h.always k).1.exists_enabled hfinished))
    (fun m k hm => hm)
    (fun k hk => by
      have hwaits := waiting_stays hwaiting hk
      rcases step_cases ρ k with ⟨-, hsame⟩ | ⟨m, -, he, hnext⟩
      · rw [hsame]
      · rw [hnext]
        exact Nat.le_of_lt (childrenLeft_next_lt hwaits ((h.always k).2 hwaits) he))
    (fun m k hk hm => by
      have hwaits := waiting_stays hwaiting hk
      rcases step_cases ρ k with ⟨hlabel, hsame⟩ | ⟨m', -, he, hnext⟩
      · right
        rw [hlabel, hsame]
        exact ⟨by simp, hm⟩
      · left
        rw [hnext]
        exact childrenLeft_next_lt hwaits ((h.always k).2 hwaits) he)
  exact ⟨k, fun j hj => finished_stays hk hj⟩

end Ending

/-! ## Turns -/

/-- Whose turn it is. -/
def moverAt (n : ℕ) : Mover :=
  if n % 3 = 0 then .parent else if n % 3 = 1 then .child .child1 else .child .child2

/-- The states when the processes take turns, and who cannot go on lets the turn pass. -/
def inTurns (w : World) : ℕ → World
  | 0 => w
  | n + 1 => if (moverAt n).Enabled (inTurns w n) then (inTurns w n).next (moverAt n)
    else inTurns w n

/-- The execution in which the processes take turns. -/
def turnExecution (w : World) : InfiniteRun (OrIdle Step) where
  state := inTurns w
  label n := if (moverAt n).Enabled (inTurns w n) then some (moverAt n) else none
  step_at n := by
    rw [inTurns]
    split_ifs with he
    · exact ⟨he, rfl⟩
    · rfl

/-- Nobody is left out when the processes take turns. -/
theorem just_turnExecution (stack : Child → Chars) (input : List (Bool × List UInt8)) :
    Just stack input (turnExecution (initial stack input)) := by
  refine ⟨rfl, fun m n => ?_⟩
  have hturn : ∀ k, moverAt k = m →
      (turnExecution (initial stack input)).label k = some m ∨
        ¬ m.Enabled ((turnExecution (initial stack input)).state k) := by
    rintro k rfl
    by_cases he : (moverAt k).Enabled (inTurns (initial stack input) k)
    · exact Or.inl (if_pos he)
    · exact Or.inr he
  cases m with
  | parent => exact ⟨3 * n, by omega, hturn _ (by simp [moverAt])⟩
  | child c =>
    cases c with
    | child1 => exact ⟨3 * n + 1, by omega, hturn _ (by simp [moverAt, Nat.add_mod])⟩
    | child2 => exact ⟨3 * n + 2, by omega, hturn _ (by simp [moverAt, Nat.add_mod])⟩

/-- With two lines, when the processes take turns. -/
theorem nobody_waits_for_ever_two_lines :
    ∃ n, ∀ k, n ≤ k → (inTurns (initial (fun _ _ => 0) twoLines) k).Finished :=
  nobody_waits_for_ever (just_turnExecution (fun _ _ => 0) twoLines)

/-! ## Exclusion -/

/-- **Semaphores exclude**: at any time at most one process is under the semaphore of a file, which
is zero exactly then, and as long as the processes have not finished somebody can go on. -/
theorem semaphores_exclude {stack : Child → Chars} {input : List (Bool × List UInt8)}
    {ms : List Mover} {w : World} (h : Run Step (initial stack input) ms w) :
    (∀ f m m', w.Holds f m → w.Holds f m' → m = m') ∧
      (∀ f, w.sem f ≤ 1 ∧ (w.sem f = 0 ↔ ∃ m, w.Holds f m)) ∧
      (w.Finished ∨ ∃ m : Mover, m.Enabled w) := by
  have hguarded : w.Guarded := by
    apply h.preserves _ (guarded_initial stack input)
    rintro s m t hs ⟨he, rfl⟩
    exact hs.next he
  refine ⟨fun f => (hguarded f).one, fun f => ⟨(hguarded f).le_one, (hguarded f).held, ?_⟩, ?_⟩
  · rintro ⟨m, hm⟩
    by_contra hpos
    exact (hguarded f).free hpos m hm
  · by_cases hfinished : w.Finished
    · exact Or.inl hfinished
    · exact Or.inr (hguarded.exists_enabled hfinished)

/-- The parent is writing the line. -/
def writing : List Mover := List.replicate 4 .parent ++ List.replicate 1 (.child .child1)

theorem semaphores_exclude_writing :
    let w := writing.foldl World.next (initial (fun _ _ => 0) twoLines)
    (∀ f m m', w.Holds f m → w.Holds f m' → m = m') ∧
      (∀ f, w.sem f ≤ 1 ∧ (w.sem f = 0 ↔ ∃ m, w.Holds f m)) ∧
      (w.Finished ∨ ∃ m : Mover, m.Enabled w) := by
  have hrun : Run.Possible (fun w m => m.Enabled w) World.next
      (initial (fun _ _ => 0) twoLines) writing := by decide
  exact semaphores_exclude hrun.run

end Bytes

end MappedSlot
