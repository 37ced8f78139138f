/-
# From system calls to the pipeline

A run of the three processes in which nothing fails is a run of the pipeline: what happens before
the loops, and the end of the parent's loop, cannot be seen there.  The one point is the end of a
pipe: a child is told that nothing is to come when nobody holds the other end any more, and that is
when the parent has closed it.
-/
import OSLabs.PipeFilterWiring

namespace PipeFilter
namespace Processes

open Chars TextStream VowelFilter

/-! ## The image -/

/-- The parent has read the names. -/
def ParentPlace.named : ParentPlace → Bool
  | .pipe _ => false
  | .names => false
  | _ => true

def ParentPlace.phase : ParentPlace → ParentPhase
  | .closeWrite .child2 => .closing
  | .wait _ => .waiting
  | .ended => .waiting
  | _ => .reading

/-- The parent has closed the pipe for good, after its loop. -/
def ParentPlace.closed : ParentPlace → Child → Bool
  | .closeWrite .child2, c => c = .child1
  | .wait _, _ => true
  | .ended, _ => true
  | _, _ => false

variable {n : ℕ}

/-- The lines that are still to be read. -/
def World.rest (w : World n) : List UInt8 :=
  if w.place.named then w.input else (readNames w.input).2.2

/-- The child has come to the end of `main`. -/
def ChildPlace.finished : ChildPlace → Bool
  | .ended => true
  | _ => false

/-- What the pipeline shows of a child. -/
def ChildState.image (q : ChildState n) : PipeFilter.ChildState :=
  { stdin := q.stdin, line := q.line, file := q.file, finished := q.place.finished }

/-- What the pipeline shows of the three processes. -/
def World.image (w : World n) : PipeFilter.World :=
  { input := w.rest
    draws := w.draws
    line := w.line
    parent := w.place.phase
    pipe := fun c => { bytes := w.bytes c, closed := w.place.closed c }
    child := fun c => (w.child c).image
    sent := w.sent }

/-- No call has failed that ends a process. -/
def World.Sound (w : World n) : Prop :=
  w.place ≠ .failed ∧ ∀ c, (w.child c).place ≠ .failed

variable [NeZero n]

/-- What a run keeps besides the descriptors: the loop ends with the input, and a child when nothing
is to come. -/
structure Orderly (w : World n) : Prop where
  wiring : Wiring w
  drained : (∃ c, w.place = .closeWrite c) ∨ (∃ c, w.place = .wait c) ∨ w.place = .ended →
    w.input = []
  ended : ∀ c, (w.child c).place = .ended → w.place.holds c .write = false

section Image

variable {w w' : World n} {c : Child}

/-- A running child reads from its own pipe. -/
theorem Wiring.source_eq (h : Wiring w) (hplace : (w.child c).place = .running) :
    w.source c = some c := by
  have hfile : (w.child c).table 0 = some (.pipe c .read) := by
    apply ((h.child c) 0 c .read).mpr
    right
    rw [hplace]
    exact ⟨rfl, rfl, rfl⟩
  unfold World.source
  rw [hfile]

/-- In its loop the parent writes to the pipe of the child that it has chosen. -/
theorem Wiring.sink_eq (h : Wiring w) (hplace : w.place = .loop) (c : Child) :
    w.sink (w.pipes c .write) = some c := by
  have hfile : w.table (w.pipes c .write) = some (.pipe c .write) := by
    apply (h.parent _ c .write).mpr
    left
    rw [hplace]
    exact ⟨rfl, rfl⟩
  unfold World.sink
  rw [hfile]

/-- A child that is there and not gone can read from its pipe. -/
theorem Wiring.held_read (h : Wiring w) (hborn : (w.child c).place ≠ .unborn)
    (hover : (w.child c).place.over = false) : w.Held c .read := by
  right
  refine ⟨c, (holds_iff (h.child c)).mpr ?_⟩
  cases hplace : (w.child c).place
  case unborn => exact absurd hplace hborn
  case ended => rw [hplace] at hover; cases hover
  case failed => rw [hplace] at hover; cases hover
  all_goals first
    | exact Or.inl rfl
    | exact Or.inr ⟨rfl, rfl⟩

/-- When nobody can write to a pipe any more, the parent does not hold it. -/
theorem Wiring.not_holds (h : Wiring w) (hheld : ¬ w.Held c .write) :
    w.place.holds c .write = false := by
  by_contra hne
  apply hheld
  left
  apply (holds_iff h.parent).mpr
  left
  simpa using hne

/-! ### A line is sent -/

/-- The parent has read a line of its input. -/
def World.readLine (w : World n) : World n :=
  { w with
    input := w.input.drop (takeLine (maxLine - 1) w.input).length
    draws := laterDraws w.draws
    line := w.line.store 0 (takeLine (maxLine - 1) w.input ++ [0]) }

/-- Some bytes have come into a pipe. -/
def World.append (w : World n) (c : Child) (bytes : List UInt8) : World n :=
  { w with
    bytes := Function.update w.bytes c (w.bytes c ++ bytes)
    sent := Function.update w.sent c (w.sent c ++ bytes) }

omit [NeZero n] in
theorem sendLine_of_nil (h : w.input = []) :
    sendLine w = { w with place := .closeWrite .child1 } := by
  unfold sendLine
  rw [h]
  rfl

/-- **A line is read and sent**, or there is nobody to read it. -/
theorem sendLine_cases (h : Wiring w) (hplace : w.place = .loop) (hne : w.input ≠ []) :
    ((text maxLine w.readLine.line = [] ∨ w.Held (target (w.draws 0)) .read) ∧
      sendLine w = w.readLine.append (target (w.draws 0)) (text maxLine w.readLine.line)) ∨
    (¬ w.Held (target (w.draws 0)) .read ∧ text maxLine w.readLine.line ≠ [] ∧
      sendLine w = w.readLine.exit .killed) := by
  have hsink := h.sink_eq hplace (target (w.draws 0))
  have hsend : sendLine w =
      write w.readLine (w.pipes (target (w.draws 0)) .write) (text maxLine w.readLine.line) := by
    unfold sendLine
    rw [fgets_eq w.line hne]
    rfl
  rw [hsend]
  unfold write
  rw [show w.readLine.sink (w.pipes (target (w.draws 0)) .write) = some (target (w.draws 0)) from
    hsink]
  dsimp only
  by_cases hnil : text maxLine w.readLine.line = []
  · left
    refine ⟨Or.inl hnil, ?_⟩
    rw [if_pos hnil, hnil]
    unfold World.append
    rw [List.append_nil, List.append_nil, Function.update_eq_self, Function.update_eq_self]
  · rw [if_neg hnil]
    by_cases hheld : w.Held (target (w.draws 0)) .read
    · left
      exact ⟨Or.inr hheld, if_pos hheld⟩
    · right
      exact ⟨hheld, hnil, if_neg hheld⟩

/-! ### A child goes on -/

/-- How many calls a child has before it, with its end. -/
def ChildPlace.left : ChildPlace → ℕ
  | .unborn => 8
  | .closeWrite => 8
  | .dup => 7
  | .closeRead => 6
  | .closeOtherRead => 5
  | .closeOtherWrite => 4
  | .exec => 3
  | .fopen => 2
  | .running => 1
  | .ended => 0
  | .failed => 0

/-- A call of a child before its loop changes nothing but that child. -/
theorem childNext_eq (w : World n) (c : Child) (hstarting : (w.child c).place.starting = true) :
    ∃ q : ChildState n, childNext w c = w.setChild c q ∧
      (q.place ≠ .ended ∧ q.place.left < (w.child c).place.left) ∧
      q.stdin = (w.child c).stdin ∧ q.line = (w.child c).line ∧ q.file = (w.child c).file := by
  unfold childNext
  cases hplace : (w.child c).place
  case unborn => rw [hplace] at hstarting; cases hstarting
  case running => rw [hplace] at hstarting; cases hstarting
  case ended => rw [hplace] at hstarting; cases hstarting
  case failed => rw [hplace] at hstarting; cases hstarting
  case fopen =>
    simp only [hplace]
    cases (w.child c).table.install (.file (w.child c).arg) with
    | none => exact ⟨_, rfl, ⟨ChildPlace.noConfusion, Nat.zero_lt_two⟩, rfl, rfl, rfl⟩
    | some made => exact ⟨_, rfl, ⟨ChildPlace.noConfusion, Nat.lt_succ_self _⟩, rfl, rfl, rfl⟩
  all_goals
    simp only [hplace]
    exact ⟨_, rfl, ⟨ChildPlace.noConfusion, Nat.lt_succ_self _⟩, rfl, rfl, rfl⟩

/-- The child after it has read from its pipe. -/
def ChildState.filled (q : ChildState n) (bytes : List UInt8) : ChildState n :=
  { q with stdin := q.stdin ++ bytes }

theorem fill_eq (h : Wiring w) (hplace : (w.child c).place = .running) (k : ℕ) :
    fill w c k = { w.setChild c ((w.child c).filled ((w.bytes c).take k)) with
      bytes := Function.update w.bytes c ((w.bytes c).drop k) } := by
  unfold fill
  rw [h.source_eq hplace]
  rfl

/-- The child after one pass of its loop. -/
def ChildState.filtered (q : ChildState n) : ChildState n :=
  let line := removeVowels maxLine (q.line.store 0 (takeLine (maxLine - 1) q.stdin ++ [0]))
  { q with
    stdin := q.stdin.drop (takeLine (maxLine - 1) q.stdin).length
    line := line
    file := q.file ++ text maxLine line }

omit [NeZero n] in
theorem filterLine_eq (hne : (w.child c).stdin ≠ []) :
    filterLine w c = w.setChild c (w.child c).filtered := by
  unfold filterLine
  dsimp only
  rw [fgets_eq _ hne]
  rfl

end Image

/-! ## Every step keeps the order -/

namespace Orderly

variable {w : World n} {c : Child}

theorem initial {stack : Stack} {pipes : Child → PipeEnd → Fin n} {table : Table n}
    (h : Standard table) (draws : ℕ → Bool) (stdin : List UInt8) :
    Orderly (initial stack pipes table draws stdin) := by
  refine ⟨Wiring.initial stack pipes h draws stdin, ?_, fun c _ => by cases c <;> rfl⟩
  rintro (⟨c, hc⟩ | ⟨c, hc⟩ | hc) <;> cases hc

/-- The parent goes on, and no child has ended by that. -/
theorem parentTo (h : Orderly w) {w' : World n} {place : ParentPlace} (hplace : w.place = place)
    (hwiring : Wiring w')
    (hdrained : (∃ c, w'.place = .closeWrite c) ∨ (∃ c, w'.place = .wait c) ∨ w'.place = .ended →
      w'.input = [])
    (hended : ∀ c, (w'.child c).place = .ended → (w.child c).place = .ended)
    (hholds : ∀ c, (w.child c).place ≠ .unborn → place.holds c .write = false →
      w'.place.holds c .write = false) : Orderly w' := by
  refine ⟨hwiring, hdrained, ?_⟩
  intro c hc
  have hbefore := hended c hc
  apply hholds c
  · rw [hbefore]
    exact ChildPlace.noConfusion
  · rw [← hplace]
    exact h.ended c hbefore

/-- `pipe`: no child is there yet. -/
theorem parent_pipe (h : Orderly w) (hplace : w.place = .pipe c) : Orderly (parentNext w) := by
  have hwiring := h.wiring.parentNext
  have hunborn : ∀ d, (w.child d).place = .unborn := by
    intro d
    apply h.wiring.before
    rw [hplace]
    rfl
  unfold parentNext at hwiring ⊢
  rw [hplace] at hwiring ⊢
  dsimp only at hwiring ⊢
  cases hpipe : w.table.pipe c with
  | none =>
    rw [hpipe] at hwiring
    apply h.parentTo hplace hwiring
    · rintro (⟨d, hd⟩ | ⟨d, hd⟩ | hd) <;> cases hd
    · exact fun d hd => hd
    · exact fun d hd => absurd (hunborn d) hd
  | some made =>
    rw [hpipe] at hwiring
    apply h.parentTo hplace hwiring
    · cases c <;> rintro (⟨d, hd⟩ | ⟨d, hd⟩ | hd) <;> cases hd
    · exact fun d hd => hd
    · exact fun d hd => absurd (hunborn d) hd

/-- `fork`: the new child has not ended. -/
theorem parent_fork (h : Orderly w) (hplace : w.place = .fork c) : Orderly (parentNext w) := by
  have hwiring := h.wiring.parentNext
  unfold parentNext at hwiring ⊢
  rw [hplace] at hwiring ⊢
  apply h.parentTo hplace hwiring
  · cases c <;> rintro (⟨d, hd⟩ | ⟨d, hd⟩ | hd) <;> cases hd
  · intro d hd
    by_cases heq : d = c
    · subst heq
      dsimp only [World.setChild] at hd
      rw [Function.update_self] at hd
      cases hd
    · dsimp only [World.setChild] at hd
      rw [Function.update_of_ne heq] at hd
      exact hd
  · exact fun d _ hd => by cases hd

/-- The loop goes on, comes to the end of the input, or is killed by a line. -/
theorem parent_loop (h : Orderly w) (hplace : w.place = .loop) : Orderly (parentNext w) := by
  have hwiring := h.wiring.parentNext
  unfold parentNext at hwiring ⊢
  rw [hplace] at hwiring ⊢
  dsimp only at hwiring ⊢
  by_cases hnil : w.input = []
  · rw [sendLine_of_nil hnil] at hwiring ⊢
    apply h.parentTo hplace hwiring
    · exact fun _ => hnil
    · exact fun d hd => hd
    · exact fun d _ hd => by cases hd
  · rcases sendLine_cases h.wiring hplace hnil with ⟨-, hsend⟩ | ⟨-, -, hsend⟩
    · rw [hsend] at hwiring ⊢
      apply h.parentTo hplace hwiring
      · have hstill : (w.readLine.append (target (w.draws 0))
            (text maxLine w.readLine.line)).place = .loop := hplace
        rw [hstill]
        rintro (⟨d, hd⟩ | ⟨d, hd⟩ | hd) <;> cases hd
      · exact fun d hd => hd
      · exact fun d _ hd => by cases hd
    · rw [hsend] at hwiring ⊢
      apply h.parentTo hplace hwiring
      · rintro (⟨d, hd⟩ | ⟨d, hd⟩ | hd) <;> cases hd
      · exact fun d hd => hd
      · exact fun d _ hd => by cases hd

/-- **The calls of the parent.** -/
theorem parent (h : Orderly w) : Orderly (parentNext w) := by
  have hwiring := h.wiring.parentNext
  cases hplace : w.place with
  | pipe c => exact h.parent_pipe hplace
  | names =>
    unfold parentNext at hwiring ⊢
    rw [hplace] at hwiring ⊢
    apply h.parentTo hplace hwiring
    · rintro (⟨d, hd⟩ | ⟨d, hd⟩ | hd) <;> cases hd
    · exact fun d hd => hd
    · exact fun d _ hd => by cases hd
  | fork c => exact h.parent_fork hplace
  | closeRead c =>
    unfold parentNext at hwiring ⊢
    rw [hplace] at hwiring ⊢
    apply h.parentTo hplace hwiring
    · cases c <;> rintro (⟨d, hd⟩ | ⟨d, hd⟩ | hd) <;> cases hd
    · exact fun d hd => hd
    · exact fun d _ hd => by cases c <;> cases hd
  | loop => exact h.parent_loop hplace
  -- from here on the loop is over, so the input is used up
  | closeWrite c =>
    have hnil := h.drained (Or.inl ⟨c, hplace⟩)
    unfold parentNext at hwiring ⊢
    rw [hplace] at hwiring ⊢
    apply h.parentTo hplace hwiring
    · exact fun _ => hnil
    · exact fun d hd => hd
    · cases c with
      | child1 => exact fun d _ hd => by cases hd
      | child2 => exact fun d _ _ => rfl
  | wait c =>
    have hnil := h.drained (Or.inr (Or.inl ⟨c, hplace⟩))
    unfold parentNext at hwiring ⊢
    rw [hplace] at hwiring ⊢
    cases c with
    | child1 => exact h.parentTo hplace hwiring (fun _ => hnil) (fun d hd => hd) fun d _ _ => rfl
    | child2 => exact h.parentTo hplace hwiring (fun _ => hnil) (fun d hd => hd) fun d _ _ => rfl
  | _ =>
    unfold parentNext
    rw [hplace]
    exact h

/-- A child goes on. -/
theorem childTo (h : Orderly w) {w' : World n} (hwiring : Wiring w')
    (hsame : w'.place = w.place ∧ w'.input = w.input)
    (hended : ∀ d, (w'.child d).place = .ended →
      (w.child d).place = .ended ∨ w.place.holds d .write = false) : Orderly w' := by
  obtain ⟨hplace, hinput⟩ := hsame
  refine ⟨hwiring, ?_, ?_⟩
  · rw [hplace, hinput]
    exact h.drained
  · intro d hd
    rw [hplace]
    exact (hended d hd).elim (h.ended d) id

omit [NeZero n] in
/-- A child whose new place is another one has not ended by its call. -/
theorem ended_of_setChild {q : ChildState n} (hq : q.place ≠ .ended) {d : Child}
    (hd : ((w.setChild c q).child d).place = .ended) : (w.child d).place = .ended := by
  dsimp only [World.setChild] at hd
  by_cases heq : d = c
  · subst heq
    rw [Function.update_self] at hd
    exact absurd hd hq
  · rw [Function.update_of_ne heq] at hd
    exact hd

/-- **Every step.** -/
theorem next (h : Orderly w) {capacity : ℕ} {e : Event} (he : e.Enabled capacity w) :
    Orderly (w.next e) := by
  have hwiring := h.wiring.next he
  have hrunning : ∀ {c}, (w.child c).place = .running → (w.child c).place ≠ .ended := by
    intro c hc
    rw [hc]
    exact ChildPlace.noConfusion
  cases e with
  | parent => exact h.parent
  | forkFails =>
    refine ⟨hwiring, ?_, fun c _ => rfl⟩
    rintro (⟨d, hd⟩ | ⟨d, hd⟩ | hd) <;> cases hd
  | child c =>
    obtain ⟨q, hnext, ⟨hq, -⟩, -⟩ := childNext_eq w c he
    rw [show w.next (.child c) = _ from hnext] at hwiring ⊢
    exact h.childTo hwiring ⟨rfl, rfl⟩ fun d hd => Or.inl (ended_of_setChild hq hd)
  | startFails c =>
    exact h.childTo hwiring ⟨rfl, rfl⟩ fun d hd =>
      Or.inl (ended_of_setChild ChildPlace.noConfusion hd)
  | fill c k =>
    -- a child that takes from its pipe is running, so it has not ended
    rw [show w.next (.fill c k) = _ from fill_eq h.wiring he.1 k] at hwiring ⊢
    have hq : ((w.child c).filled ((w.bytes c).take k)).place ≠ .ended := hrunning he.1
    exact h.childTo hwiring ⟨rfl, rfl⟩ fun d hd => Or.inl (ended_of_setChild hq hd)
  | filterLine c =>
    rw [show w.next (.filterLine c) = _ from filterLine_eq he.2.1] at hwiring ⊢
    have hq : (w.child c).filtered.place ≠ .ended := hrunning he.1
    exact h.childTo hwiring ⟨rfl, rfl⟩ fun d hd => Or.inl (ended_of_setChild hq hd)
  | finish c =>
    obtain ⟨hplace, -, d, hsource, hdry⟩ := he
    rw [h.wiring.source_eq hplace] at hsource
    obtain rfl := Option.mem_some.mp hsource
    apply h.childTo hwiring ⟨rfl, rfl⟩
    intro d hd
    -- only this child ends, and the parent has closed its end
    by_cases heq : d = c
    · right
      rw [heq]
      exact h.wiring.not_holds hdry.2
    · left
      have hother : ((w.exitChild c .ended).child d) = w.child d := Function.update_of_ne heq _ _
      rw [← hother]
      exact hd

end Orderly

/-! ## Steps and their images -/

section Steps

variable {w : World n} {c : Child} {capacity : ℕ} {e : Event}

omit [NeZero n] in
/-- One child changes in the image, as it did. -/
theorem image_setChild (w : World n) (c : Child) (q : ChildState n) :
    (w.setChild c q).image =
      { w.image with child := Function.update w.image.child c q.image } := by
  have hchild : (w.setChild c q).image.child = Function.update w.image.child c q.image := by
    funext d
    unfold World.image World.setChild
    dsimp only
    by_cases hd : d = c
    · rw [hd, Function.update_self, Function.update_self]
    · rw [Function.update_of_ne hd, Function.update_of_ne hd]
  rw [← hchild]
  rfl

omit [NeZero n] in
/-- A child of which the pipeline shows the same changes nothing in the image. -/
theorem image_setChild_eq {q : ChildState n} (hq : q.image = (w.child c).image) :
    (w.setChild c q).image = w.image := by
  rw [image_setChild, hq, show (w.child c).image = w.image.child c from rfl,
    Function.update_eq_self]

omit [NeZero n] in
theorem failed_of_setChild {q : ChildState n} {d : Child}
    (hc : (w.child c).place ≠ .failed) (hd : (w.child d).place = .failed) :
    ((w.setChild c q).child d).place = .failed := by
  have hne : d ≠ c := by
    rintro rfl
    exact hc hd
  unfold World.setChild
  dsimp only
  rw [Function.update_of_ne hne]
  exact hd

omit [NeZero n] in
theorem write_child (w : World n) (fd : Fin n) (bytes : List UInt8) :
    (write w fd bytes).child = w.child := by
  unfold write
  cases w.sink fd with
  | none => rfl
  | some c =>
    dsimp only
    split_ifs <;> rfl

omit [NeZero n] in
theorem sendLine_child (w : World n) : (sendLine w).child = w.child := by
  unfold sendLine
  cases fgets maxLine w.line w.input with
  | none => rfl
  | some made => exact write_child _ _ _

omit [NeZero n] in
/-- Of all the calls of the parent only `fork` changes a child. -/
theorem parentNext_child (hplace : ∀ c, w.place ≠ .fork c) :
    (parentNext w).child = w.child := by
  unfold parentNext
  cases h : w.place with
  | pipe c =>
    dsimp only
    cases w.table.pipe c <;> rfl
  | fork c => exact absurd h (hplace c)
  | loop => exact sendLine_child w
  | wait c => cases c <;> rfl
  | _ => rfl

/-- A child that has failed stays as it is. -/
theorem failed_next (h : Orderly w) (he : e.Enabled capacity w) {d : Child}
    (hd : (w.child d).place = .failed) : ((w.next e).child d).place = .failed := by
  have hrunning : ∀ {c}, (w.child c).place = .running → (w.child c).place ≠ .failed := by
    intro c hc
    rw [hc]
    exact ChildPlace.noConfusion
  cases e with
  | parent =>
    show ((parentNext w).child d).place = .failed
    by_cases hfork : ∃ c, w.place = .fork c
    · -- The child that is forked now was not there yet.
      obtain ⟨c, hc⟩ := hfork
      unfold parentNext
      rw [hc]
      apply failed_of_setChild _ hd
      have hunborn : (w.child c).place = .unborn := by
        apply h.wiring.before
        rw [hc]
        cases c <;> rfl
      rw [hunborn]
      exact ChildPlace.noConfusion
    · rw [parentNext_child fun c hc => hfork ⟨c, hc⟩]
      exact hd
  | forkFails => exact hd
  | child c =>
    obtain ⟨q, hnext, -⟩ := childNext_eq w c he
    rw [show w.next (.child c) = _ from hnext]
    apply failed_of_setChild _ hd
    intro hc
    have hstarting : (w.child c).place.starting = true := he
    rw [hc] at hstarting
    cases hstarting
  | startFails c =>
    apply failed_of_setChild _ hd
    rcases he with hc | hc
    all_goals
      rw [hc]
      exact ChildPlace.noConfusion
  | fill c k =>
    rw [show w.next (.fill c k) = _ from fill_eq h.wiring he.1 k]
    exact failed_of_setChild (hrunning he.1) hd
  | filterLine c =>
    rw [show w.next (.filterLine c) = _ from filterLine_eq he.2.1]
    exact failed_of_setChild (hrunning he.1) hd
  | finish c => exact failed_of_setChild (hrunning he.1) hd

/-- In the loop of the parent every child that has not failed can read. -/
theorem Orderly.held_of_sound (h : Orderly w) (hplace : w.place = .loop)
    (hsound : ∀ c, (w.child c).place ≠ .failed) (c : Child) : w.Held c .read := by
  apply h.wiring.held_read
  · apply h.wiring.after
    rw [hplace]
    rfl
  · cases hchild : (w.child c).place with
    | ended =>
      have hholds := h.ended c hchild
      rw [hplace] at hholds
      cases hholds
    | failed => exact absurd hchild (hsound c)
    | _ => rfl

/-- A process that has failed stays as it is. -/
theorem sound_of_next (h : Orderly w) (he : e.Enabled capacity w) (hsound : (w.next e).Sound) :
    w.Sound := by
  refine ⟨?_, fun d hd => hsound.2 d (failed_next h he hd)⟩
  intro hfailed
  apply hsound.1
  cases e with
  | parent =>
    have hover := he.1
    rw [hfailed] at hover
    cases hover
  | forkFails => rfl
  | child c =>
    obtain ⟨q, hnext, -⟩ := childNext_eq w c he
    rw [show w.next (.child c) = _ from hnext]
    exact hfailed
  | startFails c => exact hfailed
  | fill c k =>
    rw [show w.next (.fill c k) = _ from fill_eq h.wiring he.1 k]
    exact hfailed
  | filterLine c =>
    rw [show w.next (.filterLine c) = _ from filterLine_eq he.2.1]
    exact hfailed
  | finish c => exact hfailed

/-- What leads from one world to the other is a run of the pipeline, and the parent lives. -/
def Shown (w w' : World n) : Prop :=
  w'.place ≠ .killed ∧ ∃ ms, Run PipeFilter.Step w.image ms w'.image

omit [NeZero n] in
/-- A call that the pipeline does not show. -/
theorem silent {w' : World n} {place p : ParentPlace} (hplace : w.place = place)
    (hp : w'.place = p)
    (hsame : w'.draws = w.draws ∧ w'.line = w.line ∧ w'.bytes = w.bytes ∧ w'.sent = w.sent)
    (hrest : w'.rest = w.rest) (hchild : ∀ c, (w'.child c).image = (w.child c).image)
    (hshow : p.phase = place.phase ∧ (∀ c, p.closed c = place.closed c) ∧ p ≠ .killed) :
    Shown w w' := by
  subst hplace hp
  obtain ⟨hdraws, hline, hbytes, hsent⟩ := hsame
  obtain ⟨hphase, hclosed, hlive⟩ := hshow
  have himage : w'.image = w.image := by
    unfold World.image
    rw [hrest, hdraws, hline, hbytes, hsent, hphase]
    simp only [hclosed, hchild]
  refine ⟨hlive, [], ?_⟩
  rw [himage]
  exact .nil _

omit [NeZero n] in
theorem rest_congr {w' : World n} {place p : ParentPlace} (hplace : w.place = place)
    (hp : w'.place = p) (hnamed : p.named = place.named) (hinput : w'.input = w.input) :
    w'.rest = w.rest := by
  subst hplace hp
  unfold World.rest
  rw [hnamed, hinput]

omit [NeZero n] in
theorem rest_eq (hnamed : w.place.named = true) : w.rest = w.input := if_pos hnamed

omit [NeZero n] in
/-- The pipeline shows a line that is sent. -/
theorem image_readLine (hplace : w.place = .loop) (hne : w.input ≠ []) :
    (w.readLine.append (target (w.draws 0)) (text maxLine w.readLine.line)).image =
      PipeFilter.send w.image := by
  set c := target (w.draws 0) with hc
  set w' := w.readLine.append c (text maxLine w.readLine.line) with hw'
  have hrest : w.image.input = w.input := rest_eq (by rw [hplace]; rfl)
  have hrest' : w'.rest = w.readLine.input :=
    rest_eq (show w.place.named = true by rw [hplace]; rfl)
  have hpipe : w'.image.pipe = Function.update w.image.pipe c
      { w.image.pipe c with bytes := w.bytes c ++ text maxLine w.readLine.line } := by
    funext d
    show Pipe.mk (Function.update w.bytes c (w.bytes c ++ text maxLine w.readLine.line) d)
      (w.place.closed d) = _
    by_cases hd : d = c
    · rw [hd, Function.update_self, Function.update_self]
      rfl
    · rw [Function.update_of_ne hd, Function.update_of_ne hd]
      rfl
  have himage : w'.image = { w'.image with input := w'.rest, pipe := w'.image.pipe } := rfl
  unfold PipeFilter.send
  rw [hrest, fgets_eq _ hne, himage, hrest', hpipe]
  rfl

omit [NeZero n] in
/-- The pipeline shows a pipe that is closed. -/
theorem image_closeWrite (hplace : w.place = .closeWrite c) (table : Table n) :
    ({ w with place := andThen .closeWrite c (.wait .child1), table := table } : World n).image =
      PipeFilter.close w.image := by
  set w' : World n := { w with place := andThen .closeWrite c (.wait .child1), table := table }
    with hw'
  have hrest : w'.rest = w.rest := rest_congr hplace rfl (by cases c <;> rfl) rfl
  have hparent : w.image.parent = (ParentPlace.closeWrite c).phase := by
    show w.place.phase = _
    rw [hplace]
  have hpipe : w'.image.pipe = Function.update w.image.pipe c
      { w.image.pipe c with closed := true } := by
    funext d
    show Pipe.mk (w.bytes d) (w'.place.closed d) = _
    by_cases hd : d = c
    · rw [hd, Function.update_self]
      cases c <;> rfl
    · rw [Function.update_of_ne hd]
      show _ = Pipe.mk (w.bytes d) (w.place.closed d)
      rw [hplace]
      cases c <;> cases d <;> first | rfl | exact absurd rfl hd
  have himage : w'.image = { w.image with
      input := w'.rest, parent := w'.place.phase, pipe := w'.image.pipe } := rfl
  unfold PipeFilter.close
  rw [himage, hrest, hpipe, hparent]
  cases c <;> rfl

omit [NeZero n] in
/-- A call that reads nothing and writes nothing. -/
theorem shown_call {w' : World n} {place p : ParentPlace} (hplace : w.place = place)
    (hp : w'.place = p) (hinput : w'.input = w.input)
    (hsame : w'.draws = w.draws ∧ w'.line = w.line ∧ w'.bytes = w.bytes ∧ w'.sent = w.sent)
    (hchild : ∀ c, (w'.child c).image = (w.child c).image) (hnamed : p.named = place.named)
    (hshow : p.phase = place.phase ∧ (∀ c, p.closed c = place.closed c) ∧ p ≠ .killed) :
    Shown w w' :=
  silent hplace hp hsame (rest_congr hplace hp hnamed hinput) hchild hshow

omit [NeZero n] in
/-- `pipe` is not shown. -/
theorem shown_pipe (hplace : w.place = .pipe c) (hsound : (parentNext w).Sound) :
    Shown w (parentNext w) := by
  unfold parentNext at hsound ⊢
  rw [hplace] at hsound ⊢
  dsimp only at hsound ⊢
  cases hpipe : w.table.pipe c with
  | none =>
    rw [hpipe] at hsound
    exact absurd rfl hsound.1
  | some made =>
    obtain ⟨fds, table⟩ := made
    refine shown_call hplace rfl rfl ⟨rfl, rfl, rfl, rfl⟩ (fun _ => rfl) ?_ ?_
    · cases c <;> rfl
    · cases c <;> exact ⟨rfl, fun _ => rfl, ParentPlace.noConfusion⟩

omit [NeZero n] in
/-- The names are not shown: what is left of the input begins behind them. -/
theorem shown_names (hplace : w.place = .names) : Shown w (parentNext w) := by
  unfold parentNext
  rw [hplace]
  refine silent hplace rfl ⟨rfl, rfl, rfl, rfl⟩ ?_ (fun _ => rfl)
    ⟨rfl, fun _ => rfl, ParentPlace.noConfusion⟩
  unfold World.rest
  rw [hplace]
  rfl

/-- `fork` is not shown: the new child has read nothing. -/
theorem shown_fork (h : Orderly w) (hplace : w.place = .fork c) : Shown w (parentNext w) := by
  have hunborn : (w.child c).place = .unborn := by
    apply h.wiring.before
    rw [hplace]
    cases c <;> rfl
  have hchild : ∀ d, ((w.setChild c { w.child c with
      place := .closeWrite, table := w.table }).child d).image = (w.child d).image := by
    intro d
    dsimp only [World.setChild]
    by_cases hd : d = c
    · subst hd
      rw [Function.update_self]
      unfold ChildState.image
      rw [hunborn]
      rfl
    · rw [Function.update_of_ne hd]
  unfold parentNext
  rw [hplace]
  refine shown_call hplace rfl rfl ⟨rfl, rfl, rfl, rfl⟩ hchild ?_ ?_
  · cases c <;> rfl
  · cases c <;> exact ⟨rfl, fun _ => rfl, ParentPlace.noConfusion⟩

/-- A pass of the loop shows a line that is sent, and its end shows nothing. -/
theorem shown_loop (h : Orderly w) (hplace : w.place = .loop) (hsound : (parentNext w).Sound) :
    Shown w (parentNext w) := by
  have hnamed : w.place.named = true := by rw [hplace]; rfl
  unfold parentNext at hsound ⊢
  rw [hplace] at hsound ⊢
  dsimp only at hsound ⊢
  by_cases hnil : w.input = []
  · rw [sendLine_of_nil hnil]
    exact shown_call hplace rfl rfl ⟨rfl, rfl, rfl, rfl⟩ (fun _ => rfl) rfl
      ⟨rfl, fun _ => rfl, ParentPlace.noConfusion⟩
  · rcases sendLine_cases h.wiring hplace hnil with ⟨-, hsend⟩ | ⟨hheld, -, hsend⟩
    · rw [hsend]
      refine ⟨?_, [.send], Run.single ⟨⟨?_, ?_⟩, image_readLine hplace hnil⟩⟩
      · show w.place ≠ .killed
        rw [hplace]
        exact ParentPlace.noConfusion
      · show w.place.phase = .reading
        rw [hplace]
        rfl
      · show w.rest ≠ []
        rw [rest_eq hnamed]
        exact hnil
    · -- A child that has not failed can read what is sent to it.
      exfalso
      apply hheld
      rw [hsend] at hsound
      exact h.held_of_sound hplace hsound.2 _

/-- `close` of a pipe that was written to is shown. -/
theorem shown_closeWrite (h : Orderly w) (hplace : w.place = .closeWrite c) :
    Shown w (parentNext w) := by
  have hnamed : w.place.named = true := by rw [hplace]; rfl
  have hrest : w.rest = [] := by
    rw [rest_eq hnamed]
    exact h.drained (Or.inl ⟨c, hplace⟩)
  unfold parentNext
  rw [hplace]
  refine ⟨?_, [.close], Run.single ⟨?_, ?_⟩⟩
  · cases c <;> exact ParentPlace.noConfusion
  · show (w.place.phase = .reading ∧ w.rest = []) ∨ w.place.phase = .closing
    rw [hplace, hrest]
    cases c with
    | child1 => exact Or.inl ⟨rfl, rfl⟩
    | child2 => exact Or.inr rfl
  · exact image_closeWrite hplace _

/-- **What the parent shows** of its calls: a line that is sent, and the two pipes it closes. -/
theorem image_parent (h : Orderly w) (he : w.Ready capacity) (hsound : (parentNext w).Sound) :
    Shown w (parentNext w) := by
  have hover := he.1
  cases hplace : w.place with
  | pipe c => exact shown_pipe hplace hsound
  | names => exact shown_names hplace
  | fork c => exact shown_fork h hplace
  | closeRead c =>
    unfold parentNext
    rw [hplace]
    refine shown_call hplace rfl rfl ⟨rfl, rfl, rfl, rfl⟩ (fun _ => rfl) ?_ ?_
    · cases c <;> rfl
    · cases c <;> exact ⟨rfl, fun _ => rfl, ParentPlace.noConfusion⟩
  | loop => exact shown_loop h hplace hsound
  | closeWrite c => exact shown_closeWrite h hplace
  | wait c =>
    unfold parentNext
    rw [hplace]
    cases c with
    | child1 =>
      exact shown_call hplace rfl rfl ⟨rfl, rfl, rfl, rfl⟩ (fun _ => rfl) rfl
        ⟨rfl, fun _ => rfl, ParentPlace.noConfusion⟩
    | child2 =>
      exact shown_call hplace rfl rfl ⟨rfl, rfl, rfl, rfl⟩ (fun _ => rfl) rfl
        ⟨rfl, fun _ => rfl, ParentPlace.noConfusion⟩
  | _ =>
    rw [hplace] at hover
    cases hover

/-- **Nothing is to come** from a pipe that nobody can write to: the parent has closed it. -/
theorem Orderly.atEnd_image (h : Orderly w) (hsound : w.Sound) (hlive : w.place ≠ .killed)
    (hplace : (w.child c).place = .running) (hend : w.AtEnd c) : w.image.AtEnd c := by
  obtain ⟨d, hsource, hdry⟩ := hend
  rw [h.wiring.source_eq hplace] at hsource
  obtain rfl := Option.mem_some.mp hsource
  refine ⟨hdry.1, ?_⟩
  have hholds := h.wiring.not_holds hdry.2
  have hborn : ∀ p : ParentPlace, w.place = p → p.before c = false := by
    rintro p rfl
    by_contra hbefore
    have hunborn := h.wiring.before c (by simpa using hbefore)
    rw [hplace] at hunborn
    cases hunborn
  show w.place.closed c = true
  cases hparent : w.place with
  | failed => exact absurd hparent hsound.1
  | killed => exact absurd hparent hlive
  | pipe d => cases hborn _ hparent
  | wait d => rfl
  | ended => rfl
  | closeWrite d =>
    rw [hparent] at hholds
    cases d with
    | child1 => cases hholds
    | child2 =>
      cases c with
      | child1 => rfl
      | child2 => cases hholds
  | closeRead d =>
    rw [hparent] at hholds
    cases d <;> cases hholds
  | _ =>
    rw [hparent] at hholds
    cases hholds

omit [NeZero n] in
theorem image_fill (w : World n) (c : Child) (k : ℕ) :
    ({ w.setChild c ((w.child c).filled ((w.bytes c).take k)) with
      bytes := Function.update w.bytes c ((w.bytes c).drop k) } : World n).image =
      PipeFilter.fill w.image c k := by
  set w' : World n := { w.setChild c ((w.child c).filled ((w.bytes c).take k)) with
    bytes := Function.update w.bytes c ((w.bytes c).drop k) }
  have hpipe : w'.image.pipe = Function.update w.image.pipe c
      { w.image.pipe c with bytes := (w.bytes c).drop k } := by
    funext d
    show Pipe.mk (Function.update w.bytes c ((w.bytes c).drop k) d) (w.place.closed d) = _
    by_cases hd : d = c
    · rw [hd, Function.update_self, Function.update_self]
      rfl
    · rw [Function.update_of_ne hd, Function.update_of_ne hd]
      rfl
  have himage : w'.image =
      { (w.setChild c ((w.child c).filled ((w.bytes c).take k))).image with
        pipe := w'.image.pipe } := rfl
  rw [himage, hpipe, image_setChild]
  rfl

omit [NeZero n] in
theorem image_filterLine (hne : (w.child c).stdin ≠ []) :
    (w.setChild c (w.child c).filtered).image = PipeFilter.filterLine w.image c := by
  rw [image_setChild]
  have hgets := fgets_eq (n := maxLine) (w.image.child c).line hne
  unfold PipeFilter.filterLine
  dsimp only
  rw [show (w.image.child c).stdin = (w.child c).stdin from rfl, hgets]
  rfl

/-- **What a step shows** is a step of the pipeline, or nothing. -/
theorem image_step (h : Orderly w) (he : e.Enabled capacity w) (hsound : (w.next e).Sound)
    (hlive : w.place ≠ .killed) : Shown w (w.next e) := by
  have hsound' := sound_of_next h he hsound
  have hfinished : ∀ {c}, (w.child c).place = .running → (w.image.child c).finished = false := by
    intro c hc
    show (w.child c).place.finished = false
    rw [hc]
    rfl
  cases e with
  | parent => exact image_parent h he hsound
  | forkFails => exact absurd rfl hsound.1
  | child c =>
    obtain ⟨q, hnext, ⟨hq, -⟩, hstdin, hline, hfile⟩ := childNext_eq w c he
    have hsame : q.image = (w.child c).image := by
      have hstarting : (w.child c).place.starting = true := he
      have hfinished : q.place.finished = (w.child c).place.finished := by
        cases hplace : (w.child c).place <;> rw [hplace] at hstarting <;> first
          | (cases hq' : q.place <;> first | rfl | exact absurd hq' hq)
          | cases hstarting
      unfold ChildState.image
      rw [hstdin, hline, hfile, hfinished]
    -- the calls before the loop do not show
    rw [show w.next (.child c) = _ from hnext]
    refine ⟨hlive, [], ?_⟩
    rw [image_setChild_eq hsame]
    exact .nil _
  | startFails c =>
    -- excluded: no child fails before the next state
    exact absurd (show ((w.exitChild c .failed).child c).place = .failed by
      unfold World.exitChild World.setChild
      dsimp only
      rw [Function.update_self]) (hsound.2 c)
  | fill c k =>
    obtain ⟨hplace, hpos, d, hsource, hle⟩ := he
    rw [h.wiring.source_eq hplace] at hsource
    obtain rfl := Option.mem_some.mp hsource
    rw [show w.next (.fill c k) = _ from fill_eq h.wiring hplace k]
    refine ⟨hlive, [.fill c k], Run.single ⟨⟨hfinished hplace, hpos, hle⟩, image_fill w c k⟩⟩
  | filterLine c =>
    obtain ⟨hplace, hne, hline⟩ := he
    rw [show w.next (.filterLine c) = _ from filterLine_eq hne]
    refine ⟨hlive, [.filterLine c], Run.single
      ⟨⟨hfinished hplace, hne, ?_⟩, image_filterLine hne⟩⟩
    rcases hline with hfull | hnewline | hend
    · exact Or.inl hfull
    · exact Or.inr (Or.inl hnewline)
    · exact Or.inr (Or.inr (h.atEnd_image hsound' hlive hplace hend))
  | finish c =>
    obtain ⟨hplace, hnil, hend⟩ := he
    refine ⟨hlive, [.finish c], Run.single
      ⟨⟨hfinished hplace, hnil, h.atEnd_image hsound' hlive hplace hend⟩, ?_⟩⟩
    exact image_setChild w c _

end Steps

/-! ## Runs -/

section Runs

variable {capacity : ℕ} {stack : Stack} {pipes : Child → PipeEnd → Fin n} {table : Table n}
  {draws : ℕ → Bool} {stdin : List UInt8} {es : List Event} {w : World n}

/-- When all are gone and nothing has failed, the pipeline has finished. -/
theorem Orderly.finished_image (h : Orderly w) (hsound : w.Sound) (hlive : w.place ≠ .killed)
    (hfinished : w.Finished) : w.image.Finished := by
  obtain ⟨hover, hchildren⟩ := hfinished
  have hended : w.place = .ended := by
    cases hplace : w.place
    case ended => rfl
    case failed => exact absurd hplace hsound.1
    case killed => exact absurd hplace hlive
    all_goals
      rw [hplace] at hover
      cases hover
  constructor
  · show w.place.phase = .waiting
    rw [hended]
    rfl
  · intro c
    show (w.child c).place.finished = true
    have hborn : (w.child c).place ≠ .unborn := by
      apply h.wiring.after
      rw [hended]
      rfl
    have hchild := (hchildren c).resolve_right hborn
    cases hplace : (w.child c).place
    case ended => rfl
    case failed => exact absurd hplace (hsound.2 c)
    all_goals
      rw [hplace] at hchild
      cases hchild

/-- **The processes run the pipeline.**  In a run in which no call fails, however the calls of the
three processes are interleaved, nobody writes to a pipe that nobody reads, and what is read,
written and closed is a run of the pipeline; when the processes are gone it has finished. -/
theorem processes_run_the_pipeline (hstandard : Standard table)
    (hrun : Run (Step capacity) (initial stack pipes table draws stdin) es w) (hsound : w.Sound) :
    w.place ≠ .killed ∧ (∃ ms, Run PipeFilter.Step (start stack draws stdin) ms w.image) ∧
      (w.Finished → w.image.Finished) := by
  have himage : ∃ ms a, Run PipeFilter.Step (start stack draws stdin) ms a ∧
      (Orderly w ∧ (w.Sound → w.place ≠ .killed ∧ a = w.image)) := by
    apply hrun.exists_image (R := fun w a => Orderly w ∧
      (w.Sound → w.place ≠ .killed ∧ a = w.image)) _
      ⟨Orderly.initial hstandard draws stdin, fun _ => ⟨ParentPlace.noConfusion, rfl⟩⟩
    rintro s e t a ⟨hs, hshown⟩ ⟨he, rfl⟩
    have hnext := hs.next he
    by_cases hsound' : (s.next e).Sound
    · obtain ⟨hlive, rfl⟩ := hshown (sound_of_next hs he hsound')
      obtain ⟨hlive', ms, hms⟩ := image_step hs he hsound' hlive
      exact ⟨ms, _, hms, hnext, fun _ => ⟨hlive', rfl⟩⟩
    · exact ⟨[], a, .nil a, hnext, fun h => absurd h hsound'⟩
  obtain ⟨ms, a, hms, horderly, hshown⟩ := himage
  obtain ⟨hlive, rfl⟩ := hshown hsound
  exact ⟨hlive, ⟨ms, hms⟩, horderly.finished_image hsound hlive⟩

/-- The three descriptors that a shell leaves open. -/
def shell : Table 8 := fun fd => if fd < 3 then some (.file [fd.val.toUInt8]) else none

theorem standard_shell : Standard shell := by
  refine ⟨by decide, ?_⟩
  intro fd c e
  unfold shell
  split_ifs <;> simp

/-- Two names and a line; the newline behind the second name is a line of its own. -/
def twoNames : List UInt8 := [97, 10, 98, 10, 97, 98, 10]

/-- The parent has sent its two lines before the children start, and waits for them. -/
def wholeRun : List Event :=
  List.replicate 9 .parent ++ List.replicate 7 (.child .child1) ++
    List.replicate 7 (.child .child2) ++
    [.parent, .fill .child1 1, .filterLine .child1, .parent, .parent, .fill .child2 3,
      .filterLine .child2, .finish .child1, .finish .child2, .parent, .parent]

theorem processes_run_the_pipeline_two_lines :
    let w := wholeRun.foldl World.next
      (initial {} (fun _ _ => 0) shell (fun k => k = 0) twoNames)
    (w.child .child1).file = [10] ∧ (w.child .child2).file = [98, 10] ∧
      (∃ ms, Run PipeFilter.Step (start {} (fun k => k = 0) twoNames) ms w.image) ∧
      w.image.Finished := by
  intro w
  have hpossible : Run.Possible (fun w e => Event.Enabled 4096 w e) World.next
      (initial {} (fun _ _ => 0) shell (fun k => k = 0) twoNames) wholeRun := by decide +kernel
  have hplaces : w.place = .ended ∧ (w.child .child1).place = .ended ∧
      (w.child .child2).place = .ended := by decide +kernel
  have hsound : w.Sound := by
    refine ⟨by rw [hplaces.1]; exact ParentPlace.noConfusion, ?_⟩
    intro c
    cases c with
    | child1 => rw [hplaces.2.1]; exact ChildPlace.noConfusion
    | child2 => rw [hplaces.2.2]; exact ChildPlace.noConfusion
  have hfinished : w.Finished := by
    refine ⟨by rw [hplaces.1]; rfl, ?_⟩
    intro c
    left
    cases c with
    | child1 => rw [hplaces.2.1]; rfl
    | child2 => rw [hplaces.2.2]; rfl
  obtain ⟨-, himage, hend⟩ :=
    processes_run_the_pipeline standard_shell hpossible.run hsound
  exact ⟨by decide +kernel, by decide +kernel, himage, hend hfinished⟩

end Runs

end Processes
end PipeFilter
