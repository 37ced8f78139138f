/-
# The processes byte by byte

Translation of `Labs/Lab3/src/parent.cpp`, `child1.cpp` and `child2.cpp` once more, without taking
a section under a semaphore as one step: `sem_wait` and `sem_post` are steps, `strncpy` copies byte
after byte, and every store to `size` and every read of it is a step of its own.
-/
import OSLabs.BinarySemaphore
import OSLabs.MappedSlotAccounts

namespace MappedSlot

open Chars VowelFilter

namespace Bytes

/-! ## The loop of `strncpy` -/

/-- How far `strncpy` has got: the next byte, the number of bytes to write, and whether the end of
the string has been read. -/
structure Copy where
  pos : ℕ := 0
  size : ℕ
  ended : Bool := false
  deriving DecidableEq, Repr

/-- The array after the next byte. -/
def Copy.write (k : Copy) (dst src : Chars) : Chars :=
  Function.update dst k.pos (if k.ended then 0 else src k.pos)

/-- Behind the next byte. -/
def Copy.advance (k : Copy) (src : Chars) : Copy :=
  { k with pos := k.pos + 1, ended := k.ended || src k.pos = 0 }

/-- What is going to be in the array when the loop has ended. -/
def Copy.finish (k : Copy) (dst src : Chars) : Chars :=
  if k.ended then store dst k.pos (List.replicate (k.size - k.pos) 0)
  else strncpyFrom src (k.size - k.pos) dst k.pos

theorem Copy.finish_start (dst src : Chars) (n : ℕ) :
    ({ size := n } : Copy).finish dst src = strncpy dst src n := rfl

/-- When all bytes are written, the array is what it was going to be. -/
theorem Copy.finish_of_le {k : Copy} (h : k.size ≤ k.pos) (dst src : Chars) :
    k.finish dst src = dst := by
  unfold Copy.finish
  rw [Nat.sub_eq_zero_of_le h]
  split_ifs <;> rfl

/-- Writing a byte changes nothing about the end. -/
theorem Copy.finish_advance {k : Copy} (h : k.pos < k.size) (dst src : Chars) :
    (k.advance src).finish (k.write dst src) src = k.finish dst src := by
  obtain ⟨n, hn⟩ : ∃ n, k.size - k.pos = n + 1 := ⟨k.size - k.pos - 1, by omega⟩
  have hrest : k.size - (k.pos + 1) = n := by omega
  unfold Copy.finish Copy.advance Copy.write
  dsimp only
  rw [hrest, hn]
  cases hended : k.ended with
  | true => rfl
  | false =>
    by_cases hzero : src k.pos = 0
    · simp [hzero, strncpyFrom, List.replicate_succ, store]
    · simp [hzero, strncpyFrom]

/-! ## The processes -/

/-- Where the parent is: before `fgets`, before `sem_wait` with a line, in `strncpy`, before the
store to `size`, before `sem_post`, before the second store to `done`, or waiting for the
children. -/
inductive ParentPlace where
  | reading
  | entering (below : Bool) (bytes : List UInt8)
  | copying (below : Bool) (bytes : List UInt8) (copy : Copy)
  | sizing (below : Bool) (bytes : List UInt8)
  | posting (below : Bool)
  | closing
  | waiting
  deriving DecidableEq, Repr

/-- Where a child is: before one of the four reads outside of the semaphore or before `sem_wait`,
or under the semaphore, before the read of `size` for `strncpy`, in `strncpy`, before the zero is
written, before `removeVowels`, before the store to `size`, or before `sem_post`; or behind the
loop. -/
inductive ChildPlace where
  | atDone
  | atSize
  | atTest
  | atLock
  | measuring
  | copying (copy : Copy)
  | ending
  | printing
  | emptying
  | posting
  | left
  deriving DecidableEq, Repr

/-- The local state of a child, and what it has printed to its output file. -/
structure ChildLocal where
  place : ChildPlace := .atDone
  buffer : Chars
  outFile : List UInt8 := []

/-- The state of the three processes and of the two semaphores. -/
structure World where
  input : List (Bool × List UInt8)
  parent : ParentPlace := .reading
  shared : MappedFile → SharedData := fun _ => {}
  sem : MappedFile → ℕ := fun _ => 1
  child : Child → ChildLocal

/-- The files are mapped and the children have started. -/
def initial (stack : Child → Chars) (input : List (Bool × List UInt8)) : World :=
  { input := input, child := fun c => { buffer := stack c } }

section Steps

variable (w : World)

def World.setShared (f : MappedFile) (d : SharedData) : World :=
  { w with shared := Function.update w.shared f d }

/-- `sem_wait`. -/
def World.semWait (f : MappedFile) : World :=
  { w with sem := Function.update w.sem f (w.sem f - 1) }

/-- `sem_post`. -/
def World.semPost (f : MappedFile) : World :=
  { w with sem := Function.update w.sem f (w.sem f + 1) }

def World.setChild (c : Child) (q : ChildLocal) : World :=
  { w with child := Function.update w.child c q }

theorem World.setChild_self (c : Child) (q : ChildLocal) : (w.setChild c q).child c = q :=
  Function.update_self _ _ _

theorem World.setChild_other {c c' : Child} (q : ChildLocal) (hne : c' ≠ c) :
    (w.setChild c q).child c' = w.child c' :=
  Function.update_of_ne hne _ _

/-- A child comes to the given place. -/
def World.goto (c : Child) (place : ChildPlace) : World :=
  w.setChild c { w.child c with place := place }

theorem World.goto_self (c : Child) (place : ChildPlace) :
    (w.goto c place).child c = { w.child c with place := place } :=
  w.setChild_self c _

/-- The next step of the parent. -/
def parentNext : World :=
  match w.parent with
  | .reading =>
    match w.input with
    | [] => { w with parent := .closing }.setShared .file1 { w.shared .file1 with done := true }
    | (below, bytes) :: input => { w with input := input, parent := .entering below bytes }
  | .entering below bytes =>
    let len := strlen maxLine (lineArray bytes)
    { w with parent := .copying below bytes { size := len } }.semWait (target below)
  | .copying below bytes copy =>
    if copy.pos < copy.size then
      let file := target below
      let line := lineArray bytes
      let d := w.shared file
      { w with parent := .copying below bytes (copy.advance line) }.setShared file
        { d with data := copy.write d.data line }
    else { w with parent := .sizing below bytes }
  | .sizing below bytes =>
    let file := target below
    { w with parent := .posting below }.setShared file
      { w.shared file with size := strlen maxLine (lineArray bytes) }
  | .posting below => { w with parent := .reading }.semPost (target below)
  | .closing =>
    { w with parent := .waiting }.setShared .file2 { w.shared .file2 with done := true }
  | .waiting => w

/-- The next step of a child. -/
def childNext (c : Child) : World :=
  let file := c.mapped
  let d := w.shared file
  let q := w.child c
  match q.place with
  | .atDone => w.goto c (if d.done then .atSize else .atTest)
  | .atSize => w.goto c (if d.size > 0 then .atTest else .left)
  | .atTest => w.goto c (if d.size > 0 then .atLock else .atDone)
  | .atLock => (w.goto c .measuring).semWait file
  | .measuring => w.goto c (.copying { size := d.size })
  | .copying copy =>
    if copy.pos < copy.size then
      w.setChild c
        { q with place := .copying (copy.advance d.data), buffer := copy.write q.buffer d.data }
    else w.goto c .ending
  | .ending =>
    w.setChild c { q with place := .printing, buffer := Function.update q.buffer d.size 0 }
  | .printing =>
    let buffer := removeVowels maxLine q.buffer
    w.setChild c
      { place := .emptying, buffer := buffer, outFile := q.outFile ++ text maxLine buffer }
  | .emptying => (w.goto c .posting).setShared file { d with size := 0 }
  | .posting => (w.goto c .atDone).semPost file
  | .left => w

end Steps

/-! ## Steps -/

/-- The process that takes a step. -/
inductive Mover where
  | parent
  | child (c : Child)
  deriving DecidableEq, Repr

/-- The process has not ended, and does not have to wait for a semaphore. -/
def Mover.Enabled (w : World) : Mover → Prop
  | .parent => w.parent ≠ .waiting ∧
      ∀ below bytes, w.parent = .entering below bytes → w.sem (target below) ≠ 0
  | .child c => (w.child c).place ≠ .left ∧
      ((w.child c).place = .atLock → w.sem c.mapped ≠ 0)

/-- The same, computed. -/
def Mover.ready (w : World) : Mover → Bool
  | .parent =>
    match w.parent with
    | .waiting => false
    | .entering below _ => decide (w.sem (target below) ≠ 0)
    | _ => true
  | .child c =>
    match (w.child c).place with
    | .left => false
    | .atLock => decide (w.sem c.mapped ≠ 0)
    | _ => true

theorem Mover.ready_iff (w : World) (m : Mover) : m.ready w = true ↔ m.Enabled w := by
  cases m with
  | parent => cases h : w.parent <;> simp [Mover.ready, Mover.Enabled, h]
  | child c => cases h : (w.child c).place <;> simp [Mover.ready, Mover.Enabled, h]

instance (w : World) (m : Mover) : Decidable (m.Enabled w) :=
  decidable_of_iff _ (Mover.ready_iff w m)

/-- The world after a step of the process. -/
def World.next (w : World) : Mover → World
  | .parent => parentNext w
  | .child c => childNext w c

/-- A step of the whole system. -/
def Step (w : World) (m : Mover) (w' : World) : Prop := m.Enabled w ∧ w' = w.next m

/-- All processes have finished. -/
def World.Finished (w : World) : Prop :=
  w.parent = .waiting ∧ ∀ c, (w.child c).place = .left

/-! ## Who holds a semaphore -/

/-- The file whose semaphore the parent holds. -/
def ParentPlace.held : ParentPlace → Option MappedFile
  | .copying below _ _ => some (target below)
  | .sizing below _ => some (target below)
  | .posting below => some (target below)
  | _ => none

/-- A child at this place holds its semaphore. -/
def ChildPlace.inside : ChildPlace → Bool
  | .measuring => true
  | .copying _ => true
  | .ending => true
  | .printing => true
  | .emptying => true
  | .posting => true
  | _ => false

/-- The process holds the semaphore of the file. -/
def World.Holds (w : World) (f : MappedFile) : Mover → Prop
  | .parent => w.parent.held = some f
  | .child c => (w.child c).place.inside = true ∧ c.mapped = f

/-- Every semaphore goes with its holders. -/
def World.Guarded (w : World) : Prop := ∀ f, Guards (w.sem f) (w.Holds f)

end Bytes

end MappedSlot
