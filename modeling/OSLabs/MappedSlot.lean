/-
# A parent, two children and two mapped files

Translation of `Labs/Lab3/src/parent.cpp`, `child1.cpp`, `child2.cpp` and `common.h`.  A step
is one section between `sem_wait` and `sem_post`, one read of `size` or `done` without the
semaphore, or one assignment to `done`.

The fields `written`, `overwritten` and `consumed` record which line was in which file when.
They are not part of the program, and no decision depends on them.
-/
import OSLabs.LabelledRuns
import OSLabs.VowelFilter

namespace MappedSlot

open Chars VowelFilter

/-- `MAX_LINE`. -/
def maxLine : ℕ := 1000

/-! ## The shared memory -/

/-- A mapped file with the semaphore that guards it: `MAPPED_FILE1` and `SEM_NAME1`, or
`MAPPED_FILE2` and `SEM_NAME2`. -/
inductive MappedFile where
  | file1
  | file2
  deriving DecidableEq, Repr

/-- `SharedData`. -/
structure SharedData where
  data : Chars := fun _ => 0
  size : ℕ := 0
  done : Bool := false

/-! ## The processes -/

/-- The two child programs. -/
inductive Child where
  | child1
  | child2
  deriving DecidableEq, Repr

/-- The file that a child maps, with the semaphore that it opens. -/
def Child.mapped : Child → MappedFile
  | .child1 => .file1
  | .child2 => .file1

/-- Where a child is in its loop: before the read of `done` in the condition of the loop, before
the read of `size` in it, before the read of `size` in the body, before the section under the
semaphore, or behind the loop. -/
inductive Phase where
  | atDone
  | atSize
  | atTest
  | atLock
  | left
  deriving DecidableEq, Repr

/-- The local state of a child, and what it has printed to its output file. -/
structure ChildState where
  phase : Phase := .atDone
  buffer : Chars
  outFile : List UInt8 := []

/-- Where the parent is: in its loop, before the second assignment to `done`, or waiting for the
children. -/
inductive ParentPhase where
  | reading
  | closing
  | waiting
  deriving DecidableEq, Repr

/-- What a child found in a mapped file in one section: the line with the given number there,
and what it printed. -/
structure Consumption where
  child : Child
  file : MappedFile
  index : ℕ
  text : List UInt8
  deriving DecidableEq, Repr

/-- The state of the three processes.  The input of the parent holds what `fgets` is going to
return, and for every line whether the number drawn for it is below `PROB_FILE1`. -/
structure World where
  input : List (Bool × List UInt8)
  parent : ParentPhase := .reading
  shared : MappedFile → SharedData := fun _ => {}
  child : Child → ChildState
  /-- The lines written to a file, the first one first. -/
  written : MappedFile → List (List UInt8) := fun _ => []
  /-- The numbers of the lines that were written over before any child took them. -/
  overwritten : MappedFile → List ℕ := fun _ => []
  /-- What the children took, the first one first. -/
  consumed : List Consumption := []

/-- The file that the parent chooses for a line. -/
def target (below : Bool) : MappedFile := if below then .file1 else .file2

/-- The array `line` after `fgets` has returned the bytes. -/
def lineArray (bytes : List UInt8) : Chars := store (fun _ => 0) 0 (bytes ++ [0])

/-- The line as a string. -/
def lineText (bytes : List UInt8) : List UInt8 := text maxLine (lineArray bytes)

section Steps

variable (w : World)

/-- The section of the parent under the semaphore, for the next line. -/
def write : World :=
  match w.input with
  | [] => w
  | (below, bytes) :: input =>
    let file := target below
    let line := lineArray bytes
    let len := strlen maxLine line
    let d := w.shared file
    { w with
      input := input
      shared := Function.update w.shared file
        { d with data := strncpy d.data line len, size := len }
      written := Function.update w.written file (w.written file ++ [lineText bytes])
      overwritten := if d.size > 0 then
          Function.update w.overwritten file (w.overwritten file ++ [(w.written file).length - 1])
        else w.overwritten }

/-- After the end of the input `done` is set, in one file after the other. -/
def close : World :=
  match w.parent with
  | .reading =>
    { w with
      parent := .closing
      shared := Function.update w.shared .file1 { w.shared .file1 with done := true } }
  | .closing =>
    { w with
      parent := .waiting
      shared := Function.update w.shared .file2 { w.shared .file2 with done := true } }
  | .waiting => w

/-- A change of one child. -/
def World.updateChild (c : Child) (f : ChildState → ChildState) : World :=
  { w with child := Function.update w.child c (f (w.child c)) }

/-- A child comes to the given place. -/
def World.goto (c : Child) (phase : Phase) : World :=
  w.updateChild c fun q => { q with phase := phase }

/-- The section of a child under the semaphore. -/
def consume (c : Child) : World :=
  let file := c.mapped
  let d := w.shared file
  let buffer := strncpy (w.child c).buffer d.data d.size
  let buffer := Function.update buffer d.size 0
  let buffer := removeVowels maxLine buffer
  let printed := text maxLine buffer
  { w with
    shared := Function.update w.shared file { d with size := 0 }
    child := Function.update w.child c
      { phase := .atDone, buffer := buffer, outFile := (w.child c).outFile ++ printed }
    consumed := if d.size > 0 then
        w.consumed ++ [⟨c, file, (w.written file).length - 1, printed⟩]
      else w.consumed }

/-- The next step of a child. -/
def advance (c : Child) : World :=
  let d := w.shared c.mapped
  match (w.child c).phase with
  | .atDone => w.goto c (if d.done then .atSize else .atTest)
  | .atSize => w.goto c (if d.size > 0 then .atTest else .left)
  | .atTest => w.goto c (if d.size > 0 then .atLock else .atDone)
  | .atLock => consume w c
  | .left => w

end Steps

/-! ## Steps -/

/-- What happens in a step. -/
inductive Event where
  | write
  | close
  | advance (c : Child)
  deriving DecidableEq, Repr

/-- The process that takes the step has got there. -/
def Event.Enabled (w : World) : Event → Prop
  | .write => w.parent = .reading ∧ w.input ≠ []
  | .close => (w.parent = .reading ∧ w.input = []) ∨ w.parent = .closing
  | .advance c => (w.child c).phase ≠ .left

instance (w : World) : (e : Event) → Decidable (e.Enabled w)
  | .write => inferInstanceAs (Decidable (w.parent = .reading ∧ w.input ≠ []))
  | .close => inferInstanceAs
      (Decidable ((w.parent = .reading ∧ w.input = []) ∨ w.parent = .closing))
  | .advance c => inferInstanceAs (Decidable ((w.child c).phase ≠ .left))

/-- The world after a step. -/
def World.next (w : World) : Event → World
  | .write => MappedSlot.write w
  | .close => MappedSlot.close w
  | .advance c => MappedSlot.advance w c

/-- A step of the whole system. -/
def Step (w : World) (e : Event) (w' : World) : Prop := e.Enabled w ∧ w' = w.next e

/-- The files are mapped and the children have started; their stacks hold any bytes. -/
def initial (stack : Child → Chars) (input : List (Bool × List UInt8)) : World :=
  { input := input, child := fun c => { buffer := stack c } }

/-- All processes have finished. -/
def World.Finished (w : World) : Prop :=
  w.parent = .waiting ∧ ∀ c, (w.child c).phase = .left

/-- What was taken from a file, the first one first. -/
def World.taken (w : World) (file : MappedFile) : List Consumption :=
  w.consumed.filter fun x => x.file = file

/-- What a child took, the first one first. -/
def World.takenBy (w : World) (c : Child) : List Consumption :=
  w.consumed.filter fun x => x.child = c

/-- The number of the line that nobody has taken from the file yet. -/
def World.unread (w : World) (file : MappedFile) : List ℕ :=
  if (w.shared file).size > 0 then [(w.written file).length - 1] else []

end MappedSlot
