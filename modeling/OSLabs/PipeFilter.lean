/-
# A parent, two pipes and two filters

Translation of `Labs/Lab1/src/parent.c`, `child1.c` and `child2.c`.  A step is one pass of the
loop of the parent, one `close`, one `read` that a child's standard input makes on its pipe, one
pass of the loop of a child, or the end of a child.  A `write` puts all its bytes at the end of
the pipe.

The field `sent` records what was written to a pipe.  It is not part of the program, and no
decision depends on it.
-/
import OSLabs.LabelledRuns
import OSLabs.TextStream
import OSLabs.VowelFilter

namespace PipeFilter

open Chars TextStream VowelFilter

/-- `MAX_LINE`. -/
def maxLine : ℕ := 1000

/-- The two child programs, each with its pipe. -/
inductive Child where
  | child1
  | child2
  deriving DecidableEq, Repr

/-- The child whose pipe gets a line: whether the number drawn for the line is below
`PROB_PIPE1` decides. -/
def target (below : Bool) : Child := if below then .child1 else .child2

/-- Where the parent is: in its loop, before the second `close`, or waiting for the children. -/
inductive ParentPhase where
  | reading
  | closing
  | waiting
  deriving DecidableEq, Repr

/-- A pipe: the bytes that are in it, and whether the parent has closed its end. -/
structure Pipe where
  bytes : List UInt8 := []
  closed : Bool := false

/-- The local state of a child: what its standard input has read from the pipe and not handed
out yet, its array, and what it has written to its file. -/
structure ChildState where
  stdin : List UInt8 := []
  line : Chars
  file : List UInt8 := []
  finished : Bool := false

/-- The state of the three processes.  `draws` says of the numbers that `rand` is going to
return whether they are below `PROB_PIPE1`. -/
structure World where
  input : List UInt8
  draws : ℕ → Bool
  line : Chars
  parent : ParentPhase := .reading
  pipe : Child → Pipe := fun _ => {}
  child : Child → ChildState
  /-- The bytes written to a pipe so far. -/
  sent : Child → List UInt8 := fun _ => []

/-- The draws after the first one. -/
def laterDraws (draws : ℕ → Bool) : ℕ → Bool := fun n => draws (n + 1)

section Steps

variable (w : World)

/-- One pass of the loop of the parent. -/
def send : World :=
  match fgets maxLine w.line w.input with
  | none => w
  | some (line, input) =>
    let c := target (w.draws 0)
    let bytes := text maxLine line
    let pipe := w.pipe c
    { w with
      input := input
      draws := laterDraws w.draws
      line := line
      pipe := Function.update w.pipe c { pipe with bytes := pipe.bytes ++ bytes }
      sent := Function.update w.sent c (w.sent c ++ bytes) }

/-- A pipe is closed, and the parent goes on. -/
def closePipe (c : Child) (next : ParentPhase) : World :=
  { w with
    parent := next
    pipe := Function.update w.pipe c { w.pipe c with closed := true } }

/-- The end of the parent's loop: one pipe is closed after the other. -/
def close : World :=
  match w.parent with
  | .reading => closePipe w .child1 .closing
  | .closing => closePipe w .child2 .waiting
  | .waiting => w

/-- The standard input of a child reads `n` bytes from the pipe. -/
def fill (c : Child) (n : ℕ) : World :=
  let pipe := w.pipe c
  let q := w.child c
  { w with
    pipe := Function.update w.pipe c { pipe with bytes := pipe.bytes.drop n }
    child := Function.update w.child c { q with stdin := q.stdin ++ pipe.bytes.take n } }

/-- One pass of the loop of a child. -/
def filterLine (c : Child) : World :=
  let q := w.child c
  match fgets maxLine q.line q.stdin with
  | none => w
  | some (line, stdin) =>
    let line := removeVowels maxLine line
    { w with
      child := Function.update w.child c
        { q with stdin := stdin, line := line, file := q.file ++ text maxLine line } }

/-- The end of a child. -/
def finish (c : Child) : World :=
  { w with child := Function.update w.child c { w.child c with finished := true } }

/-- There is nothing to come from the pipe of a child. -/
def World.AtEnd (c : Child) : Prop := (w.pipe c).bytes = [] ∧ (w.pipe c).closed = true

/-- `fgets` returns with a line: the array is full, the line is complete, or it is the last. -/
def World.HasLine (c : Child) : Prop :=
  let line := takeLine (maxLine - 1) (w.child c).stdin
  (w.child c).stdin ≠ [] ∧
    (line.length = maxLine - 1 ∨ line.getLast? = some 10 ∨ w.AtEnd c)

instance (c : Child) : Decidable (w.AtEnd c) :=
  inferInstanceAs (Decidable ((w.pipe c).bytes = [] ∧ (w.pipe c).closed = true))

instance (c : Child) : Decidable (w.HasLine c) :=
  inferInstanceAs (Decidable ((w.child c).stdin ≠ [] ∧
    ((takeLine (maxLine - 1) (w.child c).stdin).length = maxLine - 1 ∨
      (takeLine (maxLine - 1) (w.child c).stdin).getLast? = some 10 ∨ w.AtEnd c)))

end Steps

/-! ## Steps -/

/-- What happens in a step. -/
inductive Event where
  | send
  | close
  | fill (c : Child) (n : ℕ)
  | filterLine (c : Child)
  | finish (c : Child)
  deriving DecidableEq, Repr

/-- The process that takes the step has got there, and does not have to wait. -/
def Event.Enabled (w : World) : Event → Prop
  | .send => w.parent = .reading ∧ w.input ≠ []
  | .close => (w.parent = .reading ∧ w.input = []) ∨ w.parent = .closing
  | .fill c n => (w.child c).finished = false ∧ 0 < n ∧ n ≤ (w.pipe c).bytes.length
  | .filterLine c => (w.child c).finished = false ∧ w.HasLine c
  | .finish c => (w.child c).finished = false ∧ (w.child c).stdin = [] ∧ w.AtEnd c

instance (w : World) : (e : Event) → Decidable (e.Enabled w)
  | .send => inferInstanceAs (Decidable (w.parent = .reading ∧ w.input ≠ []))
  | .close => inferInstanceAs
      (Decidable ((w.parent = .reading ∧ w.input = []) ∨ w.parent = .closing))
  | .fill c n => inferInstanceAs
      (Decidable ((w.child c).finished = false ∧ 0 < n ∧ n ≤ (w.pipe c).bytes.length))
  | .filterLine c => inferInstanceAs (Decidable ((w.child c).finished = false ∧ w.HasLine c))
  | .finish c => inferInstanceAs
      (Decidable ((w.child c).finished = false ∧ (w.child c).stdin = [] ∧ w.AtEnd c))

/-- The world after a step. -/
def World.next (w : World) : Event → World
  | .send => PipeFilter.send w
  | .close => PipeFilter.close w
  | .fill c n => PipeFilter.fill w c n
  | .filterLine c => PipeFilter.filterLine w c
  | .finish c => PipeFilter.finish w c

/-- A step of the whole system. -/
def Step (w : World) (e : Event) (w' : World) : Prop := e.Enabled w ∧ w' = w.next e

/-- The bytes that happen to be in the arrays at the start. -/
structure Stack where
  line : Chars := fun _ => 0
  childLine : Child → Chars := fun _ _ => 0

/-- The parent enters its loop, and the children have started. -/
def initial (stack : Stack) (draws : ℕ → Bool) (input : List UInt8) : World :=
  { input := input, draws := draws, line := stack.line
    child := fun c => { line := stack.childLine c } }

/-- What `main` reads before its loop: the two names, and what is left of the input. -/
def readNames (stdin : List UInt8) : List UInt8 × List UInt8 × List UInt8 :=
  let (filename1, stdin) := scanWord 255 stdin
  let (filename2, stdin) := scanWord 255 stdin
  (filename1, filename2, stdin)

/-- The parent has read the names and enters its loop. -/
def start (stack : Stack) (draws : ℕ → Bool) (stdin : List UInt8) : World :=
  initial stack draws (readNames stdin).2.2

/-- All processes have finished. -/
def World.Finished (w : World) : Prop := w.parent = .waiting ∧ ∀ c, (w.child c).finished = true

end PipeFilter
