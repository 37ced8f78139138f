/-
# The three processes and their descriptors

`main` of `Labs/Lab1/src/parent.c` from its first call to its end, with the descriptor tables of
the parent and of the two children it forks, and what the children do up to the loop of
`child1.c` and `child2.c`.  A step is one system call, or one pass of a loop.  A `write` to a pipe
waits until there is room for all its bytes, a `read` waits for a byte as long as some process
holds the other end, and `waitpid` waits for the end of a child.

`fork`, `execl` and `fopen` may fail, as may `pipe` when too few descriptors are free.  A write to
a pipe that nobody can read from kills the parent.

The field `sent` records what was written to a pipe.  It is not part of the program, and no
decision depends on it.
-/
import OSLabs.Descriptors
import OSLabs.PipeFilter

namespace PipeFilter

/-- The child that is not `c`. -/
def Child.other : Child → Child
  | .child1 => .child2
  | .child2 => .child1

namespace Processes

open Chars TextStream VowelFilter

/-- Other files are known by their names. -/
abbrev Table (n : ℕ) : Type := DescriptorTable n Child (List UInt8)

/-! ## Places -/

/-- Where the parent is: the call that it makes next, or how it came to its end. -/
inductive ParentPlace where
  | pipe (c : Child)
  | names
  | fork (c : Child)
  | closeRead (c : Child)
  | loop
  | closeWrite (c : Child)
  | wait (c : Child)
  | ended
  | failed
  | killed
  deriving DecidableEq, Repr

/-- Where a child is.  The first five calls are made in the program of the parent. -/
inductive ChildPlace where
  | unborn
  | closeWrite
  | dup
  | closeRead
  | closeOtherRead
  | closeOtherWrite
  | exec
  | fopen
  | running
  | ended
  | failed
  deriving DecidableEq, Repr

/-- A call is made for the first child, and then for the second. -/
def andThen (call : Child → ParentPlace) (c : Child) (next : ParentPlace) : ParentPlace :=
  match c with
  | .child1 => call .child2
  | .child2 => next

/-- The process is gone, and `waitpid` returns. -/
def ChildPlace.over : ChildPlace → Bool
  | .ended => true
  | .failed => true
  | _ => false

def ParentPlace.over : ParentPlace → Bool
  | .ended => true
  | .failed => true
  | .killed => true
  | _ => false

/-- The child that the parent waits for. -/
def ParentPlace.awaited : ParentPlace → Option Child
  | .wait c => some c
  | _ => none

def ParentPlace.forking : ParentPlace → Bool
  | .fork _ => true
  | _ => false

/-- A child is between `fork` and its loop. -/
def ChildPlace.starting : ChildPlace → Bool
  | .unborn => false
  | .running => false
  | .ended => false
  | .failed => false
  | _ => true

/-! ## The world -/

/-- A child: its descriptors, `argv[1]`, what its standard input has read and not handed out yet,
its array, and what it has written to its file. -/
structure ChildState (n : ℕ) where
  place : ChildPlace := .unborn
  table : Table n := DescriptorTable.empty
  arg : List UInt8 := []
  stdin : List UInt8 := []
  line : Chars
  file : List UInt8 := []

/-- The three processes, with the arrays `pipe1` and `pipe2`, `filename1` and `filename2` of the
parent, and what is in the pipes.  `draws` says of the numbers that `rand` is going to return
whether they are below `PROB_PIPE1`. -/
structure World (n : ℕ) where
  input : List UInt8
  draws : ℕ → Bool
  line : Chars
  names : Child → List UInt8 := fun _ => []
  pipes : Child → PipeEnd → Fin n
  place : ParentPlace := .pipe .child1
  table : Table n
  bytes : Child → List UInt8 := fun _ => []
  child : Child → ChildState n
  /-- The bytes written to a pipe so far. -/
  sent : Child → List UInt8 := fun _ => []

section Steps

variable {n : ℕ} (w : World n)

/-- One child changes. -/
def World.setChild (c : Child) (q : ChildState n) : World n :=
  { w with child := Function.update w.child c q }

/-- The parent comes to its end; its descriptors are closed. -/
def World.exit (place : ParentPlace) : World n :=
  { w with place := place, table := DescriptorTable.empty }

/-- A child comes to its end; its descriptors are closed. -/
def World.exitChild (c : Child) (place : ChildPlace) : World n :=
  w.setChild c { w.child c with place := place, table := DescriptorTable.empty }

/-- Some process holds this end of the pipe. -/
def World.Held (c : Child) (e : PipeEnd) : Prop :=
  w.table.Holds (.pipe c e) ∨ ∃ d, (w.child d).table.Holds (.pipe c e)

instance (c : Child) (e : PipeEnd) : Decidable (w.Held c e) :=
  decidable_of_iff (w.table.Holds (.pipe c e) ∨ (w.child .child1).table.Holds (.pipe c e) ∨
    (w.child .child2).table.Holds (.pipe c e)) (by
      unfold World.Held
      apply or_congr Iff.rfl
      constructor
      · rintro (h | h)
        · exact ⟨_, h⟩
        · exact ⟨_, h⟩
      · rintro ⟨d, h⟩
        cases d with
        | child1 => exact Or.inl h
        | child2 => exact Or.inr h)

/-- The pipe that the parent writes to with this descriptor. -/
def World.sink (fd : Fin n) : Option Child :=
  match w.table fd with
  | some (.pipe c .write) => some c
  | _ => none

/-- `write` of the parent.  What it returns is not looked at. -/
def write (fd : Fin n) (bytes : List UInt8) : World n :=
  match w.sink fd with
  | none => w
  | some c =>
    if bytes = [] then w
    else if w.Held c .read then
      { w with
        bytes := Function.update w.bytes c (w.bytes c ++ bytes)
        sent := Function.update w.sent c (w.sent c ++ bytes) }
    else w.exit .killed

/-- The test and one pass of the loop of the parent. -/
def sendLine : World n :=
  match fgets maxLine w.line w.input with
  | none => { w with place := .closeWrite .child1 }
  | some (line, input) =>
    write { w with input := input, draws := laterDraws w.draws, line := line }
      (w.pipes (target (w.draws 0)) .write) (text maxLine line)

/-- The next call of the parent. -/
def parentNext : World n :=
  match w.place with
  | .pipe c =>
    match w.table.pipe c with
    | none => w.exit .failed
    | some (fds, table) =>
      { w with
        place := andThen .pipe c .names
        pipes := Function.update w.pipes c fds
        table := table }
  | .names =>
    let (filename1, filename2, input) := readNames w.input
    { w with
      place := .fork .child1
      input := input
      names := fun c => match c with
        | .child1 => filename1
        | .child2 => filename2 }
  | .fork c =>
    { w.setChild c { w.child c with place := .closeWrite, table := w.table } with
      place := andThen .fork c (.closeRead .child1) }
  | .closeRead c =>
    { w with place := andThen .closeRead c .loop, table := w.table.close (w.pipes c .read) }
  | .loop => sendLine w
  | .closeWrite c =>
    { w with
      place := andThen .closeWrite c (.wait .child1)
      table := w.table.close (w.pipes c .write) }
  | .wait .child1 => { w with place := .wait .child2 }
  | .wait .child2 => w.exit .ended
  | .ended => w
  | .failed => w
  | .killed => w

variable [NeZero n]

/-- A child goes on to its next call, with these descriptors. -/
def advance (c : Child) (place : ChildPlace) (table : Table n) : World n :=
  w.setChild c { w.child c with place := place, table := table }

/-- The next call of a child before its loop. -/
def childNext (c : Child) : World n :=
  let q := w.child c
  match q.place with
  | .closeWrite => advance w c .dup (q.table.close (w.pipes c .write))
  | .dup => advance w c .closeRead (q.table.dup2 (w.pipes c .read) 0)
  | .closeRead => advance w c .closeOtherRead (q.table.close (w.pipes c .read))
  | .closeOtherRead => advance w c .closeOtherWrite (q.table.close (w.pipes c.other .read))
  | .closeOtherWrite => advance w c .exec (q.table.close (w.pipes c.other .write))
  | .exec => w.setChild c { q with place := .fopen, arg := w.names c }
  | .fopen =>
    match q.table.install (.file q.arg) with
    | none => w.exitChild c .failed
    | some (_, table) => advance w c .running table
  | .unborn => w
  | .running => w
  | .ended => w
  | .failed => w

/-- The pipe that a child reads from. -/
def World.source (c : Child) : Option Child :=
  match (w.child c).table 0 with
  | some (.pipe d .read) => some d
  | _ => none

/-- The standard input of a child reads `k` bytes. -/
def fill (c : Child) (k : ℕ) : World n :=
  match w.source c with
  | none => w
  | some d =>
    let q := w.child c
    { w.setChild c { q with stdin := q.stdin ++ (w.bytes d).take k } with
      bytes := Function.update w.bytes d ((w.bytes d).drop k) }

/-- One pass of the loop of a child. -/
def filterLine (c : Child) : World n :=
  let q := w.child c
  match fgets maxLine q.line q.stdin with
  | none => w
  | some (line, stdin) =>
    let line := removeVowels maxLine line
    w.setChild c { q with stdin := stdin, line := line, file := q.file ++ text maxLine line }

/-- Nothing is in the pipe, and nothing can come. -/
def World.Dry (d : Child) : Prop := w.bytes d = [] ∧ ¬ w.Held d .write

instance (d : Child) : Decidable (w.Dry d) :=
  inferInstanceAs (Decidable (w.bytes d = [] ∧ ¬ w.Held d .write))

/-- `read` tells a child that there is nothing to come. -/
def World.AtEnd (c : Child) : Prop := ∃ d ∈ w.source c, w.Dry d

instance (c : Child) : Decidable (w.AtEnd c) :=
  inferInstanceAs (Decidable (∃ d ∈ w.source c, w.Dry d))

/-- `fgets` of a child returns with a line. -/
def World.HasLine (c : Child) : Prop :=
  let line := takeLine (maxLine - 1) (w.child c).stdin
  (w.child c).stdin ≠ [] ∧
    (line.length = maxLine - 1 ∨ line.getLast? = some 10 ∨ w.AtEnd c)

instance (c : Child) : Decidable (w.HasLine c) :=
  inferInstanceAs (Decidable ((w.child c).stdin ≠ [] ∧
    ((takeLine (maxLine - 1) (w.child c).stdin).length = maxLine - 1 ∨
      (takeLine (maxLine - 1) (w.child c).stdin).getLast? = some 10 ∨ w.AtEnd c)))

/-- There are `k` bytes for a child to read. -/
def World.Readable (c : Child) (k : ℕ) : Prop :=
  0 < k ∧ ∃ d ∈ w.source c, k ≤ (w.bytes d).length

instance (c : Child) (k : ℕ) : Decidable (w.Readable c k) :=
  inferInstanceAs (Decidable (0 < k ∧ ∃ d ∈ w.source c, k ≤ (w.bytes d).length))

/-- `write` does not have to wait: there is room, or nobody could make room. -/
def World.Writable (capacity : ℕ) (fd : Fin n) (bytes : List UInt8) : Prop :=
  ∀ c ∈ w.sink fd, w.Held c .read → (w.bytes c).length + bytes.length ≤ capacity

instance (capacity : ℕ) (fd : Fin n) (bytes : List UInt8) :
    Decidable (w.Writable capacity fd bytes) :=
  inferInstanceAs (Decidable (∀ c ∈ w.sink fd,
    w.Held c .read → (w.bytes c).length + bytes.length ≤ capacity))

/-- The parent is not gone, and does not have to wait. -/
def World.Ready (capacity : ℕ) : Prop :=
  w.place.over = false ∧
    (w.place = .loop → ∀ line ∈ fgets maxLine w.line w.input,
      w.Writable capacity (w.pipes (target (w.draws 0)) .write) (text maxLine line.1)) ∧
    ∀ c ∈ w.place.awaited, (w.child c).place.over = true

instance (capacity : ℕ) : Decidable (w.Ready capacity) :=
  inferInstanceAs (Decidable (w.place.over = false ∧
    (w.place = .loop → ∀ line ∈ fgets maxLine w.line w.input,
      w.Writable capacity (w.pipes (target (w.draws 0)) .write) (text maxLine line.1)) ∧
    ∀ c ∈ w.place.awaited, (w.child c).place.over = true))

end Steps

/-! ## Steps -/

/-- What happens in a step. -/
inductive Event where
  | parent
  | forkFails
  | child (c : Child)
  | startFails (c : Child)
  | fill (c : Child) (k : ℕ)
  | filterLine (c : Child)
  | finish (c : Child)
  deriving DecidableEq, Repr

section System

variable {n : ℕ} [NeZero n]

/-- The process that takes the step has got there, and does not have to wait. -/
def Event.Enabled (capacity : ℕ) (w : World n) : Event → Prop
  | .parent => w.Ready capacity
  | .forkFails => w.place.forking = true
  | .child c => (w.child c).place.starting = true
  | .startFails c => (w.child c).place = .exec ∨ (w.child c).place = .fopen
  | .fill c k => (w.child c).place = .running ∧ w.Readable c k
  | .filterLine c => (w.child c).place = .running ∧ w.HasLine c
  | .finish c => (w.child c).place = .running ∧ (w.child c).stdin = [] ∧ w.AtEnd c

instance (capacity : ℕ) (w : World n) : (e : Event) → Decidable (e.Enabled capacity w)
  | .parent => inferInstanceAs (Decidable (w.Ready capacity))
  | .forkFails => inferInstanceAs (Decidable (w.place.forking = true))
  | .child c => inferInstanceAs (Decidable ((w.child c).place.starting = true))
  | .startFails c => inferInstanceAs
      (Decidable ((w.child c).place = .exec ∨ (w.child c).place = .fopen))
  | .fill c k => inferInstanceAs
      (Decidable ((w.child c).place = .running ∧ w.Readable c k))
  | .filterLine c => inferInstanceAs (Decidable ((w.child c).place = .running ∧ w.HasLine c))
  | .finish c => inferInstanceAs
      (Decidable ((w.child c).place = .running ∧ (w.child c).stdin = [] ∧ w.AtEnd c))

/-- The world after a step. -/
def World.next (w : World n) : Event → World n
  | .parent => parentNext w
  | .forkFails => w.exit .failed
  | .child c => childNext w c
  | .startFails c => w.exitChild c .failed
  | .fill c k => Processes.fill w c k
  | .filterLine c => Processes.filterLine w c
  | .finish c => w.exitChild c .ended

/-- A step of the whole system, in which a pipe has room for `capacity` bytes. -/
def Step (capacity : ℕ) (w : World n) (e : Event) (w' : World n) : Prop :=
  e.Enabled capacity w ∧ w' = w.next e

/-- `main` begins, with these descriptors open and these bytes on its standard input. -/
def initial (stack : Stack) (pipes : Child → PipeEnd → Fin n) (table : Table n)
    (draws : ℕ → Bool) (stdin : List UInt8) : World n :=
  { input := stdin, draws := draws, line := stack.line, pipes := pipes, table := table
    child := fun c => { line := stack.childLine c } }

/-- The descriptors that `main` finds: its standard input is one of them, no pipe is. -/
structure Standard (table : Table n) : Prop where
  stdin : table 0 ≠ none
  wired : table.Wired fun _ _ _ => False

/-- No process can ever take a step again. -/
def World.Finished (w : World n) : Prop :=
  w.place.over = true ∧ ∀ c, (w.child c).place.over = true ∨ (w.child c).place = .unborn

end System

end Processes
end PipeFilter
