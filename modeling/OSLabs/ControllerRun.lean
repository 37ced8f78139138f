/-
# Reading the commands

The part of `Controller::run` in `Labs/Lab5/src/control.cpp` that reads the standard input.
`input_available` asks about the descriptor, but `std::cin` and `fgets` read from the buffer of
stdio, which a `read` fills with what the descriptor has: what is in the descriptor and what is in
the buffer are kept apart.  The word of a command is taken from `std::cin`, and so are numbers, but
the arguments of `exec` are a line that `fgets` takes.  A `Session` is the world of `OSLabs.NodeTree`
with the input; its runs are runs of the tree.
-/
import OSLabs.ExecLine
import OSLabs.InputStream

namespace NodeTree

/-! ## One pass -/

/-- `create`. -/
def createWord : List UInt8 := [99, 114, 101, 97, 116, 101]

/-- `exec`. -/
def execWord : List UInt8 := [101, 120, 101, 99]

/-- `ping`. -/
def pingWord : List UInt8 := [112, 105, 110, 103]

/-- `heartbeat`. -/
def heartbeatWord : List UInt8 := [104, 101, 97, 114, 116, 98, 101, 97, 116]

/-- The world, the buffer of stdio with the state of `std::cin`, and the word that was read last.  In
the descriptor are the bytes that no `read` has taken; it is `closed` when no more will come.  A pass
that found input available is `reading` until it has the arguments of its command. -/
structure Session where
  world : World
  stdin : InputStream
  command : List UInt8 := []
  descriptor : List UInt8 := []
  closed : Bool := false
  reading : Bool := false

/-- The local variables of the handlers, before anything is stored in them. -/
structure Locals where
  childId : ℤ
  parentId : ℤ
  id : ℤ
  time : ℤ
  input : Chars
  key : Chars

instance : Inhabited Locals := ⟨0, 0, 0, 0, fun _ => 0, fun _ => 0⟩

/-- The events in which the controller takes part. -/
def Event.ofController : Event → Bool
  | .command _ _ | .receiveUp _ | .checkPending | .checkBeats => true
  | .tick _ | .receiveDown _ _ | .relayUp _ _ | .sendBeat _ => false

namespace Session

variable (s : Session) (l : Locals) (outcome : Outcome)

/-- `input_available`: whether a `read` of the descriptor would return at once, be it with bytes or
with the end of the input.  What stdio holds does not count. -/
def inputAvailable : Bool := s.closed || !s.descriptor.isEmpty

/-- Nothing will come behind what stdio holds. -/
def atEnd : Bool := s.closed && s.descriptor.isEmpty

/-- What a pass of `run` does behind `input_available`; `none` if stdio does not hold enough for it,
so that there is a `read` first. -/
def runPass : Option Session :=
  let (command, stdin) := s.stdin.extractWord s.command
  if stdin.eof && !s.atEnd then none
  else if command = createWord then
    let (childId, stdin) := stdin.extractInt l.childId
    let (parentId, stdin) := stdin.extractInt l.parentId
    if stdin.eof && !s.atEnd then none
    else
      let world := handleCreateCommand s.world childId parentId outcome
      some { s with world, stdin, command, reading := false }
  else if command = execWord then
    if stdin.bytes.length < 99 ∧ 10 ∉ stdin.bytes ∧ s.atEnd = false then none
    else
      let (world, _, rest) := execCommand s.world stdin.bytes l.input l.key
      some { s with world, stdin := { stdin with bytes := rest }, command, reading := false }
  else if command = pingWord then
    let (id, stdin) := stdin.extractInt l.id
    if stdin.eof && !s.atEnd then none
    else some { s with world := handlePingCommand s.world id, stdin, command, reading := false }
  else if command = heartbeatWord then
    let (time, stdin) := stdin.extractInt l.time
    if stdin.eof && !s.atEnd then none
    else some { s with world := handleHeartbeatCommand s.world time, stdin, command, reading := false }
  else
    some { s with
      world := s.world.updateCtrl (·.print .unknownCommand), stdin, command, reading := false }

/-- `n` bytes go from the descriptor to stdio. -/
def fill (n : ℕ) : Session :=
  { s with
    stdin := { s.stdin with bytes := s.stdin.bytes ++ s.descriptor.take n }
    descriptor := s.descriptor.drop n }

end Session

/-! ## Steps -/

/-- A line of text. -/
def IsLine (line : List UInt8) : Prop := ∃ l, line = l ++ [10] ∧ 10 ∉ l

namespace Session

/-- What happens in a step: a line comes, or the end of the input; `input_available` is called; a
`read` gives bytes to stdio; a pass has what it needs; or anything else. -/
inductive Label where
  | type (line : List UInt8)
  | close
  | poll
  | read (n : ℕ)
  | pass (l : Locals) (outcome : Outcome)
  | other (e : Event)

/-- The commands come from the passes only.  While a pass is reading the controller does nothing
else. -/
inductive Step : Session → Label → Session → Prop
  | type {s : Session} {line : List UInt8} (hopen : s.closed = false) (hline : IsLine line) :
      Step s (.type line) { s with descriptor := s.descriptor ++ line }
  | close {s : Session} : Step s .close { s with closed := true }
  | poll {s : Session} (hrun : s.world.ctrlRunning = true) (hidle : s.reading = false) :
      Step s .poll { s with reading := s.inputAvailable }
  | read {s : Session} {n : ℕ} (hreading : s.reading = true) (hmore : ∀ l o, s.runPass l o = none)
      (hpos : 0 < n) (hn : n ≤ s.descriptor.length) : Step s (.read n) (s.fill n)
  | pass {s s' : Session} {l : Locals} {outcome : Outcome} (hrun : s.world.ctrlRunning = true)
      (hreading : s.reading = true) (h : s.runPass l outcome = some s') : Step s (.pass l outcome) s'
  | other {s : Session} {e : Event} (he : e.Enabled s.world)
      (hother : ∀ cmd outcome, e ≠ .command cmd outcome)
      (hidle : e.ofController = true → s.reading = false) :
      Step s (.other e) { s with world := s.world.next e }

/-- The controller has just started, and nothing was typed. -/
def start : Session := { world := initial, stdin := { bytes := [] } }

/-- The lines that were typed. -/
def typedLines (ls : List Label) : List (List UInt8) :=
  ls.filterMap fun
    | .type line => some line
    | _ => none

/-! ## The world of a session -/

variable {s s' : Session} {l : Locals} {outcome : Outcome}

/-- **A pass** carries out a command or leaves the world as it is. -/
theorem world_runPass (h : s.runPass l outcome = some s') : s'.world = s.world ∨
    ∃ cmd, s'.world = s.world.next (.command cmd outcome) := by
  unfold runPass at h
  generalize s.stdin.extractWord s.command = word at h
  obtain ⟨command, stdin⟩ := word
  dsimp only at h
  split_ifs at h with heof hcreate heof' hexec hwait hping heof' hheartbeat heof'
  · obtain rfl := Option.some_inj.mp h
    exact .inr ⟨.create _ _, rfl⟩
  · obtain rfl := Option.some_inj.mp h
    unfold execCommand
    dsimp only
    split
    · exact .inl rfl
    · exact .inr ⟨.exec _ _ _, rfl⟩
  · obtain rfl := Option.some_inj.mp h
    exact .inr ⟨.ping _, rfl⟩
  · obtain rfl := Option.some_inj.mp h
    exact .inr ⟨.heartbeat _, rfl⟩
  · obtain rfl := Option.some_inj.mp h
    exact .inr ⟨.unknown, rfl⟩

/-- **Every session** is a run of the tree. -/
theorem exists_run {s : Session} {ls : List Label} (h : Run Step s ls s') :
    ∃ es, Run NodeTree.Step s.world es s'.world := by
  induction h with
  | nil s => exact ⟨[], .nil _⟩
  | @cons s t u l ls hstep _ ih =>
    obtain ⟨es, hrest⟩ := ih
    cases hstep with
    | @pass _ _ outcome hrun hreading hpass =>
      rcases world_runPass hpass with hsame | ⟨cmd, hnext⟩
      · exact ⟨es, hsame ▸ hrest⟩
      · have he : Event.Enabled s.world (.command cmd outcome) := hrun
        exact ⟨.command cmd outcome :: es, .cons ⟨he, hnext⟩ hrest⟩
    | @other e he hother hidle => exact ⟨e :: es, .cons ⟨he, rfl⟩ hrest⟩
    -- The other steps only move bytes.
    | type => exact ⟨es, hrest⟩
    | close => exact ⟨es, hrest⟩
    | poll => exact ⟨es, hrest⟩
    | read => exact ⟨es, hrest⟩

end Session

end NodeTree
