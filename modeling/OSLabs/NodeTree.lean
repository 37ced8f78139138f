/-
# The controller and its tree of computing nodes

Translation of `Labs/Lab5/src/control.cpp` and `nodes.cpp`.  Every link is a pair of
first-in-first-out queues between a process and its parent.  A step is one message taken
from a link, one user command, one pass over the pending messages or the beats, or a beat;
the loops of the two `run` functions are sequences of such steps.

The fields `req`, `path`, `served`, `crashed`, `issued` and `answered` record where messages
come from and what was done with them.  They are not part of the program, and no decision
depends on them.
-/
import OSLabs.LabelledRuns

namespace NodeTree

/-! ## Messages -/

/-- `CommandType`. -/
inductive CommandType where
  | none
  | create
  | ping
  | execAdd
  | execFnd
  | execErr
  | heartBeat
  deriving DecidableEq, Repr

/-- `Message`.  `val` holds the bytes before the terminating zero, times are in nanoseconds. -/
structure Message where
  command : CommandType := .none
  id : ℤ := -1
  addData : ℤ := -1
  sentTime : ℤ := 0
  val : List UInt8 := []
  deriving DecidableEq, Repr

/-- What `strncpy` leaves of a string in the 30 bytes of `val`. -/
def truncate (s : List UInt8) : List UInt8 := (s.takeWhile (· ≠ 0)).take 29

/-- The constructor of `Message` with three arguments, at the time `now`. -/
def Message.of (now : ℤ) (cmd : CommandType) (id addData : ℤ) : Message :=
  { command := cmd, id := id, addData := addData, sentTime := now }

/-- The constructor of `Message` with four arguments, at the time `now`. -/
def Message.ofString (now : ℤ) (cmd : CommandType) (id addData : ℤ) (s : List UInt8) : Message :=
  { Message.of now cmd id addData with val := truncate s }

/-- A message that the controller broadcast, with its number. -/
structure Request where
  tag : ℕ
  msg : Message
  deriving DecidableEq, Repr

/-- A message in a link, with the request that it is a copy of or an answer to. -/
structure Packet where
  msg : Message
  req : Option Request
  deriving DecidableEq, Repr

/-- `Node`: the id and the process id of a child. -/
structure Node where
  id : ℤ
  pid : ℕ
  deriving DecidableEq, Repr

/-! ## State -/

/-- A line that the controller prints. -/
inductive Output where
  | okPid (pid : ℤ)
  | okAvailable (id : ℤ)
  | okNotFound (id : ℤ) (val : List UInt8)
  | ok (id : ℤ)
  | okFound (id : ℤ) (val : List UInt8) (data : ℤ)
  | okBeat (id : ℤ)
  | pingUnavailable (id : ℤ)
  | parentUnavailable (id : ℤ)
  | nodeUnavailable (id : ℤ)
  | alreadyExists (id : ℤ)
  | parentNotFound (id : ℤ)
  | doesNotExist (id : ℤ)
  | noBeat (id : ℤ)
  | unknownCommand
  deriving DecidableEq, Repr

/-- The text of a line. -/
def Output.text : Output → String
  | .okPid pid => s!"Ok: {pid}"
  | .okAvailable id => s!"Ok: {id} is available"
  | .okNotFound id val => s!"Ok: {id} '" ++ bytes val ++ "' not found"
  | .ok id => s!"Ok: {id}"
  | .okFound id val data => s!"Ok: {id} '" ++ bytes val ++ s!"' {data}"
  | .okBeat id => s!"Ok: {id} Got beat"
  | .pingUnavailable id => s!"Error: Ok {id} is unavailable"
  | .parentUnavailable id => s!"Error: Parent {id} is unavailable"
  | .nodeUnavailable id => s!"Error: Node {id} is unavailable"
  | .alreadyExists id => s!"Error: Node with id {id} already exists"
  | .parentNotFound id => s!"Error: Parent with id {id} not found"
  | .doesNotExist id => s!"Error: Node with id {id} doesn't exist"
  | .noBeat id => s!"Node: {id} has no beat!"
  | .unknownCommand => "Error: Command doesn't exist!"
where
  bytes (val : List UInt8) : String := String.ofList (val.map fun b => Char.ofNat b.toNat)

/-- The fields of `Controller`. -/
structure Controller where
  nodeIds : Finset ℤ := {-1}
  pendingMessages : List Request := []
  children : List Node := []
  heartbeat : ℤ := 0
  beatTracker : List (ℤ × ℤ) := []
  output : List Output := []

/-- The fields of `ComputingNode`. -/
structure ComputingNode where
  id : ℤ
  dictionary : List UInt8 → Option ℤ := fun _ => none
  children : List Node := []
  heartbeat : ℤ := 0
  lastBeat : ℤ

/-- A computing process with the link to its parent: `down` holds what the parent sent, `up`
what the process sent, the oldest first. -/
structure Process where
  node : ComputingNode
  running : Bool := true
  down : List Packet := []
  up : List Packet := []
  /-- The processes from a child of the controller down to this one; empty when no parent
  holds a `Node` for this process. -/
  path : List ℕ
  /-- The requests that the process acted on, with its replies. -/
  served : List (Request × Message) := []
  /-- The request whose `handle_create` threw. -/
  crashed : Option Request := none

/-- The controller, the processes forked so far, and the clock. -/
structure World where
  clock : ℤ := 0
  ctrl : Controller := {}
  ctrlRunning : Bool := true
  count : ℕ := 0
  proc : ℕ → Process
  /-- The requests broadcast so far. -/
  issued : List Request := []
  /-- The replies processed so far. -/
  answered : List (Request × Message) := []

/-- The processes forked so far, by their ids. -/
def World.ids (w : World) : List ℤ := (List.range w.count).map fun p => (w.proc p).node.id

/-! ## Links and processes -/

namespace World

variable (w : World)

/-- A change of one process. -/
def update (p : ℕ) (f : Process → Process) : World :=
  { w with proc := Function.update w.proc p (f (w.proc p)) }

/-- `send_message` of a process on its own socket. -/
def sendUp (p : ℕ) (pkt : Packet) : World := w.update p fun q => { q with up := q.up ++ [pkt] }

/-- `send_message` on the socket of a child. -/
def sendDown (p : ℕ) (pkt : Packet) : World :=
  w.update p fun q => { q with down := q.down ++ [pkt] }

/-- The loop that sends a message to every child. -/
def sendAll (children : List Node) (pkt : Packet) : World :=
  children.foldl (fun w child => w.sendDown child.pid pkt) w

/-- A new process that runs `computing` with the given id. -/
def fork (id : ℤ) (path : List ℕ) : World :=
  { w with
    count := w.count + 1
    proc := Function.update w.proc w.count
      { node := { id := id, lastBeat := w.clock }, path := path } }

end World

/-- How `create_process` ends: with the new node, or by throwing before or after the fork. -/
inductive Outcome where
  | created
  | forkFailed
  | bindFailed
  deriving DecidableEq, Repr

/-- `create_process`, called by the process at the end of `path` (or by the controller). -/
def createProcess (w : World) (id : ℤ) (path : List ℕ) : Outcome → World × Option Node
  | .created => (w.fork id (path ++ [w.count]), some ⟨id, w.count⟩)
  | .forkFailed => (w, none)
  | .bindFailed => (w.fork id [], none)

/-! ## `ComputingNode` -/

section ComputingNode

variable (w : World) (p : ℕ) (pkt : Packet)

/-- The process sends a reply to the request of `pkt`. -/
def reply (msg : Message) : World :=
  w.update p fun q =>
    { q with
      up := q.up ++ [⟨msg, pkt.req⟩]
      served := q.served ++ (pkt.req.map fun r => (r, msg)).toList }

/-- `broadcast_to_children`. -/
def broadcastToChildren : World := w.sendAll (w.proc p).node.children pkt

/-- `handle_create`. -/
def handleCreate (outcome : Outcome) : World :=
  if pkt.msg.id = (w.proc p).node.id then
    match createProcess w pkt.msg.addData (w.proc p).path outcome with
    | (w, none) => w.update p fun q => { q with running := false, crashed := pkt.req }
    | (w, some child) =>
      let w := w.update p fun q =>
        { q with node := { q.node with children := q.node.children ++ [child] } }
      reply w p pkt (.of w.clock .create child.id child.pid)
  else broadcastToChildren w p pkt

/-- `handle_ping`. -/
def handlePing : World :=
  if pkt.msg.id = (w.proc p).node.id then reply w p pkt pkt.msg else broadcastToChildren w p pkt

/-- `handle_heartbeat`. -/
def handleHeartbeat : World :=
  let w := w.update p fun q => { q with node := { q.node with heartbeat := pkt.msg.addData } }
  broadcastToChildren w p pkt

/-- `handle_exec_add`. -/
def handleExecAdd : World :=
  if pkt.msg.id = (w.proc p).node.id then
    let w := w.update p fun q =>
      { q with
        node := { q.node with
          dictionary := Function.update q.node.dictionary pkt.msg.val (some pkt.msg.addData) } }
    reply w p pkt pkt.msg
  else broadcastToChildren w p pkt

/-- `handle_exec_find`. -/
def handleExecFind : World :=
  if pkt.msg.id = (w.proc p).node.id then
    match (w.proc p).node.dictionary pkt.msg.val with
    | some x => reply w p pkt (.ofString w.clock .execFnd (w.proc p).node.id x pkt.msg.val)
    | none => reply w p pkt (.ofString w.clock .execErr (w.proc p).node.id (-1) pkt.msg.val)
  else broadcastToChildren w p pkt

/-- The `switch` of `ComputingNode::run`. -/
def handleParentMessage (outcome : Outcome) : World :=
  match pkt.msg.command with
  | .create => handleCreate w p pkt outcome
  | .ping => handlePing w p pkt
  | .heartBeat => handleHeartbeat w p pkt
  | .execAdd => handleExecAdd w p pkt
  | .execFnd => handleExecFind w p pkt
  | _ => w

/-- A message of the parent is received and handled. -/
def receiveDown (outcome : Outcome) : World :=
  match (w.proc p).down with
  | [] => w
  | pkt :: rest =>
    handleParentMessage (w.update p fun q => { q with down := rest }) p pkt outcome

/-- A message of the child `c` is received and sent on. -/
def relayUp (c : ℕ) : World :=
  match (w.proc c).up with
  | [] => w
  | pkt :: rest => (w.update c fun q => { q with up := rest }).sendUp p pkt

/-- Whole milliseconds between two times. -/
def milliseconds (later earlier : ℤ) : ℤ := (later - earlier).tdiv 1000000

/-- The heartbeat of `ComputingNode::run`. -/
def sendBeat : World :=
  let node := (w.proc p).node
  if node.heartbeat > 0 ∧ milliseconds w.clock node.lastBeat > node.heartbeat then
    (w.sendUp p ⟨.of w.clock .heartBeat node.id (-1), none⟩).update p fun q =>
      { q with node := { q.node with lastBeat := w.clock } }
  else w

end ComputingNode

/-! ## `Controller` -/

/-- `beat_tracker[key] = value`: the entries stay in ascending order of their keys. -/
def assign (key value : ℤ) : List (ℤ × ℤ) → List (ℤ × ℤ)
  | [] => [(key, value)]
  | (k, v) :: rest =>
    if key < k then (key, value) :: (k, v) :: rest
    else if key = k then (key, value) :: rest
    else (k, v) :: assign key value rest

/-- The condition under which `remove_pending_message` takes an entry. -/
def isAnswered (cmd : CommandType) (id : ℤ) (m : Message) : Bool :=
  (m.command = cmd ∧ m.id = id) ∨ (m.command = cmd ∧ m.command = .create ∧ m.addData = id)

namespace Controller

variable (c : Controller)

/-- `remove_pending_message`. -/
def removePendingMessage (cmd : CommandType) (id : ℤ) : Controller :=
  { c with pendingMessages := c.pendingMessages.eraseP fun r => isAnswered cmd id r.msg }

/-- A line is printed. -/
def print (line : Output) : Controller := { c with output := c.output ++ [line] }

/-- `handle_child_message`. -/
def handleChildMessage (now : ℤ) (m : Message) : Controller :=
  match m.command with
  | .create =>
    let c := { c with
      nodeIds := insert m.id c.nodeIds
      beatTracker := assign m.id now c.beatTracker }
    (c.print (.okPid m.addData)).removePendingMessage .create m.id
  | .ping => (c.print (.okAvailable m.id)).removePendingMessage .ping m.id
  | .execErr => (c.print (.okNotFound m.id m.val)).removePendingMessage .execFnd m.id
  | .execAdd => (c.print (.ok m.id)).removePendingMessage .execAdd m.id
  | .execFnd => (c.print (.okFound m.id m.val m.addData)).removePendingMessage .execFnd m.id
  | .heartBeat =>
    { c.print (.okBeat m.id) with beatTracker := assign m.id now c.beatTracker }
  | .none => c

/-- `handle_timeout`. -/
def handleTimeout (m : Message) : Controller :=
  match m.command with
  | .ping => c.print (.pingUnavailable m.id)
  | .create => c.print (.parentUnavailable m.id)
  | .execAdd => c.print (.nodeUnavailable m.id)
  | .execFnd => c.print (.nodeUnavailable m.id)
  | _ => c

/-- An entry is older than five whole seconds. -/
def isExpired (now : ℤ) (m : Message) : Bool := (now - m.sentTime).tdiv 1000000000 > 5

/-- `check_pending_messages`. -/
def checkPendingMessages (now : ℤ) : Controller :=
  let c' := (c.pendingMessages.filter fun r => isExpired now r.msg).foldl
    (fun c r => c.handleTimeout r.msg) c
  { c' with pendingMessages := c.pendingMessages.filter fun r => ¬ isExpired now r.msg }

/-- `check_beats`. -/
def checkBeats (now : ℤ) : Controller :=
  let late := fun value => decide (milliseconds now value > 4 * c.heartbeat)
  { c with
    output := c.output ++
      (c.beatTracker.filter fun e => late e.2).map fun e => .noBeat e.1
    beatTracker := c.beatTracker.map fun e => (e.1, if late e.2 then now else e.2) }

end Controller

section Commands

variable (w : World)

/-- A change of the controller. -/
def World.updateCtrl (f : Controller → Controller) : World := { w with ctrl := f w.ctrl }

/-- `broadcast_message`. -/
def broadcastMessage (m : Message) : World :=
  let r : Request := ⟨w.issued.length, m⟩
  let w := { w with
    ctrl := { w.ctrl with pendingMessages := w.ctrl.pendingMessages ++ [r] }
    issued := w.issued ++ [r] }
  w.sendAll w.ctrl.children ⟨m, some r⟩

/-- `handle_create_command`. -/
def handleCreateCommand (childId parentId : ℤ) (outcome : Outcome) : World :=
  if childId ∈ w.ctrl.nodeIds then w.updateCtrl (·.print (.alreadyExists childId))
  else if parentId ∉ w.ctrl.nodeIds then w.updateCtrl (·.print (.parentNotFound parentId))
  else if parentId = -1 then
    match createProcess w childId [] outcome with
    | (w, none) => { w with ctrlRunning := false }
    | (w, some child) =>
      w.updateCtrl fun c =>
        ({ c with
          children := c.children ++ [child]
          nodeIds := insert childId c.nodeIds } : Controller).print (.okPid child.pid)
  else broadcastMessage w (.of w.clock .create parentId childId)

/-- `handle_exec_command`, after the line was read: a value is given or not. -/
def handleExecCommand (id : ℤ) (key : List UInt8) (val : Option ℤ) : World :=
  if id ∉ w.ctrl.nodeIds then w.updateCtrl (·.print (.doesNotExist id))
  else
    match val with
    | some val => broadcastMessage w (.ofString w.clock .execAdd id val key)
    | none => broadcastMessage w (.ofString w.clock .execFnd id (-1) key)

/-- `handle_ping_command`. -/
def handlePingCommand (id : ℤ) : World :=
  if id ∉ w.ctrl.nodeIds then w.updateCtrl (·.print (.doesNotExist id))
  else broadcastMessage w (.of w.clock .ping id 0)

/-- `handle_heartbeat_command`. -/
def handleHeartbeatCommand (time : ℤ) : World :=
  let w := w.updateCtrl fun c =>
    { c with heartbeat := time, beatTracker := c.beatTracker.map fun e => (e.1, w.clock) }
  w.sendAll w.ctrl.children ⟨.of w.clock .heartBeat (-1) time, none⟩

/-- A message of the child `p` is received and handled. -/
def receiveUp (p : ℕ) : World :=
  match (w.proc p).up with
  | [] => w
  | pkt :: rest =>
    let w := w.update p fun q => { q with up := rest }
    { w with
      ctrl := w.ctrl.handleChildMessage w.clock pkt.msg
      answered := w.answered ++ (pkt.req.map fun r => (r, pkt.msg)).toList }

end Commands

/-! ## Steps -/

/-- A command line, after it was read. -/
inductive Command where
  | create (childId parentId : ℤ)
  | exec (id : ℤ) (key : List UInt8) (val : Option ℤ)
  | ping (id : ℤ)
  | heartbeat (time : ℤ)
  | unknown
  deriving DecidableEq, Repr

/-- What happens in a step.  An outcome belongs to the call of `create_process`, if there
is one. -/
inductive Event where
  | tick (now : ℤ)
  | command (cmd : Command) (outcome : Outcome)
  | receiveUp (p : ℕ)
  | checkPending
  | checkBeats
  | receiveDown (p : ℕ) (outcome : Outcome)
  | relayUp (p c : ℕ)
  | sendBeat (p : ℕ)
  deriving DecidableEq, Repr

/-- The branch of `Controller::run` that handles a command. -/
def handleCommand (w : World) (outcome : Outcome) : Command → World
  | .create childId parentId => handleCreateCommand w childId parentId outcome
  | .exec id key val => handleExecCommand w id key val
  | .ping id => handlePingCommand w id
  | .heartbeat time => handleHeartbeatCommand w time
  | .unknown => w.updateCtrl (·.print .unknownCommand)

/-- Who takes part in the step is running, and receives from one of its children only. -/
def Event.Enabled (w : World) : Event → Prop
  | .tick _ => True
  | .command _ _ => w.ctrlRunning = true
  | .receiveUp p => w.ctrlRunning = true ∧ p ∈ w.ctrl.children.map Node.pid
  | .checkPending => w.ctrlRunning = true
  | .checkBeats => w.ctrlRunning = true ∧ w.ctrl.heartbeat > 0
  | .receiveDown p _ => p < w.count ∧ (w.proc p).running = true
  | .relayUp p c =>
    p < w.count ∧ (w.proc p).running = true ∧ c ∈ (w.proc p).node.children.map Node.pid
  | .sendBeat p => p < w.count ∧ (w.proc p).running = true

instance (w : World) (e : Event) : Decidable (e.Enabled w) := by
  cases e <;> unfold Event.Enabled <;> infer_instance

/-- The world after a step. -/
def World.next (w : World) : Event → World
  | .tick now => { w with clock := now }
  | .command cmd outcome => handleCommand w outcome cmd
  | .receiveUp p => NodeTree.receiveUp w p
  | .checkPending => w.updateCtrl (·.checkPendingMessages w.clock)
  | .checkBeats => w.updateCtrl (·.checkBeats w.clock)
  | .receiveDown p outcome => NodeTree.receiveDown w p outcome
  | .relayUp p c => NodeTree.relayUp w p c
  | .sendBeat p => NodeTree.sendBeat w p

/-- A step of the whole system. -/
def Step (w : World) (e : Event) (w' : World) : Prop := e.Enabled w ∧ w' = w.next e

/-- The controller has just started, and there are no processes. -/
def initial : World := { proc := fun _ => { node := { id := -1, lastBeat := 0 }, path := [] } }

end NodeTree
