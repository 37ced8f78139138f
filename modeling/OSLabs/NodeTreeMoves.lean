/-
# What a step can do

Every step is one of a few moves: a change that no message depends on, a broadcast of the
controller, or what a process does with the first message of a link.  The inversion lemmas
below say which move a step is; all invariants are proved move by move.
-/
import OSLabs.NodeTreePackets

namespace NodeTree

/-! ## Moves -/

namespace World

variable (w : World) (p : ℕ) (rest : List Packet)

/-- A change of the node of a process. -/
def setNode (f : ComputingNode → ComputingNode) : World :=
  w.update p fun q => { q with node := f q.node }

/-- The process `p` sends the first message of its parent on to its children. -/
def forward (pkt : Packet) : World :=
  broadcastToChildren (w.update p fun q => { q with down := rest }) p pkt

/-- The process `p` replies to the first message of its parent. -/
def serve (r : Request) (m : Message) : World :=
  w.update p fun q =>
    { q with down := rest, up := q.up ++ [⟨m, some r⟩], served := q.served ++ [(r, m)] }

/-- The process `p` throws while it handles the first message of its parent. -/
def crash (r : Request) : World :=
  w.update p fun q => { q with down := rest, running := false, crashed := some r }

/-- The process `p` gets a new child. -/
def attach (id : ℤ) : World :=
  (w.fork id ((w.proc p).path ++ [w.count])).update p fun q =>
    { q with node := { q.node with children := q.node.children ++ [⟨id, w.count⟩] } }

/-- The controller gets a new child. -/
def attachCtrl (id : ℤ) : World :=
  (w.fork id [w.count]).updateCtrl fun c =>
    { c with children := c.children ++ [⟨id, w.count⟩], nodeIds := insert id c.nodeIds }

end World

section Equations

variable (w : World) {p : ℕ} (id : ℤ) (path : List ℕ) (f g : Process → Process)

theorem update_update : (w.update p f).update p g = w.update p fun q => g (f q) := by
  unfold World.update
  simp

/-- A change of an old process and the start of a new one do not disturb each other. -/
theorem fork_update (hp : p < w.count) :
    (w.update p f).fork id path = (w.fork id path).update p f := by
  have hne : p ≠ w.count := Nat.ne_of_lt hp
  unfold World.fork World.update
  simp only [Function.update_of_ne hne]
  rw [Function.update_comm hne]

theorem fork_proc (q : ℕ) : (w.fork id path).proc q =
    if q = w.count then { node := { id := id, lastBeat := w.clock }, path := path }
    else w.proc q :=
  Function.update_apply w.proc w.count _ q

theorem fork_proc_of_lt {q : ℕ} (hq : q < w.count) : (w.fork id path).proc q = w.proc q := by
  rw [fork_proc, if_neg (Nat.ne_of_lt hq)]

end Equations

section Keeps

variable (w : World) (p : ℕ) (f : ComputingNode → ComputingNode) (rest : List Packet)
  (r : Request) (m : Message) (q : ℕ)

theorem setNode_proc : (w.setNode p f).proc q =
    if q = p then { w.proc p with node := f (w.proc p).node } else w.proc q :=
  update_proc _ _ _ _

@[simp] theorem setNode_path : ((w.setNode p f).proc q).path = (w.proc q).path :=
  update_keeps _ _ _ _ Process.path rfl

@[simp] theorem setNode_down : ((w.setNode p f).proc q).down = (w.proc q).down :=
  update_keeps _ _ _ _ Process.down rfl

@[simp] theorem setNode_up : ((w.setNode p f).proc q).up = (w.proc q).up :=
  update_keeps _ _ _ _ Process.up rfl

@[simp] theorem serve_path : ((w.serve p rest r m).proc q).path = (w.proc q).path :=
  update_keeps _ _ _ _ Process.path rfl

@[simp] theorem crash_path : ((w.crash p rest r).proc q).path = (w.proc q).path :=
  update_keeps _ _ _ _ Process.path rfl

@[simp] theorem crash_up : ((w.crash p rest r).proc q).up = (w.proc q).up :=
  update_keeps _ _ _ _ Process.up rfl

/-- What was sent up stays on the link when a reply is put behind it. -/
theorem serve_up : (w.proc q).up ⊆ ((w.serve p rest r m).proc q).up := by
  unfold World.serve
  rw [update_proc]
  split_ifs with hqp
  · rw [hqp]
    exact List.subset_append_left _ _
  · exact List.Subset.refl _

/-- An old process that gets a child keeps what does not concern its node. -/
theorem attach_keeps {β : Type*} (id : ℤ) (field : Process → β)
    (hf : ∀ x : Process, ∀ l, field { x with node := { x.node with children := l } } = field x)
    (hq : q < w.count) : field ((w.attach p id).proc q) = field (w.proc q) := by
  have hkeeps := update_keeps (w.fork id ((w.proc p).path ++ [w.count])) p q
    (fun x => { x with node := { x.node with children := x.node.children ++ [⟨id, w.count⟩] } })
    field (hf _ _)
  exact hkeeps.trans (congrArg field (fork_proc_of_lt w id _ hq))

end Keeps

/-! ## How a node answers -/

/-- What a request other than a create does to the node that it is meant for. -/
def ComputingNode.act (n : ComputingNode) (m : Message) : ComputingNode :=
  match m.command with
  | .execAdd => { n with dictionary := Function.update n.dictionary m.val (some m.addData) }
  | _ => n

/-- The reply of a node to a request other than a create. -/
def ComputingNode.answer (n : ComputingNode) (now : ℤ) (m : Message) : Message :=
  match m.command with
  | .execFnd =>
    match n.dictionary m.val with
    | some x => .ofString now .execFnd n.id x m.val
    | none => .ofString now .execErr n.id (-1) m.val
  | _ => m

section ReceiveDown

variable {w : World} {p : ℕ} {pkt : Packet} {rest : List Packet}

/-- A heartbeat message is noted and sent on. -/
theorem receiveDown_beat (hdown : (w.proc p).down = pkt :: rest)
    (hcmd : pkt.msg.command = .heartBeat) (o : Outcome) :
    receiveDown w p o =
      (w.setNode p fun n => { n with heartbeat := pkt.msg.addData }).forward p rest pkt := by
  unfold receiveDown
  rw [hdown]
  simp only [handleParentMessage, hcmd, handleHeartbeat]
  unfold World.forward World.setNode
  rw [update_update, update_update]

variable {r : Request}

/-- A request for another node is sent on, whatever it asks for. -/
theorem receiveDown_other (hdown : (w.proc p).down = ⟨r.msg, some r⟩ :: rest)
    (hr : IsRequest w r.msg) (hne : r.msg.id ≠ (w.proc p).node.id) (o : Outcome) :
    receiveDown w p o = w.forward p rest ⟨r.msg, some r⟩ := by
  unfold receiveDown
  rw [hdown]
  rcases hr.kind with h | h | h | h <;>
    simp [handleParentMessage, h, handleCreate, handlePing, handleExecAdd, handleExecFind, hne,
      World.forward]

/-- A request for the node itself, other than a create, is acted on and answered. -/
theorem receiveDown_self (hdown : (w.proc p).down = ⟨r.msg, some r⟩ :: rest)
    (hr : IsRequest w r.msg) (heq : r.msg.id = (w.proc p).node.id)
    (hcmd : r.msg.command ≠ .create) (o : Outcome) :
    receiveDown w p o = (w.setNode p fun n => n.act r.msg).serve p rest r
      ((w.proc p).node.answer w.clock r.msg) := by
  unfold receiveDown
  rw [hdown]
  unfold World.serve World.setNode
  rw [update_update]
  rcases hr.kind with h | h | h | h
  · exact absurd h hcmd
  · simp [handleParentMessage, h, handlePing, heq, reply, update_update, ComputingNode.act,
      ComputingNode.answer]
  · simp [handleParentMessage, h, handleExecAdd, heq, reply, update_update, ComputingNode.act,
      ComputingNode.answer]
  · simp only [handleParentMessage, h, handleExecFind, update_proc_self, heq, if_true,
      update_clock, ComputingNode.act, ComputingNode.answer]
    cases (w.proc p).node.dictionary r.msg.val <;> simp [reply, update_update]

/-- A create request for the node itself starts a process, or the node throws. -/
theorem receiveDown_create (hp : p < w.count)
    (hdown : (w.proc p).down = ⟨r.msg, some r⟩ :: rest) (heq : r.msg.id = (w.proc p).node.id)
    (hcmd : r.msg.command = .create) (o : Outcome) :
    receiveDown w p o =
      match o with
      | .created => (w.attach p r.msg.addData).serve p rest r
          (.of w.clock .create r.msg.addData w.count)
      | .forkFailed => w.crash p rest r
      | .bindFailed => (w.fork r.msg.addData []).crash p rest r := by
  unfold receiveDown
  rw [hdown]
  cases o with
  | created =>
    simp only [handleParentMessage, hcmd, handleCreate, update_proc_self, heq, if_true,
      createProcess, reply, fork_update w _ _ _ hp, update_update, update_count]
    unfold World.serve World.attach
    rw [update_update]
    rfl
  | forkFailed =>
    simp only [handleParentMessage, hcmd, handleCreate, update_proc_self, heq, if_true,
      createProcess, update_update]
    rfl
  | bindFailed =>
    simp only [handleParentMessage, hcmd, handleCreate, update_proc_self, heq, if_true,
      createProcess, fork_update w _ _ _ hp, update_update]
    rfl

end ReceiveDown

/-! ## What goes up -/

/-- No process differs in anything but the link to its parent and the time of its last beat, and
no request is new. -/
structure OnlyUp (w w' : World) : Prop where
  count : w'.count = w.count
  issued : w'.issued = w.issued
  proc : ∀ q, ∃ u t, w'.proc q =
    { w.proc q with up := u, node := { (w.proc q).node with lastBeat := t } }

namespace OnlyUp

variable {w w' : World}

theorem refl (w : World) : OnlyUp w w := ⟨rfl, rfl, fun _ => ⟨_, _, rfl⟩⟩

theorem path (h : OnlyUp w w') (q : ℕ) : (w'.proc q).path = (w.proc q).path := by
  obtain ⟨u, t, hq⟩ := h.proc q
  rw [hq]

theorem down (h : OnlyUp w w') (q : ℕ) : (w'.proc q).down = (w.proc q).down := by
  obtain ⟨u, t, hq⟩ := h.proc q
  rw [hq]

theorem running (h : OnlyUp w w') (q : ℕ) : (w'.proc q).running = (w.proc q).running := by
  obtain ⟨u, t, hq⟩ := h.proc q
  rw [hq]

theorem heartbeat (h : OnlyUp w w') (q : ℕ) :
    (w'.proc q).node.heartbeat = (w.proc q).node.heartbeat := by
  obtain ⟨u, t, hq⟩ := h.proc q
  rw [hq]

theorem update (w : World) (p : ℕ) {f : Process → Process}
    (hf : ∃ u t, f (w.proc p) =
      { w.proc p with up := u, node := { (w.proc p).node with lastBeat := t } }) :
    OnlyUp w (w.update p f) := by
  refine ⟨rfl, rfl, fun q => ?_⟩
  by_cases hqp : q = p
  · subst hqp
    rw [update_proc_self]
    exact hf
  · rw [update_proc_of_ne _ _ _ _ hqp]
    exact ⟨_, _, rfl⟩

end OnlyUp

section Up

variable (w : World) (p c : ℕ)

/-- A beat goes up. -/
theorem sendBeat_onlyUp : OnlyUp w (sendBeat w p) := by
  unfold sendBeat World.sendUp
  dsimp only
  split_ifs
  · rw [update_update]
    exact .update w p ⟨_, _, rfl⟩
  · exact .refl w

theorem sendBeat_ctrl : (sendBeat w p).ctrl = w.ctrl ∧ (sendBeat w p).answered = w.answered := by
  unfold sendBeat
  dsimp only
  split_ifs <;> exact ⟨rfl, rfl⟩

/-- What was sent up stays on the link. -/
theorem sendBeat_up (q : ℕ) : (w.proc q).up ⊆ ((sendBeat w p).proc q).up := by
  unfold sendBeat World.sendUp
  dsimp only
  split_ifs
  · rw [update_update, update_proc]
    split_ifs with hqp
    · rw [hqp]
      exact List.subset_append_left _ _
    · exact List.Subset.refl _
  · exact List.Subset.refl _

/-- The controller takes what went up. -/
theorem receiveUp_onlyUp : OnlyUp w (receiveUp w p) := by
  unfold receiveUp
  split
  · exact .refl w
  · next pkt rest _ =>
    have h : OnlyUp w (w.update p fun q => { q with up := rest }) := .update w p ⟨_, _, rfl⟩
    exact ⟨h.count, h.issued, h.proc⟩

/-- It handles one message, if there is one. -/
theorem receiveUp_ctrl : (receiveUp w p).ctrl = w.ctrl ∨
    ∃ pkt ∈ (w.proc p).up, (receiveUp w p).ctrl = w.ctrl.handleChildMessage w.clock pkt.msg := by
  unfold receiveUp
  split
  · exact Or.inl rfl
  · next pkt rest hup => exact Or.inr ⟨pkt, by rw [hup]; exact List.mem_cons_self, rfl⟩

/-- A message goes up to the next parent. -/
theorem relayUp_onlyUp : OnlyUp w (relayUp w p c) := by
  unfold relayUp World.sendUp
  split
  · exact .refl w
  · next pkt rest _ =>
    have h : OnlyUp w (w.update c fun q => { q with up := rest }) := .update w c ⟨_, _, rfl⟩
    refine ⟨rfl, rfl, fun q => ?_⟩
    obtain ⟨u, t, hq⟩ := h.proc q
    by_cases hqp : q = p
    · subst hqp
      rw [update_proc_self, hq]
      exact ⟨_, _, rfl⟩
    · rw [update_proc_of_ne _ _ _ _ hqp, hq]
      exact ⟨_, _, rfl⟩

end Up

/-! ## The clock -/

section Clock

variable (w : World)

theorem sendAll_clock (children : List Node) (pkt : Packet) (w : World) :
    (w.sendAll children pkt).clock = w.clock := by
  induction children generalizing w with
  | nil => rfl
  | cons child children ih => exact ih _

theorem clock_handleParentMessage (p : ℕ) (pkt : Packet) (o : Outcome) :
    (handleParentMessage w p pkt o).clock = w.clock := by
  have hsend : ∀ w : World, (broadcastToChildren w p pkt).clock = w.clock := fun w =>
    sendAll_clock _ _ _
  unfold handleParentMessage
  split
  · unfold handleCreate
    split
    · cases o <;> rfl
    · exact hsend w
  · unfold handlePing
    split
    · rfl
    · exact hsend w
  · exact hsend _
  · unfold handleExecAdd
    split
    · rfl
    · exact hsend w
  · unfold handleExecFind
    split
    · split <;> rfl
    · exact hsend w
  · rfl

theorem clock_handleCommand (cmd : Command) (o : Outcome) :
    (handleCommand w o cmd).clock = w.clock := by
  have hsend : ∀ m, (broadcastMessage w m).clock = w.clock := fun m => sendAll_clock _ _ _
  cases cmd with
  | create childId parentId =>
    show (handleCreateCommand w childId parentId o).clock = _
    unfold handleCreateCommand
    split
    · rfl
    split
    · rfl
    split
    · cases o <;> rfl
    · exact hsend _
  | exec id key val =>
    show (handleExecCommand w id key val).clock = _
    unfold handleExecCommand
    split
    · rfl
    · cases val <;> exact hsend _
  | ping id =>
    show (handlePingCommand w id).clock = _
    unfold handlePingCommand
    split
    · rfl
    · exact hsend _
  | heartbeat time => exact sendAll_clock _ _ _
  | unknown => rfl

/-- **Only a tick moves the clock.** -/
theorem clock_next {e : Event} (hne : ∀ now, e ≠ .tick now) : (w.next e).clock = w.clock := by
  cases e with
  | tick now => exact absurd rfl (hne now)
  | command cmd o => exact clock_handleCommand w cmd o
  | receiveUp p =>
    show (receiveUp w p).clock = _
    unfold receiveUp
    split <;> rfl
  | checkPending => rfl
  | checkBeats => rfl
  | receiveDown p o =>
    show (receiveDown w p o).clock = _
    unfold receiveDown
    split
    · rfl
    · exact clock_handleParentMessage _ p _ o
  | relayUp p c =>
    show (relayUp w p c).clock = _
    unfold relayUp
    split <;> rfl
  | sendBeat p =>
    show (sendBeat w p).clock = _
    unfold sendBeat
    dsimp only
    split_ifs <;> rfl

end Clock

end NodeTree
