/-
# Which nodes are watched

`check_beats` reports the nodes in `beat_tracker`.  A node gets there when a Create reply or a
beat with its id is handled; a direct create only puts its id into `node_ids_`.  The controller
is taken alone here: its children may send any messages.
-/
import OSLabs.NodeTreeRuns

namespace NodeTree

/-! ## The controller alone -/

/-- What the controller does in a step, whatever its children send. -/
inductive ControlEvent where
  | tick (now : ℤ)
  | command (cmd : Command) (outcome : Outcome)
  | message (m : Message)
  | checkPending
  | checkBeats
  deriving DecidableEq, Repr

/-- The world after a step of the controller. -/
def World.control (w : World) : ControlEvent → World
  | .tick now => { w with clock := now }
  | .command cmd outcome => handleCommand w outcome cmd
  | .message m => w.updateCtrl (·.handleChildMessage w.clock m)
  | .checkPending => w.updateCtrl (·.checkPendingMessages w.clock)
  | .checkBeats => w.updateCtrl (·.checkBeats w.clock)

/-- A step of the controller, which runs. -/
def ControlStep (w : World) (e : ControlEvent) (w' : World) : Prop :=
  w.ctrlRunning = true ∧ (e = .checkBeats → w.ctrl.heartbeat > 0) ∧ w' = w.control e

/-- The ids that `check_beats` looks at. -/
def World.watched (w : World) : List ℤ := w.ctrl.beatTracker.map Prod.fst

/-- **Every known node is watched.** -/
def AllWatched (w : World) : Prop := ∀ i ∈ w.ctrl.nodeIds, i ≠ -1 → i ∈ w.watched

/-- The ids of the messages that put their id into `beat_tracker`. -/
def ControlEvent.reported : ControlEvent → List ℤ
  | .message m => if m.command = .create ∨ m.command = .heartBeat then [m.id] else []
  | _ => []

/-- The ids of the Create replies. -/
def ControlEvent.confirmed : ControlEvent → List ℤ
  | .message m => if m.command = .create then [m.id] else []
  | _ => []

/-- The id of a create that is accepted with the controller as the parent, and succeeds. -/
def ControlEvent.started (w : World) : ControlEvent → List ℤ
  | .command (.create childId parentId) .created =>
    if childId ∉ w.ctrl.nodeIds ∧ parentId ∈ w.ctrl.nodeIds ∧ parentId = -1 then [childId] else []
  | _ => []

/-- The ids that are created directly below the controller in a run. -/
def startedIn : World → List ControlEvent → List ℤ
  | _, [] => []
  | w, e :: es => e.started w ++ startedIn (w.control e) es

/-! ## What a step does to the two containers -/

section Containers

variable (w : World) (e : ControlEvent)

theorem mem_assign (key value : ℤ) (l : List (ℤ × ℤ)) (i : ℤ) :
    i ∈ (assign key value l).map Prod.fst ↔ i = key ∨ i ∈ l.map Prod.fst := by
  induction l with
  | nil => simp [assign]
  | cons x l ih =>
      obtain ⟨k, v⟩ := x
      unfold assign
      split_ifs with hlt heq
      · simp
      · subst heq
        simp
      · rw [List.map_cons, List.mem_cons, ih, List.map_cons, List.mem_cons]
        tauto

/-- A broadcast does not change the controller. -/
theorem sendAll_ctrl (children : List Node) (pkt : Packet) (w : World) :
    (w.sendAll children pkt).ctrl = w.ctrl :=
  sendAll_keeps (f := World.ctrl) w pkt (fun _ _ => rfl) children

theorem broadcastMessage_ctrl (m : Message) : ∃ r, (broadcastMessage w m).ctrl =
    { w.ctrl with pendingMessages := w.ctrl.pendingMessages ++ [r] } :=
  ⟨_, sendAll_ctrl _ _ _⟩

/-- What a broadcast leaves as it is. -/
theorem broadcastMessage_containers (m : Message) :
    (broadcastMessage w m).ctrl.nodeIds = w.ctrl.nodeIds ∧
      (broadcastMessage w m).watched = w.watched := by
  unfold World.watched
  obtain ⟨r, hr⟩ := broadcastMessage_ctrl w m
  rw [hr]
  exact ⟨rfl, rfl⟩

/-- What a create command does to the two containers. -/
theorem create_containers (childId parentId : ℤ) (o : Outcome) :
    (∀ i, i ∈ (handleCreateCommand w childId parentId o).ctrl.nodeIds ↔ i ∈ w.ctrl.nodeIds ∨
      i ∈ (ControlEvent.command (.create childId parentId) o).started w) ∧
    (handleCreateCommand w childId parentId o).watched = w.watched := by
  unfold handleCreateCommand
  by_cases hchild : childId ∈ w.ctrl.nodeIds
  · rw [if_pos hchild]
    refine ⟨fun i => ?_, rfl⟩
    cases o <;> simp [ControlEvent.started, hchild, World.updateCtrl, Controller.print]
  rw [if_neg hchild]
  by_cases hparent : parentId ∈ w.ctrl.nodeIds
  · rw [if_neg (not_not.mpr hparent)]
    by_cases hroot : parentId = -1
    · -- A child of the controller is registered at once, and without a beat.
      rw [if_pos hroot]
      cases o with
      | created =>
        refine ⟨fun i => ?_, rfl⟩
        show i ∈ insert childId w.ctrl.nodeIds ↔ _
        rw [Finset.mem_insert, or_comm]
        subst hroot
        simp [ControlEvent.started, hchild, hparent]
      | forkFailed => exact ⟨fun i => by simp [ControlEvent.started, createProcess], rfl⟩
      | bindFailed => exact ⟨fun i => by simp [ControlEvent.started, createProcess, World.fork], rfl⟩
    · rw [if_neg hroot]
      obtain ⟨h₁, h₂⟩ := broadcastMessage_containers w (.of w.clock .create parentId childId)
      refine ⟨fun i => ?_, h₂⟩
      rw [h₁]
      cases o <;> simp [ControlEvent.started, hroot]
  · rw [if_pos hparent]
    refine ⟨fun i => ?_, rfl⟩
    cases o <;> simp [ControlEvent.started, hparent, World.updateCtrl, Controller.print]

/-- What a command does to the two containers. -/
theorem command_containers (cmd : Command) (o : Outcome) :
    (∀ i, i ∈ (handleCommand w o cmd).ctrl.nodeIds ↔
      i ∈ w.ctrl.nodeIds ∨ i ∈ (ControlEvent.command cmd o).started w) ∧
    (handleCommand w o cmd).watched = w.watched := by
  have hsame : ∀ w' : World, w'.ctrl.nodeIds = w.ctrl.nodeIds ∧ w'.watched = w.watched →
      (ControlEvent.command cmd o).started w = [] → (∀ i, i ∈ w'.ctrl.nodeIds ↔
        i ∈ w.ctrl.nodeIds ∨ i ∈ (ControlEvent.command cmd o).started w) ∧
        w'.watched = w.watched := by
    intro w' h hnil
    exact ⟨fun i => by rw [h.1, hnil]; simp, h.2⟩
  cases cmd with
  | create childId parentId => exact create_containers w childId parentId o
  | exec id key val =>
    refine hsame _ ?_ rfl
    show (handleExecCommand w id key val).ctrl.nodeIds = _ ∧
      (handleExecCommand w id key val).watched = _
    unfold handleExecCommand
    by_cases hid : id ∈ w.ctrl.nodeIds
    · rw [if_neg (not_not.mpr hid)]
      cases val <;> exact broadcastMessage_containers w _
    · rw [if_pos hid]
      exact ⟨rfl, rfl⟩
  | ping id =>
    refine hsame _ ?_ rfl
    show (handlePingCommand w id).ctrl.nodeIds = _ ∧ (handlePingCommand w id).watched = _
    unfold handlePingCommand
    by_cases hid : id ∈ w.ctrl.nodeIds
    · rw [if_neg (not_not.mpr hid)]
      exact broadcastMessage_containers w _
    · rw [if_pos hid]
      exact ⟨rfl, rfl⟩
  | heartbeat time =>
    refine hsame _ ?_ rfl
    show (handleHeartbeatCommand w time).ctrl.nodeIds = _ ∧
      (handleHeartbeatCommand w time).ctrl.beatTracker.map Prod.fst = _
    unfold handleHeartbeatCommand
    rw [sendAll_ctrl]
    exact ⟨rfl, by simp [World.watched, World.updateCtrl]⟩
  | unknown => exact hsame _ ⟨rfl, rfl⟩ rfl

/-- **What a step does to the registry.** -/
theorem control_nodeIds (i : ℤ) : i ∈ (w.control e).ctrl.nodeIds ↔
    i ∈ w.ctrl.nodeIds ∨ i ∈ e.started w ∨ i ∈ e.confirmed := by
  cases e with
  | command cmd o =>
    show i ∈ (handleCommand w o cmd).ctrl.nodeIds ↔ _
    rw [(command_containers w cmd o).1 i]
    simp [ControlEvent.confirmed]
  | message m =>
    show i ∈ (w.ctrl.handleChildMessage w.clock m).nodeIds ↔ _
    unfold Controller.handleChildMessage
    cases hcmd : m.command <;>
      simp [ControlEvent.started, ControlEvent.confirmed, hcmd, Controller.print,
        Controller.removePendingMessage, or_comm]
  | checkPending =>
    obtain ⟨output, pending, heq⟩ := Inv.checkPendingMessages_frame w.ctrl w.clock
    show i ∈ (w.ctrl.checkPendingMessages w.clock).nodeIds ↔ _
    rw [heq]
    simp [ControlEvent.started, ControlEvent.confirmed]
  | _ => simp [ControlEvent.started, ControlEvent.confirmed, World.control, World.updateCtrl,
      Controller.checkBeats]

/-- **What a step does to the watched ids.** -/
theorem control_watched (i : ℤ) :
    i ∈ (w.control e).watched ↔ i ∈ w.watched ∨ i ∈ e.reported := by
  cases e with
  | command cmd o =>
    rw [show (w.control (.command cmd o)).watched = w.watched from (command_containers w cmd o).2]
    simp [ControlEvent.reported]
  | message m =>
    show i ∈ ((w.ctrl.handleChildMessage w.clock m).beatTracker).map Prod.fst ↔ _
    unfold Controller.handleChildMessage World.watched
    cases hcmd : m.command <;>
      simp only [ControlEvent.reported, hcmd, Controller.print, Controller.removePendingMessage,
        mem_assign] <;> simp [or_comm]
  | checkPending =>
    obtain ⟨output, pending, heq⟩ := Inv.checkPendingMessages_frame w.ctrl w.clock
    show i ∈ ((w.ctrl.checkPendingMessages w.clock).beatTracker).map Prod.fst ↔ _
    rw [heq]
    simp [ControlEvent.reported, World.watched]
  | _ => simp [ControlEvent.reported, World.control, World.updateCtrl, World.watched,
      Controller.checkBeats]

end Containers

/-! ## Runs of the controller -/

section Runs

variable {w w' : World} {es : List ControlEvent}

theorem mem_nodeIds_iff (h : Run ControlStep w es w') (i : ℤ) :
    i ∈ w'.ctrl.nodeIds ↔
      i ∈ w.ctrl.nodeIds ∨ i ∈ startedIn w es ∨ i ∈ es.flatMap ControlEvent.confirmed := by
  induction h with
  | nil w => simp [startedIn]
  | @cons w w₁ w' e es hstep _ ih =>
    obtain ⟨-, -, rfl⟩ := hstep
    rw [ih, control_nodeIds, startedIn, List.flatMap_cons, List.mem_append, List.mem_append]
    tauto

theorem mem_watched_iff (h : Run ControlStep w es w') (i : ℤ) :
    i ∈ w'.watched ↔ i ∈ w.watched ∨ i ∈ es.flatMap ControlEvent.reported := by
  induction h with
  | nil w => simp
  | @cons w w₁ w' e es hstep _ ih =>
    obtain ⟨-, -, rfl⟩ := hstep
    rw [ih, control_watched, List.flatMap_cons, List.mem_append]
    tauto

/-- A Create reply is also a report. -/
theorem confirmed_subset_reported (e : ControlEvent) : e.confirmed ⊆ e.reported := by
  cases e with
  | message m =>
    by_cases hcmd : m.command = .create
    · simp [ControlEvent.confirmed, ControlEvent.reported, hcmd]
    · simp [ControlEvent.confirmed, hcmd]
  | _ => exact List.nil_subset _

/-- The root is known, so it is never created. -/
theorem started_ne_root (hroot : -1 ∈ w.ctrl.nodeIds) (e : ControlEvent) : -1 ∉ e.started w := by
  unfold ControlEvent.started
  split
  · next childId parentId =>
    split_ifs with h
    · intro hmem
      exact h.1 (List.mem_singleton.mp hmem ▸ hroot)
    · exact List.not_mem_nil
  · exact List.not_mem_nil

theorem startedIn_ne_root (h : Run ControlStep w es w') (hroot : -1 ∈ w.ctrl.nodeIds) :
    -1 ∉ startedIn w es := by
  induction h with
  | nil w => exact List.not_mem_nil
  | @cons w w₁ w' e es hstep _ ih =>
    obtain ⟨-, -, rfl⟩ := hstep
    have hroot' := (control_nodeIds w e (-1)).mpr (Or.inl hroot)
    rw [startedIn, List.mem_append, not_or]
    exact ⟨started_ne_root hroot e, ih hroot'⟩

end Runs

/-- **Every known node is watched** in a state of the controller exactly when each id that was
created directly below the controller has since been, or had before been, in a Create reply or
a beat. -/
theorem all_watched_iff_started_reported {es : List ControlEvent} {w : World}
    (h : Run ControlStep initial es w) :
    AllWatched w ↔ ∀ i ∈ startedIn initial es, i ∈ es.flatMap ControlEvent.reported := by
  have hnodeIds := mem_nodeIds_iff h
  have hwatched : ∀ i, i ∈ w.watched ↔ i ∈ es.flatMap ControlEvent.reported := by
    intro i
    rw [mem_watched_iff h]
    exact or_iff_right List.not_mem_nil
  constructor
  · intro hall i hi
    have hroot : i ≠ -1 := fun heq =>
      startedIn_ne_root h (Finset.mem_singleton_self _) (heq ▸ hi)
    exact (hwatched i).mp (hall i ((hnodeIds i).mpr (Or.inr (Or.inl hi))) hroot)
  · intro hall i hi hroot
    rw [hwatched]
    rcases (hnodeIds i).mp hi with hinit | hstarted | hconfirmed
    · exact absurd (Finset.mem_singleton.mp hinit) hroot
    · exact hall i hstarted
    · obtain ⟨e, he, hmem⟩ := List.mem_flatMap.mp hconfirmed
      exact List.mem_flatMap.mpr ⟨e, he, confirmed_subset_reported e hmem⟩

/-- Node 1 is created directly, and its first beat arrives. -/
def startAndBeat : List ControlEvent :=
  [.command (.create 1 (-1)) .created, .command (.heartbeat 5) .created,
    .message (.of 0 .heartBeat 1 (-1))]

/-- After the beat node 1 is watched. -/
theorem all_watched_iff_started_reported_beat :
    AllWatched (startAndBeat.foldl World.control initial) := by
  have hrun : Run ControlStep initial startAndBeat (startAndBeat.foldl World.control initial) :=
    .cons ⟨by decide, by decide, rfl⟩ (.cons ⟨by decide, by decide, rfl⟩
      (.cons ⟨by decide, by decide, rfl⟩ (.nil _)))
  exact (all_watched_iff_started_reported hrun).mpr (by decide)

/-- Before it, node 1 is known but not watched. -/
theorem started_node_is_not_watched :
    ¬ ∀ es w, Run ControlStep initial es w → AllWatched w := by
  intro h
  have hrun : Run ControlStep initial [.command (.create 1 (-1)) .created]
      (initial.control (.command (.create 1 (-1)) .created)) :=
    .single ⟨by decide, by decide, rfl⟩
  have hall := h _ _ hrun 1 (by decide) (by decide)
  exact absurd hall (by decide)

end NodeTree
