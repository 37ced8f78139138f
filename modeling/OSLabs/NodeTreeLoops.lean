/-
# The loops of the controller and the nodes

The two `run` functions of `Labs/Lab5/src/control.cpp` and `nodes.cpp` with the places in their
loops.  A turn of a process is one `receive_message` with what is done about it, one check, or one
look at the input.  The turns of all processes interleave in any order, and each of them is a step
of `OSLabs.NodeTree` or changes nothing but the place in a loop.
-/
import OSLabs.NodeTreeAcceptance

namespace NodeTree

/-! ## Places in the loops -/

/-- Where `Controller::run` is: at a child in the loop over the children, before the check of the
pending messages, before the check of the beats, or before it looks at the input. -/
inductive ControllerPlace where
  | child (i : ℕ)
  | pending
  | beats
  | input
  deriving DecidableEq, Repr

/-- Where `ComputingNode::run` is: at a child in the loop over the children, before the beat, or
before the message of the parent. -/
inductive NodePlace where
  | child (i : ℕ)
  | beat
  | parent
  deriving DecidableEq, Repr

/-- The next place of the loop, with `len` children. -/
def ControllerPlace.succ (len : ℕ) : ControllerPlace → ControllerPlace
  | .child i => if i < len then .child (i + 1) else .pending
  | .pending => .beats
  | .beats => .input
  | .input => .child 0

/-- The next place of the loop, with `len` children. -/
def NodePlace.succ (len : ℕ) : NodePlace → NodePlace
  | .child i => if i < len then .child (i + 1) else .beat
  | .beat => .parent
  | .parent => .child 0

/-- The world with the places of all processes. -/
structure Running where
  world : World
  controllerPlace : ControllerPlace := .child 0
  nodePlace : ℕ → NodePlace := fun _ => .child 0

/-- Who takes a turn.  What the controller reads when it looks at the input is part of its turn:
`none` when there is no input, or when it has no effect. -/
inductive Turn where
  | tick (now : ℤ)
  | controller (input : Option Command) (outcome : Outcome)
  | node (p : ℕ) (outcome : Outcome)
  deriving DecidableEq, Repr

namespace Running

variable (s : Running)

/-- The next part of the loop of `Controller::run`. -/
def controllerTurn (input : Option Command) (outcome : Outcome) : Running :=
  match s.controllerPlace with
  | .child i =>
    match s.world.ctrl.children[i]? with
    | some child =>
      { s with world := receiveUp s.world child.pid, controllerPlace := .child (i + 1) }
    | none => { s with controllerPlace := .pending }
  | .pending =>
    { s with
      world := s.world.updateCtrl (·.checkPendingMessages s.world.clock)
      controllerPlace := .beats }
  | .beats =>
    { s with
      world := if s.world.ctrl.heartbeat > 0 then s.world.updateCtrl (·.checkBeats s.world.clock)
        else s.world
      controllerPlace := .input }
  | .input =>
    match input with
    | none => { s with controllerPlace := .child 0 }
    | some cmd =>
      { s with world := handleCommand s.world outcome cmd, controllerPlace := .child 0 }

/-- A process comes to another place in its loop. -/
def goto (p : ℕ) (place : NodePlace) : Running :=
  { s with nodePlace := Function.update s.nodePlace p place }

/-- The next part of the loop of `ComputingNode::run`. -/
def nodeTurn (p : ℕ) (outcome : Outcome) : Running :=
  match s.nodePlace p with
  | .child i =>
    match (s.world.proc p).node.children[i]? with
    | some child => { s with world := relayUp s.world p child.pid }.goto p (.child (i + 1))
    | none => s.goto p .beat
  | .beat => { s with world := sendBeat s.world p }.goto p .parent
  | .parent => { s with world := receiveDown s.world p outcome }.goto p (.child 0)

/-- What a turn does. -/
def next : Turn → Running
  | .tick now => { s with world := { s.world with clock := now } }
  | .controller input outcome => s.controllerTurn input outcome
  | .node p outcome => s.nodeTurn p outcome

/-- A process that takes a turn has been forked and runs. -/
def Ready : Turn → Prop
  | .tick _ => True
  | .controller _ _ => s.world.ctrlRunning = true
  | .node p _ => p < s.world.count ∧ (s.world.proc p).running = true

/-- A turn of one of the processes. -/
def Step (s : Running) (t : Turn) (s' : Running) : Prop := s.Ready t ∧ s' = s.next t

/-- The controller has just been started. -/
def start : Running := { world := initial }

/-! ## Turns are steps -/

/-- The step of the tree that a turn carries out. -/
def event : Turn → Option Event
  | .tick now => some (.tick now)
  | .controller input outcome =>
    match s.controllerPlace with
    | .child i => s.world.ctrl.children[i]?.map fun child => .receiveUp child.pid
    | .pending => some .checkPending
    | .beats => if s.world.ctrl.heartbeat > 0 then some .checkBeats else none
    | .input => input.map fun cmd => .command cmd outcome
  | .node p outcome =>
    match s.nodePlace p with
    | .child i => (s.world.proc p).node.children[i]?.map fun child => .relayUp p child.pid
    | .beat => some (.sendBeat p)
    | .parent => some (.receiveDown p outcome)

variable {s} {t : Turn}

/-- **A turn carries out its step**, or leaves the world as it is. -/
theorem world_next (s : Running) (t : Turn) :
    (s.next t).world = (s.event t).elim s.world s.world.next := by
  cases t with
  | tick now => rfl
  | controller input outcome =>
    cases hplace : s.controllerPlace with
    | child i =>
      cases hchild : s.world.ctrl.children[i]? <;>
        simp [next, event, controllerTurn, hplace, hchild, World.next]
    | pending => simp [next, event, controllerTurn, hplace, World.next]
    | beats =>
      by_cases hpos : s.world.ctrl.heartbeat > 0 <;>
        simp [next, event, controllerTurn, hplace, hpos, World.next]
    | input => cases input <;> simp [next, event, controllerTurn, hplace, World.next]
  | node p outcome =>
    cases hplace : s.nodePlace p with
    | child i =>
      cases hchild : (s.world.proc p).node.children[i]? <;>
        simp [next, event, nodeTurn, hplace, hchild, World.next, goto]
    | beat => simp [next, event, nodeTurn, hplace, World.next, goto]
    | parent => simp [next, event, nodeTurn, hplace, World.next, goto]

/-- **Which steps the turns carry out.** -/
inductive CarriesOut (s : Running) : Turn → Event → Prop
  | tick (now : ℤ) : CarriesOut s (.tick now) (.tick now)
  | receiveUp (input : Option Command) (o : Outcome) (child : Node)
      (hchild : child ∈ s.world.ctrl.children) :
      CarriesOut s (.controller input o) (.receiveUp child.pid)
  | checkPending (input : Option Command) (o : Outcome) :
      CarriesOut s (.controller input o) .checkPending
  | checkBeats (input : Option Command) (o : Outcome) (hpos : s.world.ctrl.heartbeat > 0) :
      CarriesOut s (.controller input o) .checkBeats
  | command (cmd : Command) (o : Outcome) :
      CarriesOut s (.controller (some cmd) o) (.command cmd o)
  | relayUp (p : ℕ) (o : Outcome) (child : Node)
      (hchild : child ∈ (s.world.proc p).node.children) :
      CarriesOut s (.node p o) (.relayUp p child.pid)
  | sendBeat (p : ℕ) (o : Outcome) : CarriesOut s (.node p o) (.sendBeat p)
  | receiveDown (p : ℕ) (o : Outcome) : CarriesOut s (.node p o) (.receiveDown p o)

theorem carriesOut {e : Event} (he : s.event t = some e) : CarriesOut s t e := by
  cases t with
  | tick now =>
    obtain rfl := Option.some_inj.mp he
    exact .tick now
  | controller input outcome =>
    unfold event at he
    cases hplace : s.controllerPlace with
    | child i =>
      simp only [hplace] at he
      obtain ⟨child, hchild, rfl⟩ := Option.map_eq_some_iff.mp he
      exact .receiveUp input outcome child (List.mem_of_getElem? hchild)
    | pending =>
      simp only [hplace] at he
      obtain rfl := Option.some_inj.mp he
      exact .checkPending input outcome
    | beats =>
      simp only [hplace] at he
      split_ifs at he with hpos
      obtain rfl := Option.some_inj.mp he
      exact .checkBeats input outcome hpos
    | input =>
      simp only [hplace] at he
      obtain ⟨cmd, rfl, rfl⟩ := Option.map_eq_some_iff.mp he
      exact .command cmd outcome
  | node p outcome =>
    unfold event at he
    cases hplace : s.nodePlace p with
    | child i =>
      simp only [hplace] at he
      obtain ⟨child, hchild, rfl⟩ := Option.map_eq_some_iff.mp he
      exact .relayUp p outcome child (List.mem_of_getElem? hchild)
    | beat =>
      simp only [hplace] at he
      obtain rfl := Option.some_inj.mp he
      exact .sendBeat p outcome
    | parent =>
      simp only [hplace] at he
      obtain rfl := Option.some_inj.mp he
      exact .receiveDown p outcome

/-- The step of a turn is possible. -/
theorem event_enabled (h : s.Ready t) {e : Event} (he : s.event t = some e) :
    e.Enabled s.world := by
  cases carriesOut he with
  | tick => trivial
  | receiveUp _ _ child hchild => exact ⟨h, List.mem_map_of_mem hchild⟩
  | checkPending => exact h
  | checkBeats _ _ hpos => exact ⟨h, hpos⟩
  | command => exact h
  | relayUp _ _ child hchild => exact ⟨h.1, h.2, List.mem_map_of_mem hchild⟩
  | sendBeat => exact h
  | receiveDown => exact h

/-- What every step of the tree keeps, every turn keeps. -/
theorem Step.keeps {I : World → Prop} {s' : Running} (h : Step s t s') (hs : I s.world)
    (hstep : ∀ e, s.event t = some e → e.Enabled s.world → I (s.world.next e)) : I s'.world := by
  obtain ⟨hready, rfl⟩ := h
  rw [world_next]
  cases he : s.event t with
  | none => exact hs
  | some e => exact hstep e he (event_enabled hready he)

/-- **The loops refine the steps.**  Every interleaving of turns is a run of the tree. -/
theorem exists_run {s' : Running} {ts : List Turn} (h : Run Step s ts s') :
    ∃ es, Run NodeTree.Step s.world es s'.world := by
  induction h with
  | nil s => exact ⟨[], .nil _⟩
  | @cons s u s' t ts hstep _ ih =>
    obtain ⟨es, hrest⟩ := ih
    obtain ⟨hready, rfl⟩ := hstep
    rw [world_next] at hrest
    cases he : s.event t with
    | none =>
      rw [he] at hrest
      exact ⟨es, hrest⟩
    | some e =>
      rw [he] at hrest
      exact ⟨e :: es, .cons ⟨event_enabled hready he, rfl⟩ hrest⟩

end Running

/-- `create_process` succeeds, if it is called in the turn. -/
def Turn.Succeeds : Turn → Prop
  | .tick _ => True
  | .controller _ o => o = .created
  | .node _ o => o = .created

instance : (t : Turn) → Decidable t.Succeeds
  | .tick _ => inferInstanceAs (Decidable True)
  | .controller _ o => inferInstanceAs (Decidable (o = .created))
  | .node _ o => inferInstanceAs (Decidable (o = .created))

/-- The process `p` takes the turn. -/
def Turn.IsNode (p : ℕ) : Turn → Prop
  | .node q _ => q = p
  | _ => False

/-- The controller takes the turn. -/
def Turn.IsController : Turn → Prop
  | .controller _ _ => True
  | _ => False

namespace Running

variable {s s' : Running} {t : Turn} {p : ℕ}

theorem event_succeeds (h : t.Succeeds) {e : Event} (he : s.event t = some e) : e.Succeeds := by
  cases carriesOut he with
  | command => exact h
  | receiveDown => exact h
  | _ => trivial

/-- Nobody but the process itself takes a message from its parent. -/
theorem event_ne_receiveDown (h : ¬ t.IsNode p) {e : Event} (he : s.event t = some e)
    (o : Outcome) : e ≠ .receiveDown p o := by
  rintro rfl
  cases carriesOut he with
  | receiveDown => exact h rfl

/-- Nobody but the process itself takes a message from a child. -/
theorem event_ne_relayUp (h : ¬ t.IsNode p) {e : Event} (he : s.event t = some e) (c : ℕ) :
    e ≠ .relayUp p c := by
  intro heq
  cases carriesOut he with
  | relayUp q _ child => exact h (Event.relayUp.inj heq).1
  | _ => cases heq

/-- It does so at one place of its loop. -/
theorem event_ne_receiveDown_of_place (h : s.nodePlace p ≠ .parent) {e : Event} {o' : Outcome}
    (he : s.event (.node p o') = some e) (o : Outcome) : e ≠ .receiveDown p o := by
  rintro rfl
  unfold event at he
  cases hplace : s.nodePlace p with
  | child i => simp [hplace] at he
  | beat => simp [hplace] at he
  | parent => exact h hplace

/-- Nobody but the controller carries out commands. -/
theorem event_ne_command (h : ¬ t.IsController) {e : Event} (he : s.event t = some e)
    (cmd : Command) (o : Outcome) : e ≠ .command cmd o := by
  rintro rfl
  cases carriesOut he with
  | command => exact h trivial

/-- It does so at one place of its loop. -/
theorem event_ne_command_of_place (h : s.controllerPlace ≠ .input) {e : Event}
    {input : Option Command} {o' : Outcome} (he : s.event (.controller input o') = some e)
    (cmd : Command) (o : Outcome) : e ≠ .command cmd o := by
  rintro rfl
  unfold event at he
  cases hplace : s.controllerPlace with
  | child i => simp [hplace] at he
  | pending => simp [hplace] at he
  | beats => simp [hplace] at he
  | input => exact h hplace

/-- A process changes its place in its own turns only. -/
theorem nodePlace_next (h : ¬ t.IsNode p) (s : Running) : (s.next t).nodePlace p = s.nodePlace p := by
  cases t with
  | tick now => rfl
  | controller input outcome =>
    show (s.controllerTurn input outcome).nodePlace p = _
    unfold controllerTurn
    split
    · split <;> rfl
    · rfl
    · rfl
    · split <;> rfl
  | node q outcome =>
    have hqp : p ≠ q := fun heq => h heq.symm
    show (s.nodeTurn q outcome).nodePlace p = _
    unfold nodeTurn
    split
    · split <;> exact Function.update_of_ne hqp _ _
    · exact Function.update_of_ne hqp _ _
    · exact Function.update_of_ne hqp _ _

/-- Its own turn takes it to the next place. -/
theorem nodePlace_self (s : Running) (p : ℕ) (o : Outcome) : (s.next (.node p o)).nodePlace p =
    (s.nodePlace p).succ (s.world.proc p).node.children.length := by
  show (s.nodeTurn p o).nodePlace p = _
  unfold nodeTurn
  split
  · next i hplace =>
    rw [hplace, NodePlace.succ]
    split
    · next child hchild =>
      rw [if_pos (List.getElem?_eq_some_iff.mp hchild).1]
      exact Function.update_self _ _ _
    · next hnone =>
      rw [if_neg (Nat.not_lt.mpr (List.getElem?_eq_none_iff.mp hnone))]
      exact Function.update_self _ _ _
  · next hplace =>
    rw [hplace]
    exact Function.update_self _ _ _
  · next hplace =>
    rw [hplace]
    exact Function.update_self _ _ _

theorem controllerPlace_self (s : Running) (input : Option Command) (o : Outcome) :
    (s.next (.controller input o)).controllerPlace =
      s.controllerPlace.succ s.world.ctrl.children.length := by
  show (s.controllerTurn input o).controllerPlace = _
  unfold controllerTurn
  split
  · next i hplace =>
    rw [hplace, ControllerPlace.succ]
    split
    · next child hchild => rw [if_pos (List.getElem?_eq_some_iff.mp hchild).1]
    · next hnone => rw [if_neg (Nat.not_lt.mpr (List.getElem?_eq_none_iff.mp hnone))]
  · next hplace => rw [hplace]; rfl
  · next hplace => rw [hplace]; rfl
  · next hplace => rw [hplace]; split <;> rfl

theorem controllerPlace_next (h : ¬ t.IsController) (s : Running) :
    (s.next t).controllerPlace = s.controllerPlace := by
  cases t with
  | tick now => rfl
  | controller input outcome => exact absurd trivial h
  | node q outcome =>
    show (s.nodeTurn q outcome).controllerPlace = _
    unfold nodeTurn
    split
    · split <;> rfl
    · rfl
    · rfl

end Running

end NodeTree
