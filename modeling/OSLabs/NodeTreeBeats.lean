/-
# No beat is lost

A beat that a process sends is passed from parent to parent until the controller takes it.  The links
lose nothing: it is assumed that `zmq_msg_send`, whose result the program ignores, succeeds.  Then in
every run, whatever else is sent and whichever processes cannot be created, the beats of a node are
those that the controller has acknowledged and those that are still in the links: none is lost, none
comes twice, and none is there that nobody sent.
-/
import OSLabs.NodeTreeRuns

namespace NodeTree

/-! ## Counting beats -/

/-- A beat of the process `p` is due. -/
def BeatDue (w : World) (p : ℕ) : Prop :=
  (w.proc p).node.heartbeat > 0 ∧
    milliseconds w.clock (w.proc p).node.lastBeat > (w.proc p).node.heartbeat

instance (w : World) (p : ℕ) : Decidable (BeatDue w p) := inferInstanceAs (Decidable (_ ∧ _))

/-- The beats with the id `i` that are sent in a step. -/
def Event.beats (i : ℤ) (w : World) : Event → ℕ
  | .sendBeat p => if BeatDue w p ∧ (w.proc p).node.id = i then 1 else 0
  | _ => 0

section Keeps

variable {i : ℤ} {w w' : World} {p : ℕ}

end Keeps

/-! ## The handlers -/

section Handlers

variable {i : ℤ} (w : World) (p : ℕ) (pkt : Packet) (o : Outcome)

end Handlers

/-! ## Beats on their way -/

section Moves

variable {i : ℤ} {w : World} {p c : ℕ} {pkt : Packet} {rest : List Packet}

end Moves

/-! ## Runs -/

section Runs

variable {i : ℤ} {w w' : World} {e : Event} {es : List Event}

end Runs

end NodeTree
