/-
# A process that fails to start

`create_process` throws when `fork` fails or the port cannot be bound.  Nothing catches the exception
before `main`, so whoever executes the create stops for ever; and after the fork the new process, if
its address is a port at all, goes on without a parent that holds a `Node` for it.
-/
import OSLabs.NodeTreeAnswers

namespace NodeTree

/-! ## Creates that are executed -/

/-- A create that passed the checks is executed in the step, by the controller or by the process
`p`; `create_process` ends with `o`. -/
inductive ExecutesCreate (w : World) (o : Outcome) : Event → Option ℕ → Prop
  | controller (childId : ℤ) (hid : childId ∉ w.ctrl.nodeIds) :
      ExecutesCreate w o (.command (.create childId (-1)) o) none
  | node (p : ℕ) (r : Request) (rest : List Packet)
      (hdown : (w.proc p).down = ⟨r.msg, some r⟩ :: rest) (hid : r.msg.id = (w.proc p).node.id)
      (hcmd : r.msg.command = .create) : ExecutesCreate w o (.receiveDown p o) (some p)

/-- The controller (`none`) or the process runs. -/
def Serving (w : World) : Option ℕ → Prop
  | none => w.ctrlRunning = true
  | some p => (w.proc p).running = true

/-- A process that runs, though no parent holds a `Node` for it. -/
structure Orphan (w : World) (q : ℕ) : Prop where
  forked : q < w.count
  running : (w.proc q).running = true
  path : (w.proc q).path = []

/-- A port that the new process can connect to, even if its parent cannot bind it. -/
def IsPort (port : ℤ) : Prop := 0 < port ∧ port < 65536

/-- The registry, the pending requests, the children and the dictionaries are as before. -/
structure Kept (w w' : World) : Prop where
  ctrl : w'.ctrl = w.ctrl
  node : ∀ q < w.count, (w'.proc q).node = (w.proc q).node

/-- **The create does no damage.** -/
structure NoDamage (w w' : World) (executor : Option ℕ) : Prop where
  controller : Serving w' none
  executor : Serving w' executor
  kept : Kept w w'
  noOrphan : ∀ q, w.count ≤ q → ¬ Orphan w' q

/-! ## What a failure leaves -/

section Failures

variable {w w' : World} {e : Event} {o : Outcome} {executor : Option ℕ} {q : ℕ}

/-- The executor is somebody. -/
theorem ExecutesCreate.lt (he : e.Enabled w) (hx : ExecutesCreate w o e executor) :
    ∀ p ∈ executor, p < w.count := by
  intro p hp
  cases hx with
  | controller childId hid => cases hp
  | node p' r rest hdown hid hcmd =>
    obtain rfl : p' = p := Option.some_inj.mp hp
    exact he.1

/-- A failure in the controller ends its loop. -/
theorem Inv.next_create_failed (h : Inv w) {childId : ℤ} (hid : childId ∉ w.ctrl.nodeIds)
    (ho : o ≠ .created) : w.next (.command (.create childId (-1)) o) =
      { (createProcess w childId [] o).1 with ctrlRunning := false } := by
  show handleCreateCommand w childId (-1) o = _
  rw [handleCreateCommand, if_neg hid, if_neg (not_not.mpr h.packets.root), if_pos rfl]
  cases o with
  | created => exact absurd rfl ho
  | forkFailed => rfl
  | bindFailed => rfl

/-- **The executor stops**, and everything else is as before. -/
theorem Inv.stops (h : Inv w) (he : e.Enabled w) (hx : ExecutesCreate w o e executor)
    (ho : o ≠ .created) : ¬ Serving (w.next e) executor ∧ Kept w (w.next e) := by
  cases hx with
  | controller childId hid =>
    rw [h.next_create_failed hid ho]
    cases o with
    | created => exact absurd rfl ho
    | forkFailed => exact ⟨Bool.false_ne_true, rfl, fun q _ => rfl⟩
    | bindFailed =>
      refine ⟨Bool.false_ne_true, rfl, fun q hq => ?_⟩
      exact congrArg Process.node (fork_proc_of_lt w childId [] hq)
  | node p r rest hdown hid hcmd =>
    have hcrash : ∀ w₁ : World, ¬ Serving (w₁.crash p rest r) (some p) := by
      intro w₁ hrun
      rw [Serving, World.crash, update_proc_self] at hrun
      cases hrun
    have hnode : ∀ (w₁ : World) q, ((w₁.crash p rest r).proc q).node = (w₁.proc q).node :=
      fun w₁ q => update_keeps _ _ _ _ Process.node rfl
    show ¬ Serving (NodeTree.receiveDown w p o) (some p) ∧ Kept w (NodeTree.receiveDown w p o)
    rw [receiveDown_create he.1 hdown hid hcmd]
    cases o with
    | created => exact absurd rfl ho
    | forkFailed => exact ⟨hcrash w, rfl, fun q _ => hnode w q⟩
    | bindFailed =>
      refine ⟨hcrash _, rfl, fun q hq => ?_⟩
      exact (hnode _ q).trans (congrArg Process.node (fork_proc_of_lt w _ [] hq))

/-- **After the fork the new process is an orphan.** -/
theorem Inv.orphan_of_bindFailed (h : Inv w) (he : e.Enabled w)
    (hx : ExecutesCreate w .bindFailed e executor) : Orphan (w.next e) w.count := by
  cases hx with
  | controller childId hid =>
    rw [h.next_create_failed hid (by decide)]
    constructor
    · exact Nat.lt_succ_self _
    · show ((w.fork childId []).proc w.count).running = true
      rw [fork_proc, if_pos rfl]
    · show ((w.fork childId []).proc w.count).path = []
      rw [fork_proc, if_pos rfl]
  | node p r rest hdown hid hcmd =>
    show Orphan (NodeTree.receiveDown w p .bindFailed) w.count
    have hne : w.count ≠ p := Nat.ne_of_gt he.1
    rw [receiveDown_create he.1 hdown hid hcmd]
    constructor
    · exact Nat.lt_succ_self _
    · dsimp only
      rw [World.crash, update_proc_of_ne _ _ _ _ hne, fork_proc, if_pos rfl]
    · dsimp only
      rw [World.crash, update_proc_of_ne _ _ _ _ hne, fork_proc, if_pos rfl]

/-- Whoever stopped does not start again. -/
theorem Inv.stopped_next (h : Inv w) (he : e.Enabled w) (hlt : ∀ p ∈ executor, p < w.count)
    (hstopped : ¬ Serving w executor) : ¬ Serving (w.next e) executor := by
  intro hserving
  apply hstopped
  have hkeeps := h.keepsGoing he
  cases executor with
  | none =>
    rcases hkeeps.ctrl with hsame | ⟨hstop, -⟩
    · exact hsame.symm.trans hserving
    · exact absurd hserving (by rw [Serving, hstop]; exact Bool.false_ne_true)
  | some p =>
    rcases hkeeps.running p (hlt p rfl) with hsame | ⟨hstop, -, -⟩
    · exact hsame.symm.trans hserving
    · exact absurd hserving (by rw [Serving, hstop]; exact Bool.false_ne_true)

/-- An orphan stays one. -/
theorem Orphan.next (h : Inv w) (he : e.Enabled w) (hq : Orphan w q) : Orphan (w.next e) q := by
  have hkeeps := h.keepsGoing he
  constructor
  · exact lt_of_lt_of_le hq.forked (h.count_le_next he)
  · rcases hkeeps.running q hq.forked with hsame | ⟨-, hpath, -⟩
    · exact hsame.trans hq.running
    · exact absurd hq.path hpath
  · exact (hkeeps.path q hq.forked).trans hq.path

/-- **In every later state** those who stopped have stopped, and orphans are orphans. -/
theorem Inv.stays (h : Inv w) {es : List Event} (hlater : Run Step w es w')
    (hlt : ∀ p ∈ executor, p < w.count) (hstopped : ¬ Serving w executor) :
    ¬ Serving w' executor ∧ ∀ q, Orphan w q → Orphan w' q := by
  have hall := hlater.preserves
    (I := fun v => Inv v ∧ (∀ p ∈ executor, p < v.count) ∧ ¬ Serving v executor ∧
      ∀ q, Orphan w q → Orphan v q) ?_ ⟨h, hlt, hstopped, fun _ hq => hq⟩
  · exact hall.2.2
  · rintro v e v' ⟨hinv, hlt, hstopped, horphan⟩ ⟨he, rfl⟩
    refine ⟨hinv.next he, fun p hp => lt_of_lt_of_le (hlt p hp) (hinv.count_le_next he),
      hinv.stopped_next he hlt hstopped, fun q hq => (horphan q hq).next hinv he⟩

end Failures

/-- **A create that fails always does damage.**  Whoever executes it never serves again; nothing
else changes, but if the port is taken the new process stays without a parent for ever. -/
theorem failed_create_always_damages {es es' : List Event} {w w' : World} {e : Event} {o : Outcome}
    {executor : Option ℕ} (h : Run Step initial es w) (he : e.Enabled w)
    (hx : ExecutesCreate w o e executor) (ho : o ≠ .created) (hlater : Run Step (w.next e) es' w') :
    ¬ NoDamage w (w.next e) executor ∧ Kept w (w.next e) ∧ ¬ Serving w' executor ∧
      (o = .bindFailed → IsPort (5555 + ((w.next e).proc w.count).node.id) → Orphan w' w.count) := by
  have hinv := (run_invariant h).1
  obtain ⟨hstops, hkept⟩ := hinv.stops he hx ho
  have hlt : ∀ p ∈ executor, p < (w.next e).count :=
    fun p hp => lt_of_lt_of_le (hx.lt he p hp) (hinv.count_le_next he)
  obtain ⟨hnever, horphan⟩ := (hinv.next he).stays hlater hlt hstops
  refine ⟨fun hno => hstops hno.executor, hkept, hnever, ?_⟩
  rintro rfl _
  exact horphan _ (hinv.orphan_of_bindFailed he hx)

/-- The port of node 1 is taken. -/
theorem failed_create_always_damages_taken :
    ¬ Serving (initial.next (.command (.create 1 (-1)) .bindFailed)) none ∧
      Orphan (initial.next (.command (.create 1 (-1)) .bindFailed)) 0 := by
  have he : Event.Enabled initial (.command (.create 1 (-1)) .bindFailed) := rfl
  have hall := failed_create_always_damages (.nil initial) he (.controller 1 (by decide))
    (by decide) (.nil (initial.next (.command (.create 1 (-1)) .bindFailed)))
  have hport : IsPort (5555 + 1) := ⟨by decide, by decide⟩
  exact ⟨hall.2.2.1, hall.2.2.2 rfl hport⟩

/-- **A port out of range** takes the controller down. -/
theorem port_out_of_range_stops_the_controller :
    ¬ ∀ es w e o executor, Run Step initial es w → e.Enabled w → ExecutesCreate w o e executor →
      o ≠ .created → NoDamage w (w.next e) executor := by
  intro h
  have he : Event.Enabled initial (.command (.create 70000 (-1)) .bindFailed) := rfl
  have hx : ExecutesCreate initial .bindFailed (.command (.create 70000 (-1)) .bindFailed) none :=
    .controller 70000 (by decide)
  have hno := h [] initial _ _ _ (.nil initial) he hx (by decide)
  exact (Inv.initial.stops he hx (by decide)).1 hno.executor

end NodeTree
