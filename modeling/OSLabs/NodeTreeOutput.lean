/-
# What is printed decides nothing

Two worlds that differ in the lines printed so far take the same steps, and print the same lines
from then on.  `SameEffects` is equality up to the lines of unknown commands.
-/
import OSLabs.NodeTreeWatch

namespace NodeTree

/-- The world with other lines printed so far. -/
def World.setOutput (w : World) (lines : List Output) : World :=
  w.updateCtrl fun c => { c with output := lines }

/-- Equal, up to the lines about unknown commands. -/
structure SameEffects (w w' : World) : Prop where
  world : w.setOutput [] = w'.setOutput []
  output : w.ctrl.output.filter (· ≠ .unknownCommand) = w'.ctrl.output.filter (· ≠ .unknownCommand)

section Output

variable (w : World) (lines : List Output)

/-- The step prints the same lines behind any others. -/
def Prints (f : World → World) : Prop :=
  ∃ printed, ∀ lines, f (w.setOutput lines) = (f w).setOutput (lines ++ printed)

/-- Nothing is printed. -/
theorem prints_nothing {f : World → World}
    (h : ∀ lines, f (w.setOutput lines) = (f w).setOutput lines) : Prints w f := by
  refine ⟨[], fun lines => ?_⟩
  rw [List.append_nil]
  exact h lines

/-- One line is printed. -/
theorem prints_line (line : Output) : Prints w fun w => w.updateCtrl (·.print line) :=
  ⟨[line], fun _ => rfl⟩

/-! ## The links -/

theorem sendAll_setOutput (children : List Node) (pkt : Packet) :
    (w.setOutput lines).sendAll children pkt = (w.sendAll children pkt).setOutput lines := by
  induction children generalizing w with
  | nil => rfl
  | cons c children ih => exact ih (w.sendDown c.pid pkt)

theorem broadcastMessage_setOutput (m : Message) :
    broadcastMessage (w.setOutput lines) m = (broadcastMessage w m).setOutput lines := by
  let r : Request := ⟨w.issued.length, m⟩
  exact sendAll_setOutput { w with
    ctrl := { w.ctrl with pendingMessages := w.ctrl.pendingMessages ++ [r] }
    issued := w.issued ++ [r] } lines w.ctrl.children ⟨m, some r⟩

/-- A message from the parent. -/
theorem handleParentMessage_setOutput (p : ℕ) (pkt : Packet) (o : Outcome) :
    handleParentMessage (w.setOutput lines) p pkt o =
      (handleParentMessage w p pkt o).setOutput lines := by
  have hsend : ∀ w : World, broadcastToChildren (w.setOutput lines) p pkt =
      (broadcastToChildren w p pkt).setOutput lines := fun w => sendAll_setOutput w lines _ _
  have hproc : ((w.setOutput lines).proc p).node = (w.proc p).node := rfl
  unfold handleParentMessage
  cases pkt.msg.command with
  | create =>
    simp only [handleCreate, hproc]
    split_ifs
    · cases o <;> rfl
    · exact hsend w
  | ping =>
    simp only [handlePing, hproc]
    split_ifs
    · rfl
    · exact hsend w
  | heartBeat =>
    exact hsend (w.update p fun q => { q with node := { q.node with heartbeat := pkt.msg.addData } })
  | execAdd =>
    simp only [handleExecAdd, hproc]
    split_ifs
    · rfl
    · exact hsend w
  | execFnd =>
    simp only [handleExecFind, hproc]
    split_ifs
    · cases (w.proc p).node.dictionary pkt.msg.val <;> rfl
    · exact hsend w
  | none => rfl
  | execErr => rfl

/-! ## The controller -/

theorem prints_create (childId parentId : ℤ) (o : Outcome) :
    Prints w (handleCreateCommand · childId parentId o) := by
  have hids : ∀ lines, (w.setOutput lines).ctrl.nodeIds = w.ctrl.nodeIds := fun _ => rfl
  by_cases hchild : childId ∈ w.ctrl.nodeIds
  · obtain ⟨printed, h⟩ := prints_line w (.alreadyExists childId)
    refine ⟨printed, fun lines => ?_⟩
    simp only [handleCreateCommand, hids, if_pos hchild]
    exact h lines
  by_cases hparent : parentId ∈ w.ctrl.nodeIds
  · by_cases hroot : parentId = -1
    · subst hroot
      cases o with
      | created =>
        refine ⟨[.okPid w.count], fun lines => ?_⟩
        simp only [handleCreateCommand, hids, if_neg hchild, if_neg (not_not.mpr hparent), if_pos]
        rfl
      | forkFailed =>
        apply prints_nothing
        intro lines
        simp only [handleCreateCommand, hids, if_neg hchild, if_neg (not_not.mpr hparent), if_pos]
        rfl
      | bindFailed =>
        apply prints_nothing
        intro lines
        simp only [handleCreateCommand, hids, if_neg hchild, if_neg (not_not.mpr hparent), if_pos]
        rfl
    · apply prints_nothing
      intro lines
      simp only [handleCreateCommand, hids, if_neg hchild, if_neg (not_not.mpr hparent),
        if_neg hroot]
      exact broadcastMessage_setOutput w lines _
  · obtain ⟨printed, h⟩ := prints_line w (.parentNotFound parentId)
    refine ⟨printed, fun lines => ?_⟩
    simp only [handleCreateCommand, hids, if_neg hchild, if_pos hparent]
    exact h lines

/-- A command for a node, which has to be registered. -/
theorem prints_guarded (id : ℤ) {f : World → World}
    (h : ∀ lines, f (w.setOutput lines) = (f w).setOutput lines) :
    Prints w fun w =>
      if id ∉ w.ctrl.nodeIds then w.updateCtrl (·.print (.doesNotExist id)) else f w := by
  by_cases hid : id ∈ w.ctrl.nodeIds
  · apply prints_nothing
    intro lines
    have hid' : id ∈ (w.setOutput lines).ctrl.nodeIds := hid
    simp only [if_neg (not_not.mpr hid), if_neg (not_not.mpr hid')]
    exact h lines
  · refine ⟨[.doesNotExist id], fun lines => ?_⟩
    have hid' : id ∉ (w.setOutput lines).ctrl.nodeIds := hid
    simp only [if_pos hid, if_pos hid']
    rfl

theorem prints_command (cmd : Command) (o : Outcome) : Prints w (handleCommand · o cmd) := by
  cases cmd with
  | create childId parentId => exact prints_create w childId parentId o
  | exec id key val =>
    apply prints_guarded w id
    intro lines
    cases val with
    | none => exact broadcastMessage_setOutput w lines _
    | some val => exact broadcastMessage_setOutput w lines _
  | ping id =>
    apply prints_guarded w id
    intro lines
    exact broadcastMessage_setOutput w lines _
  | heartbeat time =>
    apply prints_nothing
    intro lines
    exact sendAll_setOutput (w.updateCtrl fun c =>
      { c with heartbeat := time, beatTracker := c.beatTracker.map fun e => (e.1, w.clock) })
      lines w.ctrl.children ⟨.of w.clock .heartBeat (-1) time, none⟩
  | unknown => exact prints_line w .unknownCommand

/-- What the controller prints about a message of a child, or a request that expired. -/
theorem exists_handleChildMessage (c : Controller) (now : ℤ) (m : Message) : ∃ printed, ∀ lines,
    { c with output := lines }.handleChildMessage now m =
      { c.handleChildMessage now m with output := lines ++ printed } := by
  unfold Controller.handleChildMessage
  cases m.command with
  | create => exact ⟨[.okPid m.addData], fun _ => rfl⟩
  | ping => exact ⟨[.okAvailable m.id], fun _ => rfl⟩
  | execErr => exact ⟨[.okNotFound m.id m.val], fun _ => rfl⟩
  | execAdd => exact ⟨[.ok m.id], fun _ => rfl⟩
  | execFnd => exact ⟨[.okFound m.id m.val m.addData], fun _ => rfl⟩
  | heartBeat => exact ⟨[.okBeat m.id], fun _ => rfl⟩
  | none => exact ⟨[], fun lines => by rw [List.append_nil]⟩

theorem exists_handleTimeouts (c : Controller) (expired : List Request) : ∃ printed, ∀ lines,
    expired.foldl (fun c r => c.handleTimeout r.msg) { c with output := lines } =
      { expired.foldl (fun c r => c.handleTimeout r.msg) c with output := lines ++ printed } := by
  have hone : ∀ (c : Controller) (m : Message), ∃ printed, ∀ lines,
      { c with output := lines }.handleTimeout m =
        { c.handleTimeout m with output := lines ++ printed } := by
    intro c m
    unfold Controller.handleTimeout
    split
    · exact ⟨[.pingUnavailable m.id], fun _ => rfl⟩
    · exact ⟨[.parentUnavailable m.id], fun _ => rfl⟩
    · exact ⟨[.nodeUnavailable m.id], fun _ => rfl⟩
    · exact ⟨[.nodeUnavailable m.id], fun _ => rfl⟩
    · exact ⟨[], fun lines => by rw [List.append_nil]⟩
  induction expired generalizing c with
  | nil => exact ⟨[], fun lines => by rw [List.append_nil]; rfl⟩
  | cons r expired ih =>
    obtain ⟨printed, hfirst⟩ := hone c r.msg
    obtain ⟨printed', hrest⟩ := ih (c.handleTimeout r.msg)
    refine ⟨printed ++ printed', fun lines => ?_⟩
    rw [List.foldl_cons, List.foldl_cons, hfirst, hrest, List.append_assoc]

/-! ## Every step -/

/-- **Every step** prints the same lines behind any others. -/
theorem prints_next (e : Event) : Prints w (World.next · e) := by
  cases e with
  | tick now => exact prints_nothing w fun _ => rfl
  | command cmd o => exact prints_command w cmd o
  | receiveUp p =>
    -- the lines come from the message, which is the first of the link in both worlds
    show Prints w (receiveUp · p)
    cases hup : (w.proc p).up with
    | nil =>
      apply prints_nothing
      intro lines
      have hup' : ((w.setOutput lines).proc p).up = [] := hup
      simp only [receiveUp, hup, hup']
    | cons pkt rest =>
      obtain ⟨printed, h⟩ := exists_handleChildMessage w.ctrl w.clock pkt.msg
      refine ⟨printed, fun lines => ?_⟩
      have hup' : ((w.setOutput lines).proc p).up = pkt :: rest := hup
      simp only [receiveUp, hup, hup']
      exact congrArg (fun c => { w.update p (fun q => { q with up := rest }) with
        ctrl := c
        answered := w.answered ++ (pkt.req.map fun r => (r, pkt.msg)).toList }) (h lines)
  | checkPending =>
    obtain ⟨printed, h⟩ := exists_handleTimeouts w.ctrl
      (w.ctrl.pendingMessages.filter fun r => Controller.isExpired w.clock r.msg)
    refine ⟨printed, fun lines => ?_⟩
    exact congrArg (fun c => { w with ctrl := { c with
      pendingMessages := w.ctrl.pendingMessages.filter fun r =>
        ¬ Controller.isExpired w.clock r.msg } }) (h lines)
  | checkBeats =>
    exact ⟨(w.ctrl.beatTracker.filter fun e =>
      decide (milliseconds w.clock e.2 > 4 * w.ctrl.heartbeat)).map fun e => .noBeat e.1,
      fun _ => rfl⟩
  | receiveDown p o =>
    apply prints_nothing
    intro lines
    show receiveDown (w.setOutput lines) p o = (receiveDown w p o).setOutput lines
    have hproc : (w.setOutput lines).proc p = w.proc p := rfl
    simp only [receiveDown, hproc]
    cases (w.proc p).down with
    | nil => rfl
    | cons pkt rest =>
      exact handleParentMessage_setOutput (w.update p fun q => { q with down := rest }) lines p pkt o
  | relayUp p c =>
    apply prints_nothing
    intro lines
    show relayUp (w.setOutput lines) p c = (relayUp w p c).setOutput lines
    have hproc : (w.setOutput lines).proc c = w.proc c := rfl
    simp only [relayUp, hproc]
    cases (w.proc c).up <;> rfl
  | sendBeat p =>
    apply prints_nothing
    intro lines
    show sendBeat (w.setOutput lines) p = (sendBeat w p).setOutput lines
    have hproc : (w.setOutput lines).proc p = w.proc p := rfl
    have hclock : (w.setOutput lines).clock = w.clock := rfl
    simp only [sendBeat, hproc, hclock]
    split_ifs <;> rfl

end Output

namespace SameEffects

variable {w w' w'' : World}

theorem refl (w : World) : SameEffects w w := ⟨rfl, rfl⟩

theorem trans (h : SameEffects w w') (h' : SameEffects w' w'') : SameEffects w w'' :=
  ⟨h.world.trans h'.world, h.output.trans h'.output⟩

theorem symm (h : SameEffects w w') : SameEffects w' w := ⟨h.world.symm, h.output.symm⟩

theorem ctrlRunning (h : SameEffects w w') : w.ctrlRunning = w'.ctrlRunning := by
  show (w.setOutput []).ctrlRunning = (w'.setOutput []).ctrlRunning
  rw [h.world]

/-- An unknown command has no effect. -/
theorem print (w : World) : SameEffects (w.updateCtrl (·.print .unknownCommand)) w := by
  constructor
  · rfl
  · show (w.ctrl.output ++ [Output.unknownCommand]).filter _ = _
    rw [List.filter_append]
    exact List.append_nil _

/-- **Steps have the same effects** in worlds with the same effects. -/
theorem next (h : SameEffects w w') (e : Event) : SameEffects (w.next e) (w'.next e) := by
  obtain ⟨printed, hprints⟩ := prints_next (w.setOutput []) e
  have heq : ∀ v : World, v.setOutput [] = w.setOutput [] →
      v.next e = ((w.setOutput []).next e).setOutput (v.ctrl.output ++ printed) := by
    intro v hv
    have hself : v = (w.setOutput []).setOutput v.ctrl.output := by
      rw [← hv]
      rfl
    exact (congrArg (World.next · e) hself).trans (hprints v.ctrl.output)
  constructor
  · rw [heq w rfl, heq w' h.world.symm]
    rfl
  · rw [heq w rfl, heq w' h.world.symm]
    show (w.ctrl.output ++ printed).filter _ = (w'.ctrl.output ++ printed).filter _
    rw [List.filter_append, List.filter_append, h.output]

/-- What is possible is possible in both. -/
theorem enabled (h : SameEffects w w') {e : Event} (he : e.Enabled w) : e.Enabled w' := by
  have hkeep : ∀ (v : World) (lines : List Output), e.Enabled (v.setOutput lines) ↔ e.Enabled v := by
    intro v lines
    cases e <;> exact Iff.rfl
  rw [← hkeep w' [], ← h.world, hkeep]
  exact he

end SameEffects

end NodeTree
