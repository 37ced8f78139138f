/-
# Every run keeps the invariant

The three ways in which a process starts, and the steps assembled from the moves.
-/
import OSLabs.NodeTreeInvariant

namespace NodeTree

/-! ## The three ways to start a process -/

section Start

variable (w : World) (p : ℕ) (id : ℤ)

theorem attach_proc (hp : p < w.count) (q : ℕ) : (w.attach p id).proc q =
    if q = p then { w.proc p with
      node := { (w.proc p).node with
        children := (w.proc p).node.children ++ [⟨id, w.count⟩] } }
    else if q = w.count then
      { node := { id := id, lastBeat := w.clock }, path := (w.proc p).path ++ [w.count] }
    else w.proc q := by
  unfold World.attach
  rw [update_proc, fork_proc_of_lt w id _ hp, fork_proc]

variable {w p id}

theorem forked_fork (path : List ℕ) : Forked w (w.fork id path) id := by
  have hnew := fork_proc w id path w.count
  rw [if_pos rfl] at hnew
  refine ⟨rfl, by rw [hnew], by rw [hnew]; exact ⟨rfl, rfl⟩, by rw [hnew]; exact ⟨rfl, rfl⟩,
    fun q hq => ⟨(w.proc q).node, ?_, rfl⟩, rfl, rfl, Finset.Subset.refl _, fun i hi => Or.inl hi⟩
  rw [fork_proc, if_neg hq]

theorem forked_attach (hp : p < w.count) : Forked w (w.attach p id) id := by
  have hproc := attach_proc w p id hp
  have hnew := hproc w.count
  rw [if_neg (Nat.ne_of_gt hp), if_pos rfl] at hnew
  refine ⟨rfl, by rw [hnew], by rw [hnew]; exact ⟨rfl, rfl⟩, by rw [hnew]; exact ⟨rfl, rfl⟩,
    fun q hq => ?_, rfl, rfl, Finset.Subset.refl _, fun i hi => Or.inl hi⟩
  by_cases hqp : q = p
  · subst hqp
    exact ⟨{ (w.proc q).node with children := (w.proc q).node.children ++ [⟨id, w.count⟩] },
      by rw [hproc, if_pos rfl], rfl⟩
  · exact ⟨(w.proc q).node, by rw [hproc, if_neg hqp, if_neg hq], rfl⟩

theorem forked_attachCtrl : Forked w (w.attachCtrl id) id := by
  have hf : Forked w (w.fork id [w.count]) id := forked_fork [w.count]
  refine ⟨hf.count, hf.newId, hf.newLinks, hf.newRecords, hf.old, rfl, rfl,
    Finset.subset_insert _ _, fun i hi => ?_⟩
  refine (Finset.mem_insert.mp hi).symm.imp_right fun heq => ⟨w.count, ?_, ?_⟩
  · show ((w.fork id [w.count]).proc w.count).path ≠ []
    rw [fork_proc, if_pos rfl]
    exact List.cons_ne_nil _ _
  · rw [heq]
    exact hf.newId

end Start

namespace Inv

variable {w : World} {p : ℕ} {id : ℤ}

/-- **A process that no parent knows** is started. -/
theorem fork (h : Inv w) (hid : id ≠ -1) : Inv (w.fork id []) := by
  apply h.forked (forked_fork []) hid
  have hproc := fork_proc w id []
  have hnew := hproc w.count
  rw [if_pos rfl] at hnew
  have ha : ([] : List ℕ).Nodup ∧
      ∀ c ∈ ([] : List ℕ), c = w.count ∧ ((w.fork id []).proc w.count).path = [w.count] :=
    ⟨List.nodup_nil, fun c hc => absurd hc List.not_mem_nil⟩
  refine h.tree.grow rfl (fun q hq => ?_) (List.append_nil _).symm ?_ (fun q hq => ?_) ha
    (fun q => ⟨List.nodup_nil, fun c hc => absurd hc List.not_mem_nil⟩) fun hne => ?_
  · rw [hproc, if_neg hq]
  · rw [hnew]
  · rw [hproc, if_neg hq, List.append_nil]
  · rw [hnew] at hne
    exact absurd rfl hne

/-- **A child of the controller** is started. -/
theorem attachCtrl (h : Inv w) (hid : id ≠ -1) : Inv (w.attachCtrl id) := by
  apply h.forked forked_attachCtrl hid
  have hproc : ∀ q, (w.attachCtrl id).proc q = _ := fork_proc w id [w.count]
  have hnew := hproc w.count
  rw [if_pos rfl] at hnew
  have ha : [w.count].Nodup ∧
      ∀ c ∈ [w.count], c = w.count ∧ ((w.attachCtrl id).proc w.count).path = [w.count] :=
    ⟨List.nodup_singleton _, fun c hc => ⟨List.mem_singleton.mp hc, by rw [hnew]⟩⟩
  refine h.tree.grow rfl (fun q hq => ?_) ?_ ?_ (fun q hq => ?_) ha
    (fun q => ⟨List.nodup_nil, fun c hc => absurd hc List.not_mem_nil⟩)
    fun _ => Or.inl (List.mem_singleton.mpr rfl)
  · rw [hproc, if_neg hq]
  · exact List.map_append
  · rw [hnew]
  · rw [hproc, if_neg hq, List.append_nil]

/-- **A child of a process** is started. -/
theorem attach (h : Inv w) (hp : (w.proc p).path ≠ []) (hid : id ≠ -1) : Inv (w.attach p id) := by
  have hlt := h.path_lt hp
  apply h.forked (forked_attach hlt) hid
  have hproc := attach_proc w p id hlt
  have hnew := hproc w.count
  rw [if_neg (Nat.ne_of_gt hlt), if_pos rfl] at hnew
  have ha : ([] : List ℕ).Nodup ∧
      ∀ c ∈ ([] : List ℕ), c = w.count ∧ ((w.attach p id).proc w.count).path = [w.count] :=
    ⟨List.nodup_nil, fun c hc => absurd hc List.not_mem_nil⟩
  have hb : ∀ q, (if q = p then [w.count] else []).Nodup ∧
      ∀ c ∈ (if q = p then [w.count] else []), c = w.count ∧ (w.proc q).path ≠ [] ∧
        ((w.attach p id).proc w.count).path = (w.proc q).path ++ [w.count] := by
    intro q
    split_ifs with hq
    · refine ⟨List.nodup_singleton _, fun c hc => ⟨List.mem_singleton.mp hc, ?_, ?_⟩⟩
      · rwa [hq]
      · rw [hnew, hq]
    · exact ⟨List.nodup_nil, fun c hc => absurd hc List.not_mem_nil⟩
  refine h.tree.grow rfl (fun q hq => ?_) (List.append_nil _).symm ?_ (fun q hq => ?_) ha hb
    fun _ => Or.inr ⟨p, hlt, by rw [if_pos rfl]; exact List.mem_singleton.mpr rfl⟩
  · rw [hproc]
    split_ifs with hqp
    · rw [hqp]
    · rfl
  · rw [hnew]
  · rw [hproc]
    split_ifs with hqp
    · rw [hqp]
      exact List.map_append
    · rw [List.append_nil]

end Inv

/-! ## Steps -/

/-- The request is the first message in the link of `p`. -/
structure IsFirst (w : World) (p : ℕ) (r : Request) (rest : List Packet) : Prop where
  down : (w.proc p).down = ⟨r.msg, some r⟩ :: rest
  issued : r ∈ w.issued
  request : IsRequest w r.msg

/-- **What a process does with the first message of its parent.** -/
inductive Received (w : World) (p : ℕ) (o : Outcome) : World → Prop
  | nothing : Received w p o w
  | beat (pkt : Packet) (rest : List Packet) (hdown : (w.proc p).down = pkt :: rest)
      (hnone : pkt.req = none) :
      Received w p o
        ((w.setNode p fun n => { n with heartbeat := pkt.msg.addData }).forward p rest pkt)
  | other (r : Request) (rest : List Packet) (hfirst : IsFirst w p r rest)
      (hid : r.msg.id ≠ (w.proc p).node.id) :
      Received w p o (w.forward p rest ⟨r.msg, some r⟩)
  | answered (r : Request) (rest : List Packet) (hfirst : IsFirst w p r rest)
      (hid : r.msg.id = (w.proc p).node.id) (hcmd : r.msg.command ≠ .create) :
      Received w p o ((w.setNode p fun n => n.act r.msg).serve p rest r
        ((w.proc p).node.answer w.clock r.msg))
  | created (r : Request) (rest : List Packet) (hfirst : IsFirst w p r rest)
      (hid : r.msg.id = (w.proc p).node.id) (hcmd : r.msg.command = .create) (ho : o = .created) :
      Received w p o ((w.attach p r.msg.addData).serve p rest r
        (.of w.clock .create r.msg.addData w.count))
  | notForked (r : Request) (rest : List Packet) (hfirst : IsFirst w p r rest)
      (hid : r.msg.id = (w.proc p).node.id) (hcmd : r.msg.command = .create)
      (ho : o = .forkFailed) : Received w p o (w.crash p rest r)
  | notBound (r : Request) (rest : List Packet) (hfirst : IsFirst w p r rest)
      (hid : r.msg.id = (w.proc p).node.id) (hcmd : r.msg.command = .create)
      (ho : o = .bindFailed) : Received w p o ((w.fork r.msg.addData []).crash p rest r)

/-- **What a command does.** -/
inductive Commanded (w : World) (o : Outcome) (cmd : Command) : World → Prop
  | printed (line : Output) : Commanded w o cmd (w.updateCtrl (·.print line))
  | requested (m : Message) (hm : IsRequest w m)
      (hcreate : m.command = .create → cmd = .create m.addData m.id ∧
        m.addData ∉ w.ctrl.nodeIds ∧ m.id ∈ w.ctrl.nodeIds) :
      Commanded w o cmd (broadcastMessage w m)
  | started (childId : ℤ) (hcmd : cmd = .create childId (-1)) (hid : childId ∉ w.ctrl.nodeIds)
      (ho : o = .created) :
      Commanded w o cmd ((w.attachCtrl childId).updateCtrl (·.print (.okPid w.count)))
  | notForked (childId : ℤ) (hcmd : cmd = .create childId (-1))
      (hid : childId ∉ w.ctrl.nodeIds) (ho : o = .forkFailed) :
      Commanded w o cmd { w with ctrlRunning := false }
  | notBound (childId : ℤ) (hcmd : cmd = .create childId (-1))
      (hid : childId ∉ w.ctrl.nodeIds) (ho : o = .bindFailed) :
      Commanded w o cmd { w.fork childId [] with ctrlRunning := false }
  | heartbeat (time : ℤ) (hcmd : cmd = .heartbeat time) :
      Commanded w o cmd (handleHeartbeatCommand w time)

namespace Inv

variable {w : World} {p : ℕ}

theorem setNode (h : Inv w) (f : ComputingNode → ComputingNode)
    (hf : ∀ n, (f n).id = n.id ∧ (f n).children = n.children) : Inv (w.setNode p f) := by
  refine h.quiet ⟨rfl, rfl, Finset.Subset.refl _, fun i hi => Or.inl hi, rfl, rfl, fun q => ?_⟩
  by_cases hq : q = p
  · subst hq
    exact ⟨f (w.proc q).node, update_proc_self _ _ _, hf _⟩
  · exact ⟨(w.proc q).node, update_proc_of_ne _ _ _ _ hq, rfl, rfl⟩

/-- A change of the controller that keeps its children and its registry. -/
theorem updateCtrl (h : Inv w) (f : Controller → Controller)
    (hchildren : (f w.ctrl).children = w.ctrl.children)
    (hnodeIds : (f w.ctrl).nodeIds = w.ctrl.nodeIds) : Inv (w.updateCtrl f) := by
  refine h.quiet ⟨rfl, hchildren, ?_, fun i hi => Or.inl ?_, rfl, rfl, fun q => ?_⟩
  · exact Finset.subset_of_eq hnodeIds.symm
  · exact hnodeIds ▸ hi
  · exact ⟨(w.proc q).node, rfl, rfl, rfl⟩

theorem act_keeps (n : ComputingNode) (m : Message) :
    (n.act m).id = n.id ∧ (n.act m).children = n.children := by
  unfold ComputingNode.act
  split <;> exact ⟨rfl, rfl⟩

/-- The answer of the node that a request names is a reply to it. -/
theorem isReply_answer {m : Message} (hm : IsRequest w m) (hcmd : m.command ≠ .create)
    (hid : m.id = (w.proc p).node.id) (now : ℤ) (w' : World) :
    IsReply w' m ((w.proc p).node.answer now m) := by
  unfold IsReply ComputingNode.answer
  rcases hm.kind with h | h | h | h
  · exact absurd h hcmd
  · rw [h]
  · rw [h]
  · rw [h]
    cases (w.proc p).node.dictionary m.val with
    | none => exact ⟨Or.inr rfl, hid.symm⟩
    | some x => exact ⟨Or.inl rfl, hid.symm⟩

/-- **A message of the parent** is handled in one of seven ways. -/
theorem received (h : Inv w) (hp : p < w.count) (o : Outcome) :
    Received w p o (NodeTree.receiveDown w p o) := by
  cases hdown : (w.proc p).down with
  | nil =>
    unfold NodeTree.receiveDown
    rw [hdown]
    exact .nothing
  | cons pkt rest =>
    have hpkt : pkt ∈ (w.proc p).down := by rw [hdown]; exact List.mem_cons_self
    rcases h.packets.down p pkt hpkt with ⟨r, hr, rfl⟩ | ⟨hnone, hbeat⟩
    · have hfirst : IsFirst w p r rest := ⟨hdown, hr, h.packets.request r hr⟩
      by_cases hid : r.msg.id = (w.proc p).node.id
      · by_cases hcmd : r.msg.command = .create
        · rw [receiveDown_create hp hdown hid hcmd]
          cases o with
          | created => exact .created r rest hfirst hid hcmd rfl
          | forkFailed => exact .notForked r rest hfirst hid hcmd rfl
          | bindFailed => exact .notBound r rest hfirst hid hcmd rfl
        · rw [receiveDown_self hdown hfirst.request hid hcmd]
          exact .answered r rest hfirst hid hcmd
      · rw [receiveDown_other hdown hfirst.request hid]
        exact .other r rest hfirst hid
    · rw [receiveDown_beat hdown hbeat]
      exact .beat pkt rest hdown hnone

/-- A heartbeat setting in a node changes nothing else. -/
theorem setHeartbeat (h : Inv w) (p : ℕ) (time : ℤ) :
    Inv (w.setNode p fun n => { n with heartbeat := time }) :=
  h.setNode (fun n => { n with heartbeat := time }) fun _ => ⟨rfl, rfl⟩

/-- **Handling a message of the parent.** -/
theorem receiveDown (h : Inv w) (hp : p < w.count) (hrun : (w.proc p).running = true)
    (o : Outcome) : Inv (receiveDown w p o) := by
  have hreceived := h.received hp o
  generalize NodeTree.receiveDown w p o = w' at hreceived ⊢
  cases hreceived with
  | nothing => exact h
  -- no request carries a heartbeat
  | beat pkt rest hdown hnone =>
    have hself : (w.setNode p fun n => { n with heartbeat := pkt.msg.addData }).proc p =
        { w.proc p with node := { (w.proc p).node with heartbeat := pkt.msg.addData } } :=
      update_proc_self _ _ _
    apply (h.setHeartbeat p pkt.msg.addData).forward (by rw [hself]; exact hdown)
    intro r hr
    rw [hnone] at hr
    exact absurd hr.symm (Option.some_ne_none r)
  | other r rest hfirst hid =>
    exact h.forward hfirst.down fun r' hr' => by rwa [← Option.some.inj hr']
  | answered r rest hfirst hid hcmd =>
    have hself : (w.setNode p fun n => n.act r.msg).proc p =
        { w.proc p with node := (w.proc p).node.act r.msg } := update_proc_self _ _ _
    refine (h.setNode _ fun n => act_keeps n _).serve ?_ ?_ ?_
      (isReply_answer hfirst.request hcmd hid _ _)
    · rw [hself]
      exact hfirst.down
    · rw [hself]
      exact hrun
    · rw [hself]
      exact hid.trans (act_keeps _ _).1.symm
  -- attach the new process first, then send the reply
  | created r rest hfirst hid hcmd =>
    have hproc := attach_proc w p r.msg.addData hp
    have hself := hproc p
    rw [if_pos rfl] at hself
    have hinv := h.attach (h.path_ne_nil hfirst.down) (hfirst.request.create hcmd).2
    refine hinv.serve (by rw [hself]; exact hfirst.down) (by rw [hself]; exact hrun)
      (by rw [hself]; exact hid) ?_
    unfold IsReply
    rw [hcmd]
    refine ⟨rfl, rfl, w.count, ?_, ?_⟩
    · rw [hproc, if_neg (Nat.ne_of_gt hp), if_pos rfl]
      simp
    · rw [hproc, if_neg (Nat.ne_of_gt hp), if_pos rfl]
      rfl
  | notForked r rest hfirst hid hcmd => exact h.crash hfirst.down hrun hid hcmd
  | notBound r rest hfirst hid hcmd =>
    have hself := fork_proc_of_lt w r.msg.addData [] hp
    have hinv := h.fork (hfirst.request.create hcmd).2
    exact hinv.crash (by rw [hself]; exact hfirst.down) (by rw [hself]; exact hrun)
      (by rw [hself]; exact hid) hcmd

/-- A beat of a process. -/
theorem sendBeat (h : Inv w) (p : ℕ) : Inv (sendBeat w p) := by
  unfold NodeTree.sendBeat
  dsimp only
  split_ifs
  · exact (h.sendUp rfl).setNode (fun n => { n with lastBeat := w.clock }) fun n => ⟨rfl, rfl⟩
  · exact h

theorem truncate_truncate (s : List UInt8) : truncate (truncate s) = truncate s := by
  unfold truncate
  have hpre : (s.takeWhile (· ≠ 0)).take 29 <+: s.takeWhile (· ≠ 0) := List.take_prefix 29 _
  have hall : ∀ b ∈ (s.takeWhile (· ≠ 0)).take 29, decide (b ≠ 0) = true :=
    fun b hb => List.mem_takeWhile_imp (p := fun b => decide (b ≠ 0)) (hpre.subset hb)
  rw [List.takeWhile_eq_self_iff.mpr hall, List.take_take, Nat.min_self]

/-- A node that the controller knows can be named by a request. -/
theorem isRequest (h : Inv w) {m : Message} (hid : m.id ∈ w.ctrl.nodeIds)
    (hkind : m.command = .ping ∨ m.command = .execAdd ∨ m.command = .execFnd)
    (hval : truncate m.val = m.val) : IsRequest w m := by
  refine ⟨Or.inr hkind, h.packets.nodeIds _ hid, fun hc => ?_, hval⟩
  rw [hc] at hkind
  exact absurd hkind (by decide)

/-- **A command** does one of six things. -/
theorem commanded (h : Inv w) (o : Outcome) (cmd : Command) :
    Commanded w o cmd (NodeTree.handleCommand w o cmd) := by
  cases cmd with
  | create childId parentId =>
    show Commanded w o _ (handleCreateCommand w childId parentId o)
    unfold handleCreateCommand
    by_cases h₁ : childId ∈ w.ctrl.nodeIds
    · rw [if_pos h₁]
      exact .printed _
    by_cases h₂ : parentId ∈ w.ctrl.nodeIds
    · rw [if_neg h₁, if_neg (not_not.mpr h₂)]
      by_cases h₃ : parentId = -1
      · rw [if_pos h₃, h₃]
        cases o with
        | created => exact .started childId rfl h₁ rfl
        | forkFailed => exact .notForked childId rfl h₁ rfl
        | bindFailed => exact .notBound childId rfl h₁ rfl
      · rw [if_neg h₃]
        -- the root is registered, so a child that is not has another id
        have hchild : childId ≠ -1 := fun heq => h₁ (heq ▸ h.packets.root)
        exact .requested _ ⟨Or.inl rfl, h.packets.nodeIds _ h₂, fun _ => ⟨h₃, hchild⟩, rfl⟩
          fun _ => ⟨rfl, h₁, h₂⟩
    · rw [if_neg h₁, if_pos h₂]
      exact .printed _
  | exec id key val =>
    show Commanded w o _ (handleExecCommand w id key val)
    unfold handleExecCommand
    by_cases hid : id ∈ w.ctrl.nodeIds
    · rw [if_neg (not_not.mpr hid)]
      cases val with
      | none =>
        exact .requested _ (h.isRequest hid (Or.inr (Or.inr rfl)) (truncate_truncate key))
          fun hc => by cases hc
      | some val =>
        exact .requested _ (h.isRequest hid (Or.inr (Or.inl rfl)) (truncate_truncate key))
          fun hc => by cases hc
    · rw [if_pos hid]
      exact .printed _
  | ping id =>
    show Commanded w o _ (handlePingCommand w id)
    unfold handlePingCommand
    by_cases hid : id ∈ w.ctrl.nodeIds
    · rw [if_neg (not_not.mpr hid)]
      exact .requested _ (h.isRequest hid (Or.inl rfl) rfl) fun hc => by cases hc
    · rw [if_pos hid]
      exact .printed _
  | heartbeat time => exact .heartbeat time rfl
  | unknown => exact .printed .unknownCommand

/-- **A command** of the user keeps the invariant. -/
theorem handleCommand (h : Inv w) (o : Outcome) (cmd : Command) :
    Inv (NodeTree.handleCommand w o cmd) := by
  have hchild : ∀ childId, childId ∉ w.ctrl.nodeIds → childId ≠ -1 :=
    fun childId hid heq => hid (heq ▸ h.packets.root)
  have hcmd := h.commanded o cmd
  generalize NodeTree.handleCommand w o cmd = w' at hcmd ⊢
  rcases hcmd with line | ⟨m, hm, -⟩ | ⟨childId, -, hid, -⟩ | ⟨childId, -, hid, -⟩ |
    ⟨childId, -, hid, -⟩ | time
  · exact h.updateCtrl (·.print line) rfl rfl
  · exact h.issue hm
  · exact (h.attachCtrl (hchild _ hid)).updateCtrl (·.print (.okPid w.count)) rfl rfl
  · exact h.quiet ⟨rfl, rfl, Finset.Subset.refl _, fun i hi => Or.inl hi, rfl, rfl,
      fun q => ⟨_, rfl, rfl, rfl⟩⟩
  · exact (h.fork (hchild _ hid)).quiet ⟨rfl, rfl, Finset.Subset.refl _, fun i hi => Or.inl hi,
      rfl, rfl, fun q => ⟨_, rfl, rfl, rfl⟩⟩
  · have hinv := h.updateCtrl (fun c => { c with
      heartbeat := time
      beatTracker := c.beatTracker.map fun e => (e.1, w.clock) }) rfl rfl
    exact hinv.sendBeatSetting rfl

/-- A timeout only prints a line. -/
theorem handleTimeout_frame (c : Controller) (m : Message) :
    ∃ output, c.handleTimeout m = { c with output := output } := by
  unfold Controller.handleTimeout
  split
  · exact ⟨_, rfl⟩
  · exact ⟨_, rfl⟩
  · exact ⟨_, rfl⟩
  · exact ⟨_, rfl⟩
  · exact ⟨c.output, rfl⟩

/-- Looking for expired requests only prints lines and drops requests. -/
theorem checkPendingMessages_frame (c : Controller) (now : ℤ) :
    ∃ output pending, c.checkPendingMessages now =
      { c with output := output, pendingMessages := pending } := by
  have hall : ∀ (expired : List Request) (c : Controller), ∃ output,
      expired.foldl (fun c r => c.handleTimeout r.msg) c = { c with output := output } := by
    intro expired
    induction expired with
    | nil => exact fun c => ⟨c.output, rfl⟩
    | cons r expired ih =>
      intro c
      obtain ⟨output, heq⟩ := handleTimeout_frame c r.msg
      obtain ⟨output', heq'⟩ := ih (c.handleTimeout r.msg)
      refine ⟨output', ?_⟩
      rw [List.foldl_cons, heq', heq]
  obtain ⟨output, heq⟩ := hall (c.pendingMessages.filter fun r => Controller.isExpired now r.msg) c
  unfold Controller.checkPendingMessages
  dsimp only
  rw [heq]
  exact ⟨output, _, rfl⟩

theorem checkPendingMessages_keeps (c : Controller) (now : ℤ) :
    (c.checkPendingMessages now).children = c.children ∧
      (c.checkPendingMessages now).nodeIds = c.nodeIds := by
  obtain ⟨output, pending, heq⟩ := checkPendingMessages_frame c now
  rw [heq]
  exact ⟨rfl, rfl⟩

/-- **Every step keeps the invariant.** -/
theorem next (h : Inv w) {e : Event} (he : e.Enabled w) : Inv (w.next e) := by
  cases e with
  | tick now =>
    exact h.quiet ⟨rfl, rfl, Finset.Subset.refl _, fun i hi => Or.inl hi, rfl, rfl,
      fun q => ⟨_, rfl, rfl, rfl⟩⟩
  | command cmd o => exact h.handleCommand o cmd
  | receiveUp p => exact h.receiveUp he.2
  | checkPending =>
    obtain ⟨h₁, h₂⟩ := checkPendingMessages_keeps w.ctrl w.clock
    exact h.updateCtrl (·.checkPendingMessages w.clock) h₁ h₂
  | checkBeats => exact h.updateCtrl (·.checkBeats w.clock) rfl rfl
  | receiveDown p o => exact h.receiveDown he.1 he.2 o
  | relayUp p c => exact h.relayUp he.2.2
  | sendBeat p => exact h.sendBeat p

theorem initial : Inv initial := by
  refine ⟨⟨?_, ?_, List.nodup_nil, fun _ => List.nodup_nil, ?_⟩, ?_, ?_⟩
  · exact fun c hc => absurd hc List.not_mem_nil
  · exact fun u c hc => absurd hc List.not_mem_nil
  · exact fun v hv => absurd rfl hv
  · refine ⟨fun v _ => ⟨rfl, rfl, rfl⟩, ?_, ?_, ?_, ?_, ?_, rfl, ?_, ?_, ?_, ?_⟩
    · exact fun v pkt hpkt => absurd hpkt List.not_mem_nil
    · exact fun v pkt hpkt => absurd hpkt List.not_mem_nil
    · exact fun v x hx => absurd hx List.not_mem_nil
    · exact fun v r hr => absurd hr.symm (Option.some_ne_none r)
    · exact fun x hx => absurd hx List.not_mem_nil
    · exact fun r hr => absurd hr List.not_mem_nil
    · exact fun i hi => Or.inl (Finset.mem_singleton.mp hi)
    · exact Finset.mem_singleton_self _
    · exact fun v hv => absurd hv (Nat.not_lt_zero v)
  · exact fun _ v hv => absurd rfl hv

end Inv

end NodeTree
