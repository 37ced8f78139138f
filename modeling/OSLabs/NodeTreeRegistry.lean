/-
# The registry and the tree

`node_ids_` is filled in two places: at once for a child of the controller, and when the
reply arrives for every other node.  In between the id of a new node is in its Create reply,
which is on its way through the relays.
-/
import OSLabs.NodeTreePending

namespace NodeTree

/-! ## What a step does to the links to the parents -/

section Links

variable {w : World} {e : Event} {p : ℕ}

/-- Handling a message of the parent takes nothing from the links to the parents. -/
theorem Inv.up_receiveDown (h : Inv w) (hp : p < w.count) (o : Outcome) {q : ℕ}
    (hq : q < w.count) : (w.proc q).up ⊆ ((NodeTree.receiveDown w p o).proc q).up := by
  have hreceived := h.received hp o
  generalize NodeTree.receiveDown w p o = w' at hreceived ⊢
  cases hreceived with
  | nothing => exact List.Subset.refl _
  | beat pkt rest =>
    obtain ⟨d, hd⟩ := (h.setHeartbeat p pkt.msg.addData).forward_frame p rest pkt q
    rw [hd]
    dsimp only
    rw [setNode_up]
    exact List.Subset.refl _
  | other r rest =>
    obtain ⟨d, hd⟩ := h.forward_frame p rest ⟨r.msg, some r⟩ q
    rw [hd]
    exact List.Subset.refl _
  | answered r rest =>
    refine List.Subset.trans ?_ (serve_up _ _ _ _ _ _)
    rw [setNode_up]
    exact List.Subset.refl _
  | created r rest =>
    refine List.Subset.trans ?_ (serve_up _ _ _ _ _ _)
    rw [attach_keeps w p q _ Process.up (fun _ _ => rfl) hq]
    exact List.Subset.refl _
  | notForked r rest =>
    rw [crash_up]
    exact List.Subset.refl _
  | notBound r rest =>
    rw [crash_up, fork_proc_of_lt w _ _ hq]
    exact List.Subset.refl _

/-- A relayed message is in the link of the relay. -/
theorem Inv.up_relayUp (h : Inv w) {c q : ℕ} (hc : c ∈ pids (w.proc p).node.children) {pkt : Packet}
    (hpkt : pkt ∈ (w.proc q).up) : ∃ q', pkt ∈ ((NodeTree.relayUp w p c).proc q').up := by
  have hpc : p ≠ c := fun heq => h.self_notMem_children p (by rwa [← heq] at hc)
  cases hup : (w.proc c).up with
  | nil =>
    unfold NodeTree.relayUp
    rw [hup]
    exact ⟨q, hpkt⟩
  | cons first rest =>
    have hproc := Inv.relayUp_proc hup hpc
    by_cases hqp : q = p
    · subst hqp
      refine ⟨q, ?_⟩
      rw [hproc, if_pos rfl]
      exact List.mem_append_left _ hpkt
    · by_cases hqc : q = c
      · subst hqc
        rw [hup] at hpkt
        rcases List.mem_cons.mp hpkt with rfl | hrest
        · -- This message is the one that is relayed.
          refine ⟨p, ?_⟩
          rw [hproc, if_pos rfl]
          exact List.mem_append_right _ (List.mem_singleton.mpr rfl)
        · refine ⟨q, ?_⟩
          rw [hproc, if_neg hqp, if_pos rfl]
          exact hrest
      · refine ⟨q, ?_⟩
        rw [hproc, if_neg hqp, if_neg hqc]
        exact hpkt

/-- The controller takes the first message of a link. -/
theorem receiveUp_of_cons {pkt : Packet} {rest : List Packet} (hup : (w.proc p).up = pkt :: rest) :
    NodeTree.receiveUp w p = { w.update p fun q => { q with up := rest } with
      ctrl := w.ctrl.handleChildMessage w.clock pkt.msg
      answered := w.answered ++ (pkt.req.map fun r => (r, pkt.msg)).toList } := by
  unfold NodeTree.receiveUp
  rw [hup]
  rfl

/-- Every other message stays in its link. -/
theorem up_receiveUp {q : ℕ} {pkt : Packet} (hpkt : pkt ∈ (w.proc q).up) :
    pkt ∈ ((NodeTree.receiveUp w p).proc q).up ∨ ∃ rest, (w.proc p).up = pkt :: rest := by
  cases hup : (w.proc p).up with
  | nil =>
    unfold NodeTree.receiveUp
    rw [hup]
    exact Or.inl hpkt
  | cons first rest =>
    rw [receiveUp_of_cons hup]
    dsimp only
    by_cases hqp : q = p
    · subst hqp
      rw [hup] at hpkt
      rcases List.mem_cons.mp hpkt with rfl | hrest
      · exact Or.inr ⟨rest, rfl⟩
      · rw [update_proc_self]
        exact Or.inl hrest
    · rw [update_proc_of_ne _ _ _ _ hqp]
      exact Or.inl hpkt

/-- A command takes nothing from the links to the parents. -/
theorem Inv.up_command (h : Inv w) (cmd : Command) (o : Outcome) {q : ℕ} (hq : q < w.count) :
    ((NodeTree.handleCommand w o cmd).proc q).up = (w.proc q).up := by
  have hcmd := h.commanded o cmd
  generalize NodeTree.handleCommand w o cmd = w' at hcmd ⊢
  rcases hcmd with line | ⟨m, -, -⟩ | ⟨id, -, -, -⟩ | ⟨id, -, -, -⟩ | ⟨id, -, -, -⟩ | time
  · rfl
  · obtain ⟨d, hd, -⟩ := h.broadcastMessage_frame m q
    rw [hd]
  · exact congrArg Process.up (fork_proc_of_lt w id [w.count] hq)
  · rfl
  · exact congrArg Process.up (fork_proc_of_lt w id [] hq)
  · obtain ⟨d, hd⟩ := h.handleHeartbeatCommand_frame time q
    rw [hd]

/-- The registry only grows. -/
theorem Inv.nodeIds_next (h : Inv w) (he : e.Enabled w) :
    w.ctrl.nodeIds ⊆ (w.next e).ctrl.nodeIds := by
  cases e with
  | command cmd o =>
    show w.ctrl.nodeIds ⊆ (NodeTree.handleCommand w o cmd).ctrl.nodeIds
    have hcmd := h.commanded o cmd
    generalize NodeTree.handleCommand w o cmd = w' at hcmd ⊢
    rcases hcmd with line | ⟨m, -, -⟩ | ⟨id, -, -, -⟩ | ⟨id, -, -, -⟩ | ⟨id, -, -, -⟩ | time
    · exact Finset.Subset.refl _
    · rw [h.broadcastMessage_eq]
    · exact Finset.subset_insert id _
    · exact Finset.Subset.refl _
    · exact Finset.Subset.refl _
    · rw [h.handleHeartbeatCommand_eq]
  | receiveUp p =>
    show w.ctrl.nodeIds ⊆ (NodeTree.receiveUp w p).ctrl.nodeIds
    rcases receiveUp_ctrl w p with hctrl | ⟨pkt, -, hctrl⟩
    · rw [hctrl]
    · rw [hctrl, handleChildMessage_nodeIds]
      split_ifs
      · exact Finset.subset_insert _ _
      · exact Finset.Subset.refl _
  | checkPending => exact (Inv.checkPendingMessages_keeps w.ctrl w.clock).2.symm.subset
  | receiveDown p o =>
    show w.ctrl.nodeIds ⊆ (NodeTree.receiveDown w p o).ctrl.nodeIds
    rw [(h.receiveDown_ctrl he.1 o).1]
  | relayUp p c =>
    show w.ctrl.nodeIds ⊆ (NodeTree.relayUp w p c).ctrl.nodeIds
    rw [(Inv.relayUp_relinked w p c).ctrl]
  | sendBeat p =>
    show w.ctrl.nodeIds ⊆ (NodeTree.sendBeat w p).ctrl.nodeIds
    rw [(sendBeat_ctrl w p).1]
  | _ => exact Finset.Subset.refl _

/-- The children of the controller only become more. -/
theorem Inv.ctrlChildren_next (h : Inv w) (he : e.Enabled w) :
    pids w.ctrl.children ⊆ pids (w.next e).ctrl.children := by
  cases e with
  | command cmd o =>
    show pids w.ctrl.children ⊆ pids (NodeTree.handleCommand w o cmd).ctrl.children
    have hcmd := h.commanded o cmd
    generalize NodeTree.handleCommand w o cmd = w' at hcmd ⊢
    rcases hcmd with line | ⟨m, -, -⟩ | ⟨id, -, -, -⟩ | ⟨id, -, -, -⟩ | ⟨id, -, -, -⟩ | ⟨time, -⟩
    · exact List.Subset.refl _
    · rw [h.broadcastMessage_eq]
      exact List.Subset.refl _
    · show pids w.ctrl.children ⊆ pids (w.ctrl.children ++ [⟨id, w.count⟩])
      rw [pids, pids, List.map_append]
      exact List.subset_append_left _ _
    · exact List.Subset.refl _
    · exact List.Subset.refl _
    · rw [h.handleHeartbeatCommand_eq]
      exact List.Subset.refl _
  | receiveUp p =>
    show pids w.ctrl.children ⊆ pids (NodeTree.receiveUp w p).ctrl.children
    rcases receiveUp_ctrl w p with hctrl | ⟨pkt, -, hctrl⟩
    · rw [hctrl]
      exact List.Subset.refl _
    · rw [hctrl, handleChildMessage_children]
      exact List.Subset.refl _
  | checkPending =>
    show pids w.ctrl.children ⊆ pids (w.ctrl.checkPendingMessages w.clock).children
    rw [(Inv.checkPendingMessages_keeps w.ctrl w.clock).1]
    exact List.Subset.refl _
  | receiveDown p o =>
    show pids w.ctrl.children ⊆ pids (NodeTree.receiveDown w p o).ctrl.children
    rw [(h.receiveDown_ctrl he.1 o).1]
    exact List.Subset.refl _
  | relayUp p c =>
    show pids w.ctrl.children ⊆ pids (NodeTree.relayUp w p c).ctrl.children
    rw [(Inv.relayUp_relinked w p c).ctrl]
    exact List.Subset.refl _
  | sendBeat p =>
    show pids w.ctrl.children ⊆ pids (NodeTree.sendBeat w p).ctrl.children
    rw [(sendBeat_ctrl w p).1]
    exact List.Subset.refl _
  | _ => exact List.Subset.refl _

end Links

/-! ## Create replies on their way -/

/-- A Create reply with the id is in some link. -/
def Announced (w : World) (id : ℤ) : Prop :=
  ∃ q, ∃ pkt ∈ (w.proc q).up, pkt.msg.command = .create ∧ pkt.msg.id = id

section Announced

variable {w : World} {e : Event} {p c : ℕ} {id : ℤ}

/-- A Create reply is in the link of a process that was forked. -/
theorem Inv.lt_of_create (h : Inv w) {pkt : Packet} (hpkt : pkt ∈ (w.proc p).up)
    (hcmd : pkt.msg.command = .create) : p < w.count := by
  rcases h.packets.up p pkt hpkt with ⟨r, m, -, u, hu, -⟩ | ⟨-, hbeat⟩
  · have hpath := List.ne_nil_of_mem hu
    exact lt_of_le_of_lt (h.tree.path_prefix_path hpath hu).2.1 (h.path_lt hpath)
  · rw [hcmd] at hbeat
    exact absurd hbeat (by decide)

theorem Announced.relayUp (h : Inv w) (hc : c ∈ pids (w.proc p).node.children)
    (ha : Announced w id) : Announced (relayUp w p c) id := by
  obtain ⟨q, pkt, hpkt, hcmd, hid⟩ := ha
  obtain ⟨q', hpkt'⟩ := h.up_relayUp hc hpkt
  exact ⟨q', pkt, hpkt', hcmd, hid⟩

theorem Announced.receiveUp (ha : Announced w id) :
    Announced (receiveUp w p) id ∨ id ∈ (NodeTree.receiveUp w p).ctrl.nodeIds := by
  obtain ⟨q, pkt, hpkt, hcmd, rfl⟩ := ha
  rcases up_receiveUp hpkt with hpkt' | ⟨rest, hup⟩
  · exact Or.inl ⟨q, pkt, hpkt', hcmd, rfl⟩
  · apply Or.inr
    rw [receiveUp_of_cons hup]
    dsimp only
    rw [handleChildMessage_nodeIds, if_pos hcmd]
    exact Finset.mem_insert_self _ _

/-- **A Create reply stays on its way until the controller registers its id.** -/
theorem Announced.next (h : Inv w) (he : e.Enabled w) (ha : Announced w id) :
    Announced (w.next e) id ∨ id ∈ (w.next e).ctrl.nodeIds := by
  cases e with
  | command cmd o =>
    obtain ⟨q, pkt, hpkt, hcmd, hid⟩ := ha
    refine Or.inl ⟨q, pkt, ?_, hcmd, hid⟩
    show pkt ∈ ((NodeTree.handleCommand w o cmd).proc q).up
    rwa [h.up_command cmd o (h.lt_of_create hpkt hcmd)]
  | receiveUp p => exact ha.receiveUp
  | receiveDown p o =>
    obtain ⟨q, pkt, hpkt, hcmd, hid⟩ := ha
    exact Or.inl ⟨q, pkt, h.up_receiveDown he.1 o (h.lt_of_create hpkt hcmd) hpkt, hcmd, hid⟩
  | relayUp p c => exact Or.inl (ha.relayUp h he.2.2)
  | sendBeat p =>
    obtain ⟨q, pkt, hpkt, hcmd, hid⟩ := ha
    exact Or.inl ⟨q, pkt, sendBeat_up w p q hpkt, hcmd, hid⟩
  | _ => exact Or.inl ha

end Announced

/-! ## New processes -/

/-- **How a process starts in a step**, if one does. -/
inductive Born (w : World) (e : Event) (w' : World) : Prop
  | none (hcount : w'.count = w.count) (hctrl : w'.ctrl.children = w.ctrl.children)
  | direct (id : ℤ) (he : e = .command (.create id (-1)) .created)
      (hid : id ∉ w.ctrl.nodeIds) (hcount : w'.count = w.count + 1)
      (hnode : (w'.proc w.count).node.id = id)
      (hctrl : w'.ctrl.children = w.ctrl.children ++ [⟨id, w.count⟩])
      (hnodeIds : w'.ctrl.nodeIds = insert id w.ctrl.nodeIds)
  | below (p : ℕ) (r : Request) (rest : List Packet) (he : e = .receiveDown p .created)
      (hfirst : IsFirst w p r rest) (htarget : r.msg.id = (w.proc p).node.id)
      (hcmd : r.msg.command = .create) (hcount : w'.count = w.count + 1)
      (hnode : (w'.proc w.count).node.id = r.msg.addData)
      (hctrl : w'.ctrl.children = w.ctrl.children)
      (hchild : w.count ∈ pids (w'.proc p).node.children)
      (hup : ⟨.of w.clock .create r.msg.addData w.count, some r⟩ ∈ (w'.proc p).up)
  | orphan (hfail : ¬ e.Succeeds)

section Born

variable {w : World} {e : Event} {p : ℕ}

theorem Inv.born_command (h : Inv w) (cmd : Command) (o : Outcome) :
    Born w (.command cmd o) (NodeTree.handleCommand w o cmd) := by
  have hcmd := h.commanded o cmd
  generalize NodeTree.handleCommand w o cmd = w' at hcmd ⊢
  rcases hcmd with line | ⟨m, -, -⟩ | ⟨id, rfl, hid, rfl⟩ | ⟨id, -, -, rfl⟩ | ⟨id, -, -, rfl⟩ |
    time
  · exact .none rfl rfl
  · rw [h.broadcastMessage_eq]
    exact .none rfl rfl
  · have hnew : ((w.attachCtrl id).proc w.count).node.id = id := forked_attachCtrl.newId
    exact .direct id rfl hid rfl hnew rfl rfl
  · exact .none rfl rfl
  · exact .orphan fun hs : Outcome.bindFailed = .created => absurd hs (by decide)
  · rw [h.handleHeartbeatCommand_eq]
    exact .none rfl rfl

theorem Inv.born_receiveDown (h : Inv w) (hp : p < w.count) (o : Outcome) :
    Born w (.receiveDown p o) (NodeTree.receiveDown w p o) := by
  have hreceived := h.received hp o
  generalize NodeTree.receiveDown w p o = w' at hreceived ⊢
  cases hreceived with
  | nothing => exact .none rfl rfl
  | beat pkt rest =>
    rw [(h.setHeartbeat p _).forward_eq]
    exact .none rfl rfl
  | other r rest =>
    rw [h.forward_eq]
    exact .none rfl rfl
  | answered r rest => exact .none rfl rfl
  | created r rest hfirst hid hcmd ho =>
    subst ho
    have hne : w.count ≠ p := Nat.ne_of_gt hp
    refine .below p r rest rfl hfirst hid hcmd rfl ?_ rfl ?_ ?_
    · rw [World.serve, update_proc_of_ne _ _ _ _ hne]
      exact (forked_attach hp).newId
    · rw [World.serve, update_proc_self, attach_proc w p _ hp, if_pos rfl]
      simp [pids]
    · rw [World.serve, update_proc_self]
      exact List.mem_append_right _ (List.mem_singleton.mpr rfl)
  | notForked r rest => exact .none rfl rfl
  | notBound r rest _ _ _ ho =>
    subst ho
    exact .orphan fun hs : Outcome.bindFailed = .created => absurd hs (by decide)

theorem Inv.born_next (h : Inv w) (he : e.Enabled w) : Born w e (w.next e) := by
  cases e with
  | command cmd o => exact h.born_command cmd o
  | receiveDown p o => exact h.born_receiveDown he.1 o
  | receiveUp p =>
    refine .none (receiveUp_onlyUp w p).count ?_
    show (NodeTree.receiveUp w p).ctrl.children = w.ctrl.children
    rcases receiveUp_ctrl w p with hctrl | ⟨pkt, -, hctrl⟩
    · rw [hctrl]
    · rw [hctrl, handleChildMessage_children]
  | checkPending => exact .none rfl (Inv.checkPendingMessages_keeps w.ctrl w.clock).1
  | relayUp p c =>
    have hr := Inv.relayUp_relinked w p c
    exact .none hr.count (congrArg Controller.children hr.ctrl)
  | sendBeat p =>
    exact .none (sendBeat_onlyUp w p).count (congrArg Controller.children (sendBeat_ctrl w p).1)
  | _ => exact .none rfl rfl

end Born

/-! ## Accepted commands -/

/-- **A new request** comes from a command; if it is a create, the command was accepted. -/
theorem Inv.issued_next {w : World} {e : Event} (h : Inv w) (he : e.Enabled w) {r : Request}
    (hr : r ∈ (w.next e).issued) (hnew : r ∉ w.issued) :
    ∃ cmd o, e = .command cmd o ∧ (w.next e).issued = w.issued ++ [r] ∧
      (r.msg.command = .create → cmd = .create r.msg.addData r.msg.id ∧
        r.msg.addData ∉ w.ctrl.nodeIds ∧ r.msg.id ∈ w.ctrl.nodeIds) := by
  cases e with
  | command cmd o =>
    refine ⟨cmd, o, rfl, ?_⟩
    change r ∈ (NodeTree.handleCommand w o cmd).issued at hr
    show (NodeTree.handleCommand w o cmd).issued = _ ∧ _
    have hcmd := h.commanded o cmd
    generalize NodeTree.handleCommand w o cmd = w' at hcmd hr ⊢
    rcases hcmd with line | ⟨m, -, hcreate⟩ | ⟨id, -, -, -⟩ | ⟨id, -, -, -⟩ | ⟨id, -, -, -⟩ | time
    · exact absurd hr hnew
    · rw [h.broadcastMessage_issued] at hr ⊢
      obtain rfl := List.mem_singleton.mp ((List.mem_append.mp hr).resolve_left hnew)
      exact ⟨rfl, hcreate⟩
    · exact absurd hr hnew
    · exact absurd hr hnew
    · exact absurd hr hnew
    · rw [h.handleHeartbeatCommand_eq] at hr
      exact absurd hr hnew
  | receiveUp p => exact absurd ((receiveUp_onlyUp w p).issued ▸ hr) hnew
  | receiveDown p o => exact absurd ((h.receiveDown_ctrl he.1 o).2.1 ▸ hr) hnew
  | relayUp p c => exact absurd ((relayUp_onlyUp w p c).issued ▸ hr) hnew
  | sendBeat p => exact absurd ((sendBeat_onlyUp w p).issued ▸ hr) hnew
  | _ => exact absurd hr hnew

/-- A create command for the child below the parent was accepted in the run. -/
def AcceptedCreate (es : List Event) (childId parentId : ℤ) : Prop :=
  ∃ es₁ o es₂ w, es = es₁ ++ .command (.create childId parentId) o :: es₂ ∧
    Run Step initial es₁ w ∧ childId ∉ w.ctrl.nodeIds ∧ parentId ∈ w.ctrl.nodeIds

theorem AcceptedCreate.snoc {es : List Event} {childId parentId : ℤ} (e : Event)
    (h : AcceptedCreate es childId parentId) : AcceptedCreate (es ++ [e]) childId parentId := by
  obtain ⟨es₁, o, es₂, w, rfl, hrun, hchild, hparent⟩ := h
  exact ⟨es₁, o, es₂ ++ [e], w, by simp, hrun, hchild, hparent⟩

/-- The process `v` was forked by the node with the given id, or by the controller. -/
def ForkedBy (w : World) (v : ℕ) (parentId : ℤ) : Prop :=
  (parentId = -1 ∧ v ∈ pids w.ctrl.children) ∨
    ∃ u < w.count, (w.proc u).node.id = parentId ∧ v ∈ pids (w.proc u).node.children

/-- **The registry agrees with the tree** after the events `es`. -/
structure Registry (es : List Event) (w : World) : Prop where
  known : ∀ v < w.count, (w.proc v).node.id ∈ w.ctrl.nodeIds ∨ Announced w (w.proc v).node.id
  commissioned : ∀ r ∈ w.issued, r.msg.command = .create →
    AcceptedCreate es r.msg.addData r.msg.id
  forked : ∀ v < w.count, ∃ parentId, AcceptedCreate es (w.proc v).node.id parentId ∧
    ForkedBy w v parentId

namespace Registry

variable {es : List Event} {w w' : World} {e : Event} {p v : ℕ}

/-- A broadcast create comes from an accepted command. -/
theorem commissioned_next (h : Registry es w) (hinv : Inv w) (hrun : Run Step initial es w)
    (he : e.Enabled w) : ∀ r ∈ (w.next e).issued, r.msg.command = .create →
      AcceptedCreate (es ++ [e]) r.msg.addData r.msg.id := by
  intro r hr hcmd
  by_cases hold : r ∈ w.issued
  · exact (h.commissioned r hold hcmd).snoc e
  · obtain ⟨cmd, o, rfl, -, hcreate⟩ := hinv.issued_next he hr hold
    obtain ⟨rfl, hchild, hparent⟩ := hcreate hcmd
    exact ⟨es, o, [], w, rfl, hrun, hchild, hparent⟩

/-- The children of a process only become more. -/
theorem children_next (hinv : Inv w) (he : e.Enabled w) {u : ℕ} (hu : u < w.count) :
    pids (w.proc u).node.children ⊆ pids ((w.next e).proc u).node.children := by
  cases hinv.change_next he u with
  | same hs => rw [hs.children]; exact List.Subset.refl _
  | fresh hv => exact absurd hv (Nat.ne_of_lt hu)
  | acted r m ha =>
    rcases ha.node with ⟨-, hnode, -⟩ | ⟨-, -, hnode⟩
    · rw [hnode, (Inv.act_keeps _ _).2]
      exact List.Subset.refl _
    · rw [hnode, pids, pids, List.map_append]
      exact List.subset_append_left _ _
  | threw o _ _ _ _ hchildren => rw [hchildren]; exact List.Subset.refl _

/-- Where an old process was forked does not change. -/
theorem forkedBy_next (hinv : Inv w) (he : e.Enabled w) {parentId : ℤ}
    (hf : ForkedBy w v parentId) : ForkedBy (w.next e) v parentId := by
  rcases hf with ⟨hroot, hmem⟩ | ⟨u, hu, hid, hmem⟩
  · exact Or.inl ⟨hroot, hinv.ctrlChildren_next he hmem⟩
  · have hcount := hinv.count_le_next he
    exact Or.inr ⟨u, by omega, by rw [hinv.id_next he hu, hid], children_next hinv he hu hmem⟩

/-- A new process is known or announced, and the command that it stems from was accepted. -/
theorem newborn (h : Registry es w) (hinv : Inv w) (hrun : Run Step initial es w)
    (he : e.Enabled w) (hsucceeds : e.Succeeds) :
    (w.next e).count = w.count ∨ ((w.next e).count = w.count + 1 ∧
      (((w.next e).proc w.count).node.id ∈ (w.next e).ctrl.nodeIds ∨
        Announced (w.next e) ((w.next e).proc w.count).node.id) ∧
      ∃ parentId, AcceptedCreate (es ++ [e]) ((w.next e).proc w.count).node.id parentId ∧
        ForkedBy (w.next e) w.count parentId) := by
  cases hinv.born_next he with
  | none hcount => exact Or.inl hcount
  | direct id he' hid hcount hnode hctrl hnodeIds =>
    refine Or.inr ⟨hcount, Or.inl ?_, -1, ?_, Or.inl ⟨rfl, ?_⟩⟩
    · rw [hnode, hnodeIds]
      exact Finset.mem_insert_self _ _
    · rw [hnode, he']
      exact ⟨es, .created, [], w, rfl, hrun, hid, hinv.packets.root⟩
    · rw [hctrl, pids, List.map_append]
      exact List.mem_append_right _ (List.mem_singleton.mpr rfl)
  | below p r rest he' hfirst htarget hcmd hcount hnode hctrl hchild hup =>
    subst he'
    refine Or.inr ⟨hcount, Or.inr ⟨p, _, hup, rfl, hnode.symm⟩, r.msg.id, ?_, Or.inr ⟨p, ?_, ?_, hchild⟩⟩
    · rw [hnode]
      exact (h.commissioned r hfirst.issued hcmd).snoc _
    · have := he.1
      omega
    · rw [hinv.id_next he he.1, htarget]
  | orphan hfail => exact absurd hsucceeds hfail

/-- **Every step in which `create_process` succeeds keeps the registry in agreement.** -/
theorem next (h : Registry es w) (hinv : Inv w) (hrun : Run Step initial es w)
    (he : e.Enabled w) (hsucceeds : e.Succeeds) : Registry (es ++ [e]) (w.next e) := by
  have hknown : ∀ v < w.count, ((w.next e).proc v).node.id ∈ (w.next e).ctrl.nodeIds ∨
      Announced (w.next e) ((w.next e).proc v).node.id := by
    intro v hv
    rw [hinv.id_next he hv]
    rcases h.known v hv with hknown | hannounced
    · exact Or.inl (hinv.nodeIds_next he hknown)
    · exact (hannounced.next hinv he).symm
  have hforked : ∀ v < w.count, ∃ parentId,
      AcceptedCreate (es ++ [e]) ((w.next e).proc v).node.id parentId ∧
        ForkedBy (w.next e) v parentId := by
    intro v hv
    rw [hinv.id_next he hv]
    obtain ⟨parentId, haccepted, hf⟩ := h.forked v hv
    exact ⟨parentId, haccepted.snoc e, forkedBy_next hinv he hf⟩
  have hcommissioned := h.commissioned_next hinv hrun he
  rcases h.newborn hinv hrun he hsucceeds with hcount | ⟨hcount, hnew, hnew'⟩
  · exact ⟨hcount ▸ hknown, hcommissioned, hcount ▸ hforked⟩
  · have hcases : ∀ v < (w.next e).count, v < w.count ∨ v = w.count := fun v hv => by omega
    refine ⟨fun v hv => ?_, hcommissioned, fun v hv => ?_⟩
    · rcases hcases v hv with hold | rfl
      · exact hknown v hold
      · exact hnew
    · rcases hcases v hv with hold | rfl
      · exact hforked v hold
      · exact hnew'

theorem of_run (h : Run SuccessStep initial es w) : Registry es w := by
  refine (h.history (I := fun es w => Run Step initial es w ∧ Inv w ∧ Registry es w)
    ⟨.nil _, Inv.initial, ?_⟩ ?_).2.2
  · exact ⟨fun v hv => absurd hv (Nat.not_lt_zero v), fun r hr => absurd hr List.not_mem_nil,
      fun v hv => absurd hv (Nat.not_lt_zero v)⟩
  · rintro es w e w' - ⟨hrun, hinv, hreg⟩ ⟨⟨he, rfl⟩, hsucceeds⟩
    exact ⟨hrun.snoc ⟨he, rfl⟩, hinv.next he, hreg.next hinv hrun he hsucceeds⟩

end Registry

/-- No message is in any link. -/
def NothingInFlight (w : World) : Prop := ∀ q, (w.proc q).down = [] ∧ (w.proc q).up = []

/-- **The registry agrees with the tree.**  In every run in which `create_process` succeeds,
the ids of the processes are the registered ids and those of the Create replies on their way;
every process was forked by the node that an accepted create command names as its parent; and
when no message is in flight the registry holds exactly the ids of the processes. -/
theorem registry_agrees_with_tree {es : List Event} {w : World}
    (h : Run SuccessStep initial es w) :
    (∀ id, id ∈ w.ids ↔ (id ∈ w.ctrl.nodeIds ∧ id ≠ -1) ∨ Announced w id) ∧
    (∀ v < w.count, ∃ parentId, AcceptedCreate es (w.proc v).node.id parentId ∧
      ForkedBy w v parentId) ∧
    (NothingInFlight w → ∀ id, id ∈ w.ids ↔ id ∈ w.ctrl.nodeIds ∧ id ≠ -1) := by
  have hinv := (run_invariant (h.mono fun _ _ _ hstep => hstep.1)).1
  have hreg := Registry.of_run h
  have hids : ∀ id, id ∈ w.ids ↔ (id ∈ w.ctrl.nodeIds ∧ id ≠ -1) ∨ Announced w id := by
    intro id
    constructor
    · intro hid
      obtain ⟨v, hv, rfl⟩ := List.mem_map.mp hid
      have hlt := List.mem_range.mp hv
      exact (hreg.known v hlt).imp_left fun hmem => ⟨hmem, hinv.packets.noRoot v hlt⟩
    · rintro (⟨hmem, hroot⟩ | ⟨q, pkt, hpkt, hcmd, rfl⟩)
      · exact Distinct.mem_ids_of_inTree hinv ((hinv.packets.nodeIds id hmem).resolve_left hroot)
      · exact Distinct.mem_ids_of_inTree hinv (hinv.inTree_of_create hpkt hcmd)
  refine ⟨hids, hreg.forked, fun hquiet id => ?_⟩
  rw [hids, or_iff_left]
  rintro ⟨q, pkt, hpkt, -⟩
  rw [(hquiet q).2] at hpkt
  exact List.not_mem_nil hpkt

theorem registry_agrees_with_tree_two_nodes :
    let w := nodeBelowNode.foldl World.next initial
    w.ids = [1, 2] ∧
    (∀ id, id ∈ w.ids ↔ (id ∈ w.ctrl.nodeIds ∧ id ≠ -1) ∨ Announced w id) ∧
    (∀ v < w.count, ∃ parentId, AcceptedCreate nodeBelowNode (w.proc v).node.id parentId ∧
      ForkedBy w v parentId) ∧
    (NothingInFlight w → ∀ id, id ∈ w.ids ↔ id ∈ w.ctrl.nodeIds ∧ id ≠ -1) :=
  have hrun : Possible (fun _ e => e.Succeeds) initial nodeBelowNode := by decide
  ⟨by decide, registry_agrees_with_tree hrun.run⟩

end NodeTree
