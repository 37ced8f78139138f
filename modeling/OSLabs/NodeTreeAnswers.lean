/-
# Every request for a node can be answered

A request for a node of the tree is on its way down to the node, or its reply is on its way up, or
the reply was processed.  While `create_process` succeeds every process runs, so the links on the way
can be worked off until the reply is processed.
-/
import OSLabs.NodeTreeSettled

namespace NodeTree

/-! ## Processes that keep going -/

/-- Everybody runs. -/
structure AllRunning (w : World) : Prop where
  ctrl : w.ctrlRunning = true
  proc : ∀ q, (w.proc q).running = true

/-- The processes stay where they are in the tree.  Only a process of the tree or the controller
stops, and only if a process fails to start. -/
structure KeepsGoing (w : World) (e : Event) (w' : World) : Prop where
  path : ∀ q < w.count, (w'.proc q).path = (w.proc q).path
  running : ∀ q < w.count, (w'.proc q).running = (w.proc q).running ∨
    ((w'.proc q).running = false ∧ (w.proc q).path ≠ [] ∧ ¬ e.Succeeds)
  fresh : ∀ q, w.count ≤ q → (w.proc q).running = true → (w'.proc q).running = true
  ctrl : w'.ctrlRunning = w.ctrlRunning ∨ (w'.ctrlRunning = false ∧ ¬ e.Succeeds)

section KeepsGoing

variable {w w' : World} {e : Event} {p : ℕ}

/-- Where every process starts, everybody keeps running. -/
theorem AllRunning.keeps (h : AllRunning w) (hk : KeepsGoing w e w') (hsucceeds : e.Succeeds) :
    AllRunning w' := by
  constructor
  · rcases hk.ctrl with hsame | ⟨-, hfail⟩
    · exact hsame.trans h.ctrl
    · exact absurd hsucceeds hfail
  · intro q
    rcases Nat.lt_or_ge q w.count with hq | hq
    · rcases hk.running q hq with hsame | ⟨-, -, hfail⟩
      · exact hsame.trans (h.proc q)
      · exact absurd hsucceeds hfail
    · exact hk.fresh q hq (h.proc q)

/-- A change that leaves the paths and the running processes alone. -/
theorem keepsGoing_of_eq (hproc : ∀ q, (w'.proc q).path = (w.proc q).path ∧
    (w'.proc q).running = (w.proc q).running) (hctrl : w'.ctrlRunning = w.ctrlRunning) :
    KeepsGoing w e w' := by
  constructor
  · intro q _
    exact (hproc q).1
  · intro q _
    exact Or.inl (hproc q).2
  · intro q _ hq
    exact (hproc q).2.trans hq
  · exact Or.inl hctrl

theorem keepsGoing_of_onlyUp (h : OnlyUp w w') (hctrl : w'.ctrlRunning = w.ctrlRunning) :
    KeepsGoing w e w' :=
  keepsGoing_of_eq (fun q => ⟨h.path q, h.running q⟩) hctrl

/-- A new process runs. -/
theorem keepsGoing_fork (w : World) (e : Event) (id : ℤ) (path : List ℕ) :
    KeepsGoing w e (w.fork id path) := by
  constructor
  · intro q hq
    rw [fork_proc_of_lt w id path hq]
  · intro q hq
    rw [fork_proc_of_lt w id path hq]
    exact Or.inl rfl
  · intro q _ hq
    rw [fork_proc]
    split_ifs
    · rfl
    · exact hq
  · exact Or.inl rfl

theorem Inv.keepsGoing_command (h : Inv w) (cmd : Command) (o : Outcome) :
    KeepsGoing w (.command cmd o) (NodeTree.handleCommand w o cmd) := by
  have hfail : ∀ o', o = o' → o' ≠ .created → ¬ (Event.command cmd o).Succeeds := by
    rintro o' rfl hne hsucceeds
    exact hne hsucceeds
  have hcmd := h.commanded o cmd
  generalize NodeTree.handleCommand w o cmd = w' at hcmd ⊢
  rcases hcmd with line | ⟨m, -, -⟩ | ⟨id, -, -, -⟩ | ⟨id, -, -, ho⟩ | ⟨id, -, -, ho⟩ | ⟨time, -⟩
  · exact keepsGoing_of_eq (fun q => ⟨rfl, rfl⟩) rfl
  · apply keepsGoing_of_eq
    · intro q
      obtain ⟨d, hd, -⟩ := h.broadcastMessage_frame m q
      rw [hd]
      exact ⟨rfl, rfl⟩
    · rw [h.broadcastMessage_eq]
  · have hfork := keepsGoing_fork w (.command cmd o) id [w.count]
    exact ⟨hfork.path, hfork.running, hfork.fresh, Or.inl rfl⟩
  · exact ⟨fun _ _ => rfl, fun _ _ => Or.inl rfl, fun _ _ hq => hq,
      Or.inr ⟨rfl, hfail _ ho (by decide)⟩⟩
  · have hfork := keepsGoing_fork w (.command cmd o) id []
    exact ⟨hfork.path, hfork.running, hfork.fresh, Or.inr ⟨rfl, hfail _ ho (by decide)⟩⟩
  · apply keepsGoing_of_eq
    · intro q
      obtain ⟨d, hd⟩ := h.handleHeartbeatCommand_frame time q
      rw [hd]
      exact ⟨rfl, rfl⟩
    · rw [h.handleHeartbeatCommand_eq]

theorem keepsGoing_forward (h : Inv w) (rest : List Packet) (pkt : Packet) :
    KeepsGoing w e (w.forward p rest pkt) := by
  apply keepsGoing_of_eq
  · intro q
    obtain ⟨d, hd⟩ := h.forward_frame p rest pkt q
    rw [hd]
    exact ⟨rfl, rfl⟩
  · rw [h.forward_eq]

/-- The process `p` of the tree throws, after a fork or before. -/
theorem keepsGoing_crash (hk : KeepsGoing w e w') (hp : (w.proc p).path ≠ []) (hlt : p < w.count)
    (hctrl : w'.ctrlRunning = w.ctrlRunning) (hfail : ¬ e.Succeeds) (rest : List Packet) (r : Request) :
    KeepsGoing w e (w'.crash p rest r) := by
  constructor
  · intro q hq
    rw [crash_path]
    exact hk.path q hq
  · intro q hq
    by_cases hqp : q = p
    · subst hqp
      rw [World.crash, update_proc_self]
      exact Or.inr ⟨rfl, hp, hfail⟩
    · rw [World.crash, update_proc_of_ne _ _ _ _ hqp]
      exact hk.running q hq
  · intro q hq hrun
    have hqp : q ≠ p := by omega
    rw [World.crash, update_proc_of_ne _ _ _ _ hqp]
    exact hk.fresh q hq hrun
  · exact Or.inl hctrl

theorem Inv.keepsGoing_receiveDown (h : Inv w) (hp : p < w.count) (o : Outcome) :
    KeepsGoing w (.receiveDown p o) (NodeTree.receiveDown w p o) := by
  have hfail : ∀ o', o = o' → o' ≠ .created → ¬ (Event.receiveDown p o).Succeeds := by
    rintro o' rfl hne hsucceeds
    exact hne hsucceeds
  have hreceived := h.received hp o
  generalize NodeTree.receiveDown w p o = w' at hreceived ⊢
  cases hreceived with
  | nothing => exact keepsGoing_of_eq (fun q => ⟨rfl, rfl⟩) rfl
  | beat pkt rest =>
    have hset : ∀ q, ((w.setNode p fun n => { n with heartbeat := pkt.msg.addData }).proc q).running =
        (w.proc q).running := fun q => update_keeps _ _ _ _ Process.running rfl
    apply keepsGoing_of_eq
    · intro q
      obtain ⟨d, hd⟩ := (h.setHeartbeat p pkt.msg.addData).forward_frame p rest pkt q
      rw [hd]
      exact ⟨setNode_path _ _ _ q, hset q⟩
    · rw [(h.setHeartbeat p pkt.msg.addData).forward_eq]
      rfl
  | other r rest => exact keepsGoing_forward h rest _
  | answered r rest =>
    apply keepsGoing_of_eq
    · intro q
      rw [serve_path, setNode_path, World.serve, update_keeps _ _ _ _ Process.running rfl,
        World.setNode, update_keeps _ _ _ _ Process.running rfl]
      exact ⟨rfl, rfl⟩
    · rfl
  | created r rest =>
    have hfork := keepsGoing_fork w (.receiveDown p o) r.msg.addData ((w.proc p).path ++ [w.count])
    have hrunning : ∀ q, (((w.attach p r.msg.addData).serve p rest r
        (.of w.clock .create r.msg.addData w.count)).proc q).running =
          ((w.fork r.msg.addData ((w.proc p).path ++ [w.count])).proc q).running := by
      intro q
      rw [World.serve, update_keeps _ _ _ _ Process.running rfl, World.attach,
        update_keeps _ _ _ _ Process.running rfl]
    constructor
    · intro q hq
      rw [serve_path]
      exact attach_keeps w p q _ Process.path (fun _ _ => rfl) hq
    · intro q hq
      rw [hrunning]
      exact hfork.running q hq
    · intro q hq hrun
      rw [hrunning]
      exact hfork.fresh q hq hrun
    · exact Or.inl rfl
  -- a step that throws is not one that succeeds
  | notForked r rest hfirst _ _ ho =>
    have hsame : KeepsGoing w (.receiveDown p o) w := keepsGoing_of_eq (fun q => ⟨rfl, rfl⟩) rfl
    exact keepsGoing_crash hsame (h.path_ne_nil hfirst.down) hp rfl (hfail _ ho (by decide)) rest r
  | notBound r rest hfirst _ _ ho =>
    exact keepsGoing_crash (keepsGoing_fork w _ _ []) (h.path_ne_nil hfirst.down) hp rfl
      (hfail _ ho (by decide)) rest r

/-- **Who stops in a step.** -/
theorem Inv.keepsGoing (h : Inv w) (he : e.Enabled w) : KeepsGoing w e (w.next e) := by
  cases e with
  | command cmd o => exact h.keepsGoing_command cmd o
  | receiveDown p o => exact h.keepsGoing_receiveDown he.1 o
  | receiveUp p =>
    apply keepsGoing_of_onlyUp (receiveUp_onlyUp w p)
    show (NodeTree.receiveUp w p).ctrlRunning = _
    unfold NodeTree.receiveUp
    split <;> rfl
  | relayUp p c =>
    apply keepsGoing_of_onlyUp (relayUp_onlyUp w p c)
    show (NodeTree.relayUp w p c).ctrlRunning = _
    unfold NodeTree.relayUp
    split <;> rfl
  | sendBeat p =>
    apply keepsGoing_of_onlyUp (sendBeat_onlyUp w p)
    show (NodeTree.sendBeat w p).ctrlRunning = _
    unfold NodeTree.sendBeat
    dsimp only
    split_ifs <;> rfl
  | _ => exact keepsGoing_of_eq (fun q => ⟨rfl, rfl⟩) rfl

end KeepsGoing

/-! ## The links down -/

/-- The process `p` takes the first message of its link, and the other links lose none. -/
structure TakesFirst (w w' : World) (p : ℕ) : Prop where
  self : (w'.proc p).down = (w.proc p).down.tail
  other : ∀ q < w.count, q ≠ p → (w.proc q).down <+: (w'.proc q).down

section Down

variable {w w' : World} {e : Event} {p q : ℕ} {pkt : Packet} {rest : List Packet}

/-- The first message was sent on. -/
theorem takesFirst_forward (h : Inv w) (hdown : (w.proc p).down = pkt :: rest) :
    TakesFirst w (w.forward p rest pkt) p := by
  have hp := h.self_notMem_children p
  rw [h.forward_eq]
  constructor
  · dsimp only
    rw [if_neg hp, if_pos rfl, hdown, List.tail_cons]
  · intro q _ hqp
    dsimp only
    rw [if_neg hqp]
    split_ifs
    · exact List.prefix_append _ _
    · exact List.prefix_rfl

/-- The first message was acted on. -/
theorem takesFirst_serve (hdown : (w.proc p).down = pkt :: rest)
    (hold : ∀ q < w.count, (w'.proc q).down = (w.proc q).down) (r : Request) (m : Message) :
    TakesFirst w (w'.serve p rest r m) p := by
  constructor
  · rw [World.serve, update_proc_self, hdown, List.tail_cons]
  · intro q hq hqp
    rw [World.serve, update_proc_of_ne _ _ _ _ hqp, hold q hq]

theorem Inv.takesFirst (h : Inv w) (hp : p < w.count) :
    TakesFirst w (NodeTree.receiveDown w p .created) p := by
  cases hdown : (w.proc p).down with
  | nil =>
    have hsame : NodeTree.receiveDown w p .created = w := by
      unfold NodeTree.receiveDown
      rw [hdown]
    rw [hsame]
    exact ⟨by rw [hdown, List.tail_nil], fun q _ _ => List.prefix_rfl⟩
  | cons pkt rest =>
    have hmem : pkt ∈ (w.proc p).down := by rw [hdown]; exact List.mem_cons_self
    rcases h.packets.down p pkt hmem with ⟨r, hr, rfl⟩ | ⟨-, hbeat⟩
    · have hreq := h.packets.request r hr
      by_cases hid : r.msg.id = (w.proc p).node.id
      · by_cases hcmd : r.msg.command = .create
        · rw [receiveDown_create hp hdown hid hcmd]
          apply takesFirst_serve hdown
          intro q hq
          exact attach_keeps w p q _ Process.down (fun _ _ => rfl) hq
        · rw [receiveDown_self hdown hreq hid hcmd]
          exact takesFirst_serve hdown (fun q _ => setNode_down _ _ _ q) r _
      · rw [receiveDown_other hdown hreq hid]
        exact takesFirst_forward h hdown
    · rw [receiveDown_beat hdown hbeat]
      have hset := h.setHeartbeat p pkt.msg.addData
      have htakes := takesFirst_forward hset ((setNode_down w p _ p).trans hdown)
      constructor
      · rw [htakes.self, setNode_down]
      · intro q hq hqp
        have hprefix := htakes.other q hq hqp
        rwa [setNode_down] at hprefix

/-- Commands take nothing from the links down. -/
theorem Inv.down_command (h : Inv w) (cmd : Command) (o : Outcome) (hq : q < w.count) :
    (w.proc q).down <+: ((NodeTree.handleCommand w o cmd).proc q).down := by
  have hcmd := h.commanded o cmd
  generalize NodeTree.handleCommand w o cmd = w' at hcmd ⊢
  rcases hcmd with line | ⟨m, -, -⟩ | ⟨id, -, -, -⟩ | ⟨id, -, -, -⟩ | ⟨id, -, -, -⟩ | ⟨time, -⟩
  · exact List.prefix_rfl
  · rw [h.broadcastMessage_eq]
    dsimp only
    split_ifs
    · exact List.prefix_append _ _
    · exact List.prefix_rfl
  · show _ <+: ((w.fork id [w.count]).proc q).down
    rw [fork_proc_of_lt w id _ hq]
  · exact List.prefix_rfl
  · show _ <+: ((w.fork id []).proc q).down
    rw [fork_proc_of_lt w id _ hq]
  · rw [h.handleHeartbeatCommand_eq]
    dsimp only
    split_ifs
    · exact List.prefix_append _ _
    · exact List.prefix_rfl

/-- **Only its own process takes a message from a link down.** -/
theorem Inv.down_next (h : Inv w) (he : e.Enabled w) (hne : ∀ o, e ≠ .receiveDown q o)
    (hsucceeds : e.Succeeds) (hq : q < w.count) :
    (w.proc q).down <+: ((w.next e).proc q).down := by
  cases e with
  | command cmd o => exact h.down_command cmd o hq
  | receiveDown p o =>
    obtain rfl : o = .created := hsucceeds
    have hqp : q ≠ p := by
      rintro rfl
      exact hne _ rfl
    exact (h.takesFirst he.1).other q hq hqp
  | receiveUp p => exact ((receiveUp_onlyUp w p).down q).symm ▸ List.prefix_rfl
  | relayUp p c => exact ((relayUp_onlyUp w p c).down q).symm ▸ List.prefix_rfl
  | sendBeat p => exact ((sendBeat_onlyUp w p).down q).symm ▸ List.prefix_rfl
  | _ => exact List.prefix_rfl

end Down

/-! ## Requests that wait for an answer -/

/-- The request is on its way to its node, or a reply to the controller, or one was processed. -/
inductive Awaited (w : World) (r : Request) : Prop
  | down (h : CopyUnderWay w r)
  | up (h : ReplyUnderWay w r)
  | done (h : r ∈ w.answered.map Prod.fst)

section Awaited

variable {w : World} {e : Event} {p q v : ℕ} {r : Request} {rest : List Packet}

/-- A copy at the head of its link: the process replies, or the copy moves down the path. -/
theorem Inv.head_moves (h : Inv w) (hdown : (w.proc q).down = ⟨r.msg, some r⟩ :: rest)
    (hid : (w.proc v).node.id = r.msg.id) (hq : q ∈ (w.proc v).path) :
    (∃ m, ⟨m, some r⟩ ∈ ((NodeTree.receiveDown w q .created).proc q).up) ∨
      ∃ pre c post, (w.proc v).path = pre ++ q :: c :: post ∧
        ⟨r.msg, some r⟩ ∈ ((NodeTree.receiveDown w q .created).proc c).down := by
  have hmem : ⟨r.msg, some r⟩ ∈ (w.proc q).down := by rw [hdown]; exact List.mem_cons_self
  obtain ⟨hr, -⟩ := h.mem_issued hmem
  have hreq := h.packets.request r hr
  have hv : (w.proc v).path ≠ [] := List.ne_nil_of_mem hq
  have hlt := h.path_lt (h.tree.path_prefix_path hv hq).1
  by_cases htarget : r.msg.id = (w.proc q).node.id
  · left
    by_cases hcmd : r.msg.command = .create
    · refine ⟨.of w.clock .create r.msg.addData w.count, ?_⟩
      rw [receiveDown_create hlt hdown htarget hcmd]
      dsimp only
      rw [World.serve, update_proc_self]
      exact List.mem_append_right _ List.mem_cons_self
    · refine ⟨(w.proc q).node.answer w.clock r.msg, ?_⟩
      rw [receiveDown_self hdown hreq htarget hcmd, World.serve, update_proc_self]
      exact List.mem_append_right _ List.mem_cons_self
  · right
    have hne : q ≠ v := by
      rintro rfl
      exact htarget hid.symm
    obtain ⟨pre, c, post, hpath, hc⟩ := h.tree.exists_next hv hq hne
    refine ⟨pre, c, post, hpath, ?_⟩
    rw [receiveDown_other hdown hreq htarget, h.forward_eq]
    dsimp only
    rw [if_pos hc]
    exact List.mem_append_right _ List.mem_cons_self

/-- **A copy stays on its way until there is a reply.** -/
theorem CopyUnderWay.next (h : Inv w) (he : e.Enabled w) (hsucceeds : e.Succeeds)
    (hc : CopyUnderWay w r) : Awaited (w.next e) r := by
  obtain ⟨v, hid, q, hq, hcopy⟩ := hc
  have hv : (w.proc v).path ≠ [] := List.ne_nil_of_mem hq
  have hlt := h.path_lt hv
  have hqlt := h.path_lt (h.tree.path_prefix_path hv hq).1
  have hpath := (h.keepsGoing he).path v hlt
  have hid' : ((w.next e).proc v).node.id = r.msg.id := (h.id_next he hlt).trans hid
  by_cases hmine : ∃ o, e = .receiveDown q o
  · obtain ⟨o, rfl⟩ := hmine
    obtain rfl : o = .created := hsucceeds
    have htakes := (h.takesFirst hqlt).self
    cases hdown : (w.proc q).down with
    | nil =>
      rw [hdown] at hcopy
      cases hcopy
    | cons pkt rest =>
      rw [hdown] at hcopy htakes
      rcases List.mem_cons.mp hcopy with rfl | hrest
      · rcases h.head_moves hdown hid hq with ⟨m, hm⟩ | ⟨pre, c, post, heq, hmem⟩
        · exact .up ⟨q, m, hm⟩
        · refine .down ⟨v, hid', c, ?_, hmem⟩
          rw [hpath, heq]
          exact List.mem_append_right _ (List.mem_cons_of_mem _ List.mem_cons_self)
      · refine .down ⟨v, hid', q, by rwa [hpath], ?_⟩
        show _ ∈ ((NodeTree.receiveDown w q .created).proc q).down
        rwa [htakes]
  · have hprefix := h.down_next he (fun o heq => hmine ⟨o, heq⟩) hsucceeds hqlt
    exact .down ⟨v, hid', q, by rwa [hpath], hprefix.subset hcopy⟩

/-- A reply is in the link of a process of the tree. -/
theorem Inv.path_of_reply (h : Inv w) {m : Message} (hreply : ⟨m, some r⟩ ∈ (w.proc q).up) :
    (w.proc q).path ≠ [] := by
  rcases h.packets.up q _ hreply with ⟨r', m', -, u, hu, -⟩ | ⟨hnone, -⟩
  · exact (h.tree.path_prefix_path (List.ne_nil_of_mem hu) hu).1
  · cases hnone

/-- **A reply stays on its way until it is processed.** -/
theorem ReplyUnderWay.next (h : Inv w) (he : e.Enabled w) (hreply : ReplyUnderWay w r) :
    Awaited (w.next e) r := by
  obtain ⟨q, m, hm⟩ := hreply
  have hq := h.path_lt (h.path_of_reply hm)
  cases e with
  | command cmd o =>
    refine .up ⟨q, m, ?_⟩
    show _ ∈ ((NodeTree.handleCommand w o cmd).proc q).up
    rwa [h.up_command cmd o hq]
  | receiveDown p o => exact .up ⟨q, m, h.up_receiveDown he.1 o hq hm⟩
  | sendBeat p => exact .up ⟨q, m, sendBeat_up w p q hm⟩
  | receiveUp p =>
    rcases up_receiveUp (p := p) hm with hstays | ⟨rest, hup⟩
    · exact .up ⟨q, m, hstays⟩
    · apply Awaited.done
      show r ∈ (NodeTree.receiveUp w p).answered.map Prod.fst
      rw [receiveUp_of_cons hup]
      exact List.mem_map_of_mem (f := Prod.fst) (List.mem_append_right _ List.mem_cons_self)
  | relayUp p c =>
    obtain ⟨q', hm'⟩ := h.up_relayUp he.2.2 hm
    exact .up ⟨q', m, hm'⟩
  | _ => exact .up ⟨q, m, hm⟩

end Awaited

/-! ## Working off the links -/

/-- `w'` comes after `w` in a run in which `create_process` succeeds. -/
structure Later (w w' : World) : Prop where
  run : ∃ es, Run SuccessStep w es w'
  inv : Inv w'
  all : AllRunning w'
  count : w.count ≤ w'.count
  path : ∀ q < w.count, (w'.proc q).path = (w.proc q).path
  id : ∀ q < w.count, (w'.proc q).node.id = (w.proc q).node.id

section Later

variable {w w' w'' : World} {e : Event} {q v : ℕ} {r : Request} {pkt : Packet}
  {back rest : List Packet}

theorem Later.refl (h : Inv w) (hall : AllRunning w) : Later w w :=
  ⟨⟨[], .nil w⟩, h, hall, le_rfl, fun _ _ => rfl, fun _ _ => rfl⟩

theorem Later.trans (h : Later w w') (h' : Later w' w'') : Later w w'' := by
  obtain ⟨es, hrun⟩ := h.run
  obtain ⟨es', hrun'⟩ := h'.run
  refine ⟨⟨es ++ es', hrun.append hrun'⟩, h'.inv, h'.all, h.count.trans h'.count, ?_, ?_⟩
  · intro q hq
    rw [h'.path q (lt_of_lt_of_le hq h.count), h.path q hq]
  · intro q hq
    rw [h'.id q (lt_of_lt_of_le hq h.count), h.id q hq]

theorem Later.next (h : Inv w) (hall : AllRunning w) (he : e.Enabled w) (hsucceeds : e.Succeeds) :
    Later w (w.next e) := by
  have hkeeps := h.keepsGoing he
  exact ⟨⟨[e], .single ⟨⟨he, rfl⟩, hsucceeds⟩⟩, h.next he, hall.keeps hkeeps hsucceeds, h.count_le_next he,
    hkeeps.path, fun q hq => h.id_next he hq⟩

/-- A process can take the messages of its link one after the other. -/
theorem exists_head_down (h : Inv w) (hall : AllRunning w) (hq : q < w.count) {front : List Packet}
    (hdown : (w.proc q).down = front ++ pkt :: back) :
    ∃ w' rest, Later w w' ∧ (w'.proc q).down = pkt :: rest := by
  induction front generalizing w with
  | nil => exact ⟨w, back, .refl h hall, hdown⟩
  | cons first front ih =>
    have hlater := Later.next (e := .receiveDown q .created) h hall ⟨hq, hall.proc q⟩ rfl
    have hrest : ((w.next (.receiveDown q .created)).proc q).down = front ++ pkt :: back := by
      show ((NodeTree.receiveDown w q .created).proc q).down = _
      rw [(h.takesFirst hq).self, hdown]
      rfl
    obtain ⟨w', rest, hlater', hhead⟩ :=
      ih hlater.inv hlater.all (lt_of_lt_of_le hq hlater.count) hrest
    exact ⟨w', rest, hlater.trans hlater', hhead⟩

/-- **A copy can reach its node.** -/
theorem exists_reply (h : Inv w) (hall : AllRunning w) (hid : (w.proc v).node.id = r.msg.id)
    (hq : q ∈ (w.proc v).path) (hcopy : ⟨r.msg, some r⟩ ∈ (w.proc q).down) :
    ∃ w', Later w w' ∧ ReplyUnderWay w' r := by
  -- The process ids ascend along the path.
  induction hn : v - q using Nat.strong_induction_on generalizing w q with
  | _ n ih =>
    have hv : (w.proc v).path ≠ [] := List.ne_nil_of_mem hq
    have hlt := h.path_lt hv
    have hqlt := h.path_lt (h.tree.path_prefix_path hv hq).1
    obtain ⟨front, back, hdown⟩ := List.append_of_mem hcopy
    obtain ⟨w₁, rest, hlater, hhead⟩ := exists_head_down h hall hqlt hdown
    have hid₁ := (hlater.id v hlt).trans hid
    have hq₁ : q ∈ (w₁.proc v).path := by rwa [hlater.path v hlt]
    have hqlt₁ := lt_of_lt_of_le hqlt hlater.count
    have hstep := Later.next (e := .receiveDown q .created) hlater.inv hlater.all
      ⟨hqlt₁, hlater.all.proc q⟩ rfl
    rcases hlater.inv.head_moves hhead hid₁ hq₁ with ⟨m, hm⟩ | ⟨pre, c, post, hpath, hcopy'⟩
    · exact ⟨_, hlater.trans hstep, q, m, hm⟩
    · have hlt₁ := lt_of_lt_of_le hlt hlater.count
      have hc : c ∈ (w₁.proc v).path := by
        rw [hpath]
        exact List.mem_append_right _ (List.mem_cons_of_mem _ List.mem_cons_self)
      have hasc := hlater.inv.tree.path_pairwise v
      rw [hpath] at hasc
      have hqc : q < c := (List.pairwise_cons.mp (List.pairwise_append.mp hasc).2.1).1 c
        List.mem_cons_self
      have hcv := (hlater.inv.tree.path_prefix_path (List.ne_nil_of_mem hc) hc).2.1
      obtain ⟨w', hlater', hreply⟩ := ih (v - c) (by omega) hstep.inv hstep.all
        ((hstep.id v hlt₁).trans hid₁) (by rwa [hstep.path v hlt₁]) hcopy' rfl
      exact ⟨w', (hlater.trans hstep).trans hlater', hreply⟩

/-- The first message of a link up can be taken: by the controller, or by the parent. -/
theorem exists_takes_up (h : Inv w) (hall : AllRunning w) (hq : (w.proc q).path ≠ [])
    (hup : (w.proc q).up = pkt :: rest) : ∃ e : Event, e.Enabled w ∧ e.Succeeds ∧
      ((w.next e).proc q).up = rest ∧
      ((∀ r, pkt.req = some r → r ∈ (w.next e).answered.map Prod.fst) ∨
        ∃ u < q, pkt ∈ ((w.next e).proc u).up) := by
  obtain ⟨-, ⟨-, hchild⟩ | ⟨u, huq, hu, -, hchild⟩⟩ := h.tree.parent q hq
  · refine ⟨.receiveUp q, ⟨hall.ctrl, hchild⟩, trivial, ?_, Or.inl ?_⟩
    · show ((NodeTree.receiveUp w q).proc q).up = rest
      rw [receiveUp_of_cons hup]
      dsimp only
      rw [update_proc_self]
    · intro r hreq
      show r ∈ (NodeTree.receiveUp w q).answered.map Prod.fst
      rw [receiveUp_of_cons hup, hreq]
      exact List.mem_map_of_mem (f := Prod.fst) (List.mem_append_right _ List.mem_cons_self)
  · have huq' : u ≠ q := Nat.ne_of_lt huq
    have hproc := Inv.relayUp_proc hup huq'
    refine ⟨.relayUp u q, ⟨h.path_lt hu, hall.proc u, hchild⟩, trivial, ?_, Or.inr ⟨u, huq, ?_⟩⟩
    · show ((NodeTree.relayUp w u q).proc q).up = rest
      rw [hproc, if_neg huq'.symm, if_pos rfl]
    · show pkt ∈ ((NodeTree.relayUp w u q).proc u).up
      rw [hproc, if_pos rfl]
      exact List.mem_append_right _ List.mem_cons_self

theorem exists_head_up (h : Inv w) (hall : AllRunning w) (hq : (w.proc q).path ≠ [])
    {front : List Packet} (hup : (w.proc q).up = front ++ pkt :: back) :
    ∃ w' rest, Later w w' ∧ (w'.proc q).up = pkt :: rest := by
  induction front generalizing w with
  | nil => exact ⟨w, back, .refl h hall, hup⟩
  | cons first front ih =>
    obtain ⟨e, he, hsucceeds, hrest, -⟩ := exists_takes_up h hall hq hup
    have hlater := Later.next h hall he hsucceeds
    have hq₁ : ((w.next e).proc q).path ≠ [] := by rwa [hlater.path q (h.path_lt hq)]
    obtain ⟨w', rest, hlater', hhead⟩ := ih hlater.inv hlater.all hq₁ hrest
    exact ⟨w', rest, hlater.trans hlater', hhead⟩

/-- **A reply can reach the controller.** -/
theorem exists_answered (h : Inv w) (hall : AllRunning w) {m : Message}
    (hreply : ⟨m, some r⟩ ∈ (w.proc q).up) :
    ∃ w', Later w w' ∧ r ∈ w'.answered.map Prod.fst := by
  -- A parent was forked before its child.
  induction q using Nat.strong_induction_on generalizing w with
  | _ q ih =>
    have hq := h.path_of_reply hreply
    obtain ⟨front, back, hup⟩ := List.append_of_mem hreply
    obtain ⟨w₁, rest, hlater, hhead⟩ := exists_head_up h hall hq hup
    have hq₁ : (w₁.proc q).path ≠ [] := by rwa [hlater.path q (h.path_lt hq)]
    obtain ⟨e, he, hsucceeds, -, hmoves⟩ := exists_takes_up hlater.inv hlater.all hq₁ hhead
    have hstep := Later.next hlater.inv hlater.all he hsucceeds
    rcases hmoves with hdone | ⟨u, huq, hmem⟩
    · exact ⟨_, hlater.trans hstep, hdone r rfl⟩
    · obtain ⟨w', hlater', hanswered⟩ := ih u huq hstep.inv hstep.all hmem
      exact ⟨w', (hlater.trans hstep).trans hlater', hanswered⟩

/-- **What waits for an answer can get it.** -/
theorem Awaited.exists_answered (h : Inv w) (hall : AllRunning w) (ha : Awaited w r) :
    ∃ w', Later w w' ∧ r ∈ w'.answered.map Prod.fst := by
  cases ha with
  | down hcopy =>
    obtain ⟨v, hid, q, hq, hmem⟩ := hcopy
    obtain ⟨w₁, hlater, q', m, hreply⟩ := exists_reply h hall hid hq hmem
    obtain ⟨w', hlater', hanswered⟩ := NodeTree.exists_answered hlater.inv hlater.all hreply
    exact ⟨w', hlater.trans hlater', hanswered⟩
  | up hreply =>
    obtain ⟨q, m, hm⟩ := hreply
    exact NodeTree.exists_answered h hall hm
  | done hdone => exact ⟨w, .refl h hall, hdone⟩

end Later

end NodeTree
