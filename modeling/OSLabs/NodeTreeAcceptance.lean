/-
# Which requests are accepted

`node_ids_` admits the controller as a parent, with the id -1, and the same test admits requests.
Apart from this id only requests for created and confirmed nodes are accepted, and each of them can be
answered.
-/
import OSLabs.NodeTreeAnswers

namespace NodeTree

/-! ## The registry knows what was confirmed -/

/-- A computing node with the id was created, and the controller was told of it. -/
def Confirmed (w : World) (id : ℤ) : Prop := InTree w id ∧ Told w id

/-- **What holds in every state** that is reached while `create_process` succeeds. -/
structure Accepting (w : World) : Prop where
  inv : Inv w
  all : AllRunning w
  awaited : ∀ r ∈ w.issued, r.msg.id ≠ -1 → Awaited w r
  known : ∀ i ∈ w.ctrl.nodeIds, i = -1 ∨ Told w i
  told : ∀ i, Told w i → i ∈ w.ctrl.nodeIds

section Steps

variable {w : World} {e : Event} {id : ℤ} {r : Request} {m : Message}

theorem Awaited.next (h : Inv w) (he : e.Enabled w) (hsucceeds : e.Succeeds) (ha : Awaited w r) :
    Awaited (w.next e) r := by
  cases ha with
  | down hcopy => exact hcopy.next h he hsucceeds
  | up hreply => exact hreply.next h he
  | done hdone =>
    apply Awaited.done
    cases h.pendingChange he with
    | same _ _ hanswered => rwa [hanswered]
    | issued _ _ _ _ hanswered => rwa [hanswered]
    | checked _ _ _ hanswered => rwa [hanswered]
    | received _ _ _ _ _ _ _ hanswered =>
      rw [hanswered, List.map_append]
      exact List.mem_append_left _ hdone

/-- A broadcast puts a copy into the link at the head of the path to its node. -/
theorem Inv.awaited_broadcast (h : Inv w) (hm : IsRequest w m) (hid : m.id ≠ -1) :
    Awaited (broadcastMessage w m) ⟨w.issued.length, m⟩ := by
  obtain ⟨v, hv, hvid⟩ := hm.target.resolve_left hid
  obtain ⟨c, post, hpath, hc⟩ := h.tree.exists_head hv
  obtain ⟨d, hd, -⟩ := h.broadcastMessage_frame m v
  refine .down ⟨v, by rw [hd]; exact hvid, c, by rw [hd, hpath]; exact List.mem_cons_self, ?_⟩
  rw [h.broadcastMessage_eq]
  dsimp only
  rw [if_pos hc]
  exact List.mem_append_right _ List.mem_cons_self

/-- A new request waits for an answer. -/
theorem Inv.awaited_new (h : Inv w) (he : e.Enabled w) (hr : r ∈ (w.next e).issued)
    (hnew : r ∉ w.issued) (hid : r.msg.id ≠ -1) : Awaited (w.next e) r := by
  obtain ⟨cmd, o, rfl, -, -⟩ := h.issued_next he hr hnew
  change r ∈ (NodeTree.handleCommand w o cmd).issued at hr
  show Awaited (NodeTree.handleCommand w o cmd) r
  have hcmd := h.commanded o cmd
  generalize NodeTree.handleCommand w o cmd = w' at hcmd hr ⊢
  rcases hcmd with line | ⟨m, hm, -⟩ | ⟨id, -, -, -⟩ | ⟨id, -, -, -⟩ | ⟨id, -, -, -⟩ | ⟨time, -⟩
  · exact absurd hr hnew
  · rw [h.broadcastMessage_issued] at hr
    obtain rfl := List.mem_singleton.mp ((List.mem_append.mp hr).resolve_left hnew)
    exact h.awaited_broadcast hm hid
  · exact absurd hr hnew
  · exact absurd hr hnew
  · exact absurd hr hnew
  · rw [h.handleHeartbeatCommand_eq] at hr
    exact absurd hr hnew

/-- What the controller is told in a step, the registry knows. -/
theorem Inv.told_next (h : Inv w) (he : e.Enabled w) (hsucceeds : e.Succeeds)
    (htold : ∀ i, Told w i → i ∈ w.ctrl.nodeIds) (ht : Told (w.next e) id) :
    id ∈ (w.next e).ctrl.nodeIds := by
  have hgrow := h.nodeIds_next he
  rcases ht with hchild | ⟨r, hr, hcmd, rfl⟩
  · cases h.born_next he with
    | none _ hctrl =>
      rw [hctrl] at hchild
      exact hgrow (htold id (Or.inl hchild))
    | direct i _ _ _ _ hctrl hnodeIds =>
      rw [hctrl, List.map_append] at hchild
      rcases List.mem_append.mp hchild with hchild | hchild
      · exact hgrow (htold id (Or.inl hchild))
      · rw [hnodeIds, List.mem_singleton.mp hchild]
        exact Finset.mem_insert_self _ _
    | below _ _ _ _ _ _ _ _ _ hctrl =>
      rw [hctrl] at hchild
      exact hgrow (htold id (Or.inl hchild))
    | orphan hfail => exact absurd hsucceeds hfail
  · have hold : r ∈ w.answered.map Prod.fst → r.msg.addData ∈ (w.next e).ctrl.nodeIds :=
      fun hr => hgrow (htold _ (Or.inr ⟨r, hr, hcmd, rfl⟩))
    cases h.pendingChange he with
    | same _ _ hanswered => exact hold (hanswered ▸ hr)
    | issued _ _ _ _ hanswered => exact hold (hanswered ▸ hr)
    | checked _ _ _ hanswered => exact hold (hanswered ▸ hr)
    | received p pkt rest hevent hup _ _ hanswered =>
      rw [hanswered, List.map_append] at hr
      rcases List.mem_append.mp hr with hr | hr
      · exact hold hr
      · -- The reply to the Create request was processed just now.
        subst hevent
        have hmem : pkt ∈ (w.proc p).up := by rw [hup]; exact List.mem_cons_self
        rcases h.packets.up p pkt hmem with ⟨r', m, rfl, u, -, hserved⟩ | ⟨hnone, -⟩
        · obtain rfl : r = r' := by simpa using hr
          have hreply : IsReply w r.msg m := (h.packets.served u _ hserved).reply
          unfold IsReply at hreply
          rw [hcmd] at hreply
          show r.msg.addData ∈ (NodeTree.receiveUp w p).ctrl.nodeIds
          rw [receiveUp_of_cons hup]
          dsimp only
          rw [handleChildMessage_nodeIds, if_pos hreply.1, hreply.2.1]
          exact Finset.mem_insert_self _ _
        · rw [hnone] at hr
          cases hr

/-- **Every step in which `create_process` succeeds.** -/
theorem Accepting.next (h : Accepting w) (he : e.Enabled w) (hsucceeds : e.Succeeds) :
    Accepting (w.next e) := by
  constructor
  · exact h.inv.next he
  · exact h.all.keeps (h.inv.keepsGoing he) hsucceeds
  · intro r hr hid
    by_cases hold : r ∈ w.issued
    · exact (h.awaited r hold hid).next h.inv he hsucceeds
    · exact h.inv.awaited_new he hr hold hid
  · intro i hi
    rcases Settled.mem_nodeIds_next h.inv he hsucceeds hi with hold | hnew
    · exact (h.known i hold).imp_right (Told.next h.inv he hsucceeds)
    · exact Or.inr hnew
  · intro i hi
    exact h.inv.told_next he hsucceeds h.told hi

theorem Accepting.initial : Accepting initial := by
  constructor
  · exact Inv.initial
  · exact ⟨rfl, fun _ => rfl⟩
  · exact fun r hr => absurd hr List.not_mem_nil
  · exact fun i hi => Or.inl (Finset.mem_singleton.mp hi)
  · rintro i (hi | ⟨r, hr, -⟩)
    · cases hi
    · cases hr

/-- **Every run in which `create_process` succeeds.** -/
theorem Accepting.of_run {es : List Event} (h : Run SuccessStep NodeTree.initial es w) :
    Accepting w :=
  h.preserves (I := Accepting) (fun _ _ _ ha ⟨⟨he, heq⟩, hs⟩ => heq ▸ ha.next he hs) .initial

/-- The registry knows the confirmed nodes and the id -1. -/
theorem Accepting.mem_nodeIds_iff (h : Accepting w) (hid : id ≠ -1) :
    id ∈ w.ctrl.nodeIds ↔ Confirmed w id := by
  constructor
  · intro hmem
    exact ⟨(h.inv.packets.nodeIds id hmem).resolve_left hid, (h.known id hmem).resolve_left hid⟩
  · intro hc
    exact h.told id hc.2

/-- No node has the id -1. -/
theorem Inv.not_inTree_root (h : Inv w) : ¬ InTree w (-1) := by
  rintro ⟨v, hv, hid⟩
  exact h.packets.noRoot v (h.path_lt hv) hid

end Steps

/-! ## Accepted requests -/

/-- The node that a ping or an exec is for. -/
def Command.addressee : Command → Option ℤ
  | .ping id => some id
  | .exec id _ _ => some id
  | _ => none

/-- In some run from here on, in which `create_process` succeeds, a reply to the request is
processed. -/
def CanBeAnswered (w : World) (r : Request) : Prop :=
  ∃ es w', Run SuccessStep w es w' ∧ r ∈ w'.answered.map Prod.fst

/-- **Requests for the id are accepted rightly**: they are broadcast, become pending and can be
answered if a computing node with the id was created and confirmed, and are rejected otherwise. -/
structure AcceptsRightly (w : World) (id : ℤ) : Prop where
  accepted : Confirmed w id → ∀ cmd o, cmd.addressee = some id →
    ∃ m, m.id = id ∧ w.next (.command cmd o) = broadcastMessage w m ∧
      CanBeAnswered (broadcastMessage w m) ⟨w.issued.length, m⟩
  rejected : ¬ Confirmed w id → ∀ cmd o, cmd.addressee = some id →
    w.next (.command cmd o) = w.updateCtrl (·.print (.doesNotExist id))

section Accepted

variable {w : World} {id : ℤ} {cmd : Command} {r : Request}

/-- A request for a known id is broadcast, whatever happens to processes that start. -/
theorem exists_broadcast (hmem : id ∈ w.ctrl.nodeIds) (hcmd : cmd.addressee = some id) :
    ∃ m, m.id = id ∧ ∀ o, w.next (.command cmd o) = broadcastMessage w m := by
  cases cmd with
  | ping i =>
    obtain rfl : i = id := Option.some_inj.mp hcmd
    exact ⟨_, rfl, fun o => if_neg (not_not.mpr hmem)⟩
  | exec i key val =>
    obtain rfl : i = id := Option.some_inj.mp hcmd
    cases val with
    | none => exact ⟨_, rfl, fun o => if_neg (not_not.mpr hmem)⟩
    | some val => exact ⟨_, rfl, fun o => if_neg (not_not.mpr hmem)⟩
  | create i j => cases hcmd
  | heartbeat time => cases hcmd
  | unknown => cases hcmd

/-- A request for another id is rejected. -/
theorem rejected_of_notMem (hmem : id ∉ w.ctrl.nodeIds) (hcmd : cmd.addressee = some id)
    (o : Outcome) : w.next (.command cmd o) = w.updateCtrl (·.print (.doesNotExist id)) := by
  cases cmd with
  | ping i =>
    obtain rfl : i = id := Option.some_inj.mp hcmd
    exact if_pos hmem
  | exec i key val =>
    obtain rfl : i = id := Option.some_inj.mp hcmd
    exact if_pos hmem
  | create i j => cases hcmd
  | heartbeat time => cases hcmd
  | unknown => cases hcmd

/-- **A request for a node can be answered.** -/
theorem Accepting.canBeAnswered (h : Accepting w) (hr : r ∈ w.issued) (hid : r.msg.id ≠ -1) :
    CanBeAnswered w r := by
  obtain ⟨w', hlater, hanswered⟩ := (h.awaited r hr hid).exists_answered h.inv h.all
  obtain ⟨es, hrun⟩ := hlater.run
  exact ⟨es, w', hrun, hanswered⟩

/-- A request for the id -1 is never answered. -/
theorem Accepting.not_canBeAnswered (h : Accepting w) (hid : r.msg.id = -1) :
    ¬ CanBeAnswered w r := by
  rintro ⟨es, w', hrun, hanswered⟩
  have hinv := (hrun.preserves (I := Accepting)
    (fun _ _ _ ha ⟨⟨he, heq⟩, hs⟩ => heq ▸ ha.next he hs) h).inv
  obtain ⟨x, hx, rfl⟩ := List.mem_map.mp hanswered
  obtain ⟨v, hserved⟩ := hinv.packets.answered x hx
  have hv : (w'.proc v).path ≠ [] := by
    intro hnil
    rw [(hinv.packets.idle v hnil).2.1] at hserved
    cases hserved
  exact hinv.not_inTree_root ⟨v, hv, (hinv.packets.served v x hserved).target.symm.trans hid⟩

/-- **An id of a node** is treated rightly. -/
theorem Accepting.acceptsRightly (h : Accepting w) (hid : id ≠ -1) : AcceptsRightly w id := by
  constructor
  · intro hconfirmed cmd o hcmd
    obtain ⟨m, hm, hnext⟩ := exists_broadcast ((h.mem_nodeIds_iff hid).mpr hconfirmed) hcmd
    refine ⟨m, hm, hnext o, ?_⟩
    have hafter : Accepting (w.next (.command cmd .created)) := h.next h.all.ctrl rfl
    rw [hnext .created] at hafter
    apply hafter.canBeAnswered
    · rw [h.inv.broadcastMessage_issued]
      exact List.mem_append_right _ List.mem_cons_self
    · rw [hm]
      exact hid
  · intro hno cmd o hcmd
    exact rejected_of_notMem (fun hmem => hno ((h.mem_nodeIds_iff hid).mp hmem)) hcmd o

/-- **The id of the controller** is accepted, though no node has it. -/
theorem Accepting.not_acceptsRightly (h : Accepting w) : ¬ AcceptsRightly w (-1) := by
  intro haccepts
  have hrejected := haccepts.rejected (fun hc => h.inv.not_inTree_root hc.1) (.ping (-1)) .created rfl
  have haddressee : (Command.ping (-1)).addressee = some (-1) := rfl
  obtain ⟨m, -, hnext⟩ := exists_broadcast h.inv.packets.root haddressee
  rw [hnext .created] at hrejected
  have hissued := congrArg World.issued hrejected
  rw [h.inv.broadcastMessage_issued] at hissued
  cases List.append_right_eq_self.mp hissued

end Accepted

/-- **Only requests that some node can answer are accepted**, for exactly the ids other than -1.  In
every state that is reached while `create_process` succeeds, an accepted request can be answered
exactly if it is not for the id -1. -/
theorem accepts_rightly_iff {es : List Event} {w : World} (h : Run SuccessStep initial es w) :
    (∀ id, AcceptsRightly w id ↔ id ≠ -1) ∧
      ∀ r ∈ w.issued, CanBeAnswered w r ↔ r.msg.id ≠ -1 := by
  have hacc := Accepting.of_run h
  constructor
  · intro id
    constructor
    · rintro haccepts rfl
      exact hacc.not_acceptsRightly haccepts
    · exact hacc.acceptsRightly
  · intro r hr
    constructor
    · intro hcan hid
      exact hacc.not_canBeAnswered hid hcan
    · exact hacc.canBeAnswered hr

theorem accepts_rightly_iff_two_nodes :
    let w := nodeBelowNode.foldl World.next initial
    w.ctrl.nodeIds = {-1, 1, 2} ∧ w.issued.length = 1 ∧
    (∀ id, AcceptsRightly w id ↔ id ≠ -1) ∧
    ∀ r ∈ w.issued, CanBeAnswered w r ↔ r.msg.id ≠ -1 :=
  have hrun : Possible (fun _ e => e.Succeeds) initial nodeBelowNode := by decide
  ⟨by decide, by decide, accepts_rightly_iff hrun.run⟩

/-- **A ping for -1 is accepted** right after the start. -/
theorem ping_for_the_controller_is_accepted :
    ¬ ∀ es w id, Run SuccessStep initial es w → AcceptsRightly w id := by
  intro h
  exact Accepting.initial.not_acceptsRightly (h [] initial (-1) (.nil initial))

end NodeTree
