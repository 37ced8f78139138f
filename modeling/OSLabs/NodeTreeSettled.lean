/-
# No pending request is forgotten or left over

When nothing expires, `create_process` succeeds and each id is accepted once, the entries of
`pending_messages_` are the requests that have not been answered: a reply always removes the
entry of its own request, although it is looked up by a command and an id only.
-/
import OSLabs.NodeTreeRegistry

namespace NodeTree

/-! ## Runs without timeouts -/

/-- If the step checks the pending requests, none of them is expired. -/
def NoTimeout (w : World) : Event → Prop
  | .checkPending => ∀ r ∈ w.ctrl.pendingMessages, ¬ Controller.isExpired w.clock r.msg = true
  | _ => True

instance decidableNoTimeout (w : World) : (e : Event) → Decidable (NoTimeout w e)
  | .checkPending => inferInstanceAs
      (Decidable (∀ r ∈ w.ctrl.pendingMessages, ¬ Controller.isExpired w.clock r.msg = true))
  | .tick _ | .command _ _ | .receiveUp _ | .checkBeats | .receiveDown _ _ | .relayUp _ _
  | .sendBeat _ => inferInstanceAs (Decidable True)

/-- A step in which `create_process` succeeds, if it is called, and nothing expires. -/
def TimelyStep (w : World) (e : Event) (w' : World) : Prop :=
  Step w e w' ∧ e.Succeeds ∧ NoTimeout w e

/-- The ids that were accepted for creation: those of the children of the controller, and
those in the create requests. -/
def World.accepted (w : World) : List ℤ :=
  w.ctrl.children.map Node.id ++
    (w.issued.filter fun r => r.msg.command = .create).map fun r => r.msg.addData

section Accepted

variable {w : World} {e : Event} {r : Request}

theorem mem_accepted (hr : r ∈ w.issued) (hcmd : r.msg.command = .create) :
    r.msg.addData ∈ w.accepted :=
  List.mem_append_right _
    (List.mem_map_of_mem (List.mem_filter.mpr ⟨hr, decide_eq_true hcmd⟩))

/-- Two create requests for the same id are one. -/
theorem eq_of_accepted (honce : w.accepted.Nodup) {r' : Request} (hr : r ∈ w.issued)
    (hr' : r' ∈ w.issued) (hcmd : r.msg.command = .create) (hcmd' : r'.msg.command = .create)
    (heq : r.msg.addData = r'.msg.addData) : r = r' :=
  List.inj_on_of_nodup_map (List.nodup_append.mp honce).2.1
    (List.mem_filter.mpr ⟨hr, decide_eq_true hcmd⟩)
    (List.mem_filter.mpr ⟨hr', decide_eq_true hcmd'⟩) heq

/-- What was accepted stays accepted. -/
theorem Inv.accepted_sublist (h : Inv w) (he : e.Enabled w) (hsucceeds : e.Succeeds) :
    w.accepted.Sublist (w.next e).accepted := by
  have hissued : w.issued.Sublist (w.next e).issued := by
    cases h.pendingChange he with
    | same _ hissued => rw [hissued]
    | received _ _ _ _ _ _ hissued => rw [hissued]
    | checked _ _ hissued => rw [hissued]
    | issued _ _ _ hissued => rw [hissued]; exact List.sublist_append_left _ _
  have hchildren : w.ctrl.children.Sublist (w.next e).ctrl.children := by
    cases h.born_next he with
    | none _ hctrl => rw [hctrl]
    | direct _ _ _ _ _ hctrl => rw [hctrl]; exact List.sublist_append_left _ _
    | below _ _ _ _ _ _ _ _ _ hctrl => rw [hctrl]
    | orphan hfail => exact absurd hsucceeds hfail
  exact (hchildren.map _).append ((hissued.filter _).map _)

/-- An accepted create adds its id to the accepted ids. -/
theorem accepted_create {childId parentId : ℤ} (hinv : Inv w) (hchild : childId ∉ w.ctrl.nodeIds)
    (hparent : parentId ∈ w.ctrl.nodeIds) :
    (w.next (.command (.create childId parentId) .created)).accepted.Perm
      (childId :: w.accepted) := by
  show World.accepted (handleCreateCommand w childId parentId .created) |>.Perm _
  unfold handleCreateCommand
  rw [if_neg hchild, if_neg (not_not.mpr hparent)]
  split_ifs with hroot
  · show ((w.ctrl.children ++ [(⟨childId, w.count⟩ : Node)]).map Node.id ++ _).Perm _
    rw [List.map_append, List.append_assoc]
    exact List.perm_middle
  · show (World.accepted (broadcastMessage w (.of w.clock .create parentId childId))).Perm _
    rw [hinv.broadcastMessage_eq]
    show (w.ctrl.children.map Node.id ++ ((w.issued ++ [_]).filter _).map _).Perm _
    rw [List.filter_append, List.map_append, ← List.append_assoc]
    exact List.perm_append_singleton childId w.accepted

end Accepted

/-! ## Nodes that the controller was told of -/

/-- The controller was told of the node: it forked it itself, or processed the reply to the Create
request for it. -/
def Told (w : World) (id : ℤ) : Prop :=
  id ∈ w.ctrl.children.map Node.id ∨
    ∃ r ∈ w.answered.map Prod.fst, r.msg.command = .create ∧ r.msg.addData = id

/-- What the controller was told stays so. -/
theorem Told.next {w : World} {e : Event} {id : ℤ} (h : Inv w) (he : e.Enabled w)
    (hsucceeds : e.Succeeds) (ht : Told w id) : Told (w.next e) id := by
  rcases ht with hchild | ⟨r, hr, hcreate⟩
  · left
    cases h.born_next he with
    | none _ hctrl => rwa [hctrl]
    | direct _ _ _ _ _ hctrl =>
      rw [hctrl, List.map_append]
      exact List.mem_append_left _ hchild
    | below _ _ _ _ _ _ _ _ _ hctrl => rwa [hctrl]
    | orphan hfail => exact absurd hsucceeds hfail
  · right
    refine ⟨r, ?_, hcreate⟩
    cases h.pendingChange he with
    | same _ _ hanswered => rwa [hanswered]
    | issued _ _ _ _ hanswered => rwa [hanswered]
    | checked _ _ _ hanswered => rwa [hanswered]
    | received _ _ _ _ _ _ _ hanswered =>
      rw [hanswered, List.map_append]
      exact List.mem_append_left _ hr

/-! ## The invariant -/

/-- **The unanswered requests are pending**, in the order of the broadcasts, and the registry
only knows ids that were accepted and confirmed. -/
structure Settled (w : World) : Prop where
  distinct : Distinct w
  created : ∀ v < w.count, (w.proc v).node.id ∈ w.accepted
  confirmed : ∀ i ∈ w.ctrl.nodeIds, i = -1 ∨ i ∈ w.ctrl.children.map Node.id ∨
    ∃ r ∈ w.answered.map Prod.fst, r.msg.command = .create ∧ r.msg.addData = i
  parents : ∀ r ∈ w.issued, r.msg.command = .create → r.msg.id ∈ w.ctrl.nodeIds
  pending : w.ctrl.pendingMessages = w.issued.filter fun r => r ∉ w.answered.map Prod.fst

namespace Settled

variable {w : World} {e : Event} {p : ℕ} {r r₀ : Request} {m : Message} {rest : List Packet}

/-- A request whose reply is on its way is not answered yet. -/
theorem not_answered (h : Inv w) (hnd : w.ids.Nodup) (hmem : ⟨m, some r₀⟩ ∈ (w.proc p).up) :
    r₀ ∉ w.answered.map Prod.fst := by
  intro hanswered
  obtain ⟨u, hu, -, hs⟩ := h.exists_served hmem
  have hf := h.fifo hnd u (List.ne_nil_of_mem hu)
  have htarget : r₀.msg.id = (w.proc u).node.id := hs.target
  have hnodup : ((w.proc u).served.map Prod.fst).Nodup :=
    (h.packets.issued_nodup.filter _).sublist hf.served_prefix_issued.sublist
  rw [hf.replies, List.map_append] at hnodup
  refine (List.nodup_append.mp hnodup).2.2 r₀ ?_ r₀ ?_ rfl
  · obtain ⟨x, hx, rfl⟩ := List.mem_map.mp hanswered
    exact List.mem_map_of_mem (List.mem_filter.mpr ⟨hx, decide_eq_true htarget⟩)
  · have hflight : (r₀, m) ∈ inFlight (w.proc u).path
        fun q => (w.proc q).replies (w.proc u).node.id :=
      inFlight.mem_iff.mpr ⟨p, hu, Process.mem_replies.mpr ⟨hmem, htarget⟩⟩
    exact List.mem_map_of_mem hflight

theorem toPending (h : Settled w) : Pending w := by
  constructor
  · rw [h.pending]
    exact List.filter_sublist
  · intro _ r hr
    rw [h.pending] at hr
    simpa using (List.mem_filter.mp hr).2

/-- **A reply selects its own request.**  No pending create names a node as its parent that is
itself still to be confirmed, and no other pending create names the same child. -/
theorem safeReply (h : Settled w) (hinv : Inv w) (honce : w.accepted.Nodup) :
    SafeReply w (.receiveUp p) := by
  intro pkt hpkt r₀ hr₀
  obtain ⟨m, req⟩ := pkt
  obtain rfl : req = some r₀ := hr₀
  have hmem : ⟨m, some r₀⟩ ∈ (w.proc p).up := List.mem_of_mem_head? hpkt
  have hnd := h.distinct.nodup
  obtain ⟨u, -, -, hs⟩ := hinv.exists_served hmem
  have hunanswered := not_answered hinv hnd hmem
  refine ⟨Or.inl ?_, fun hcase r hr hsel => ?_⟩
  · rw [h.pending]
    exact List.mem_filter.mpr ⟨hs.issued, decide_eq_true hunanswered⟩
  · have hcmd₀ := hcase.resolve_right (not_not.mpr hnd)
    have hid : m.id = r₀.msg.addData := by
      have hreply : IsReply w r₀.msg m := hs.reply
      unfold IsReply at hreply
      rw [hcmd₀] at hreply
      exact hreply.2.1
    rw [h.pending] at hr
    obtain ⟨hissued, -⟩ := List.mem_filter.mp hr
    rw [hcmd₀] at hsel
    simp only [isAnswered, decide_eq_true_eq] at hsel
    rcases hsel with ⟨hcmd, hsel⟩ | ⟨hcmd, -, hsel⟩
    · -- The parent named by `r` would have to be confirmed already.
      exfalso
      have hknown := h.parents r hissued hcmd
      rw [hsel, hid] at hknown
      rcases h.confirmed _ hknown with hroot | hchild | ⟨r₁, hr₁, hcmd₁, heq⟩
      · exact (((hinv.packets.request r₀ hs.issued).create hcmd₀).2) hroot
      · exact (List.nodup_append.mp honce).2.2 _ hchild _
          (List.mem_map_of_mem (List.mem_filter.mpr ⟨hs.issued, decide_eq_true hcmd₀⟩)) rfl
      · obtain ⟨x, hx, rfl⟩ := List.mem_map.mp hr₁
        obtain ⟨v, hv⟩ := hinv.packets.answered x hx
        have hissued₁ := (hinv.packets.served v x hv).issued
        have hsame : x.1 = r₀ := eq_of_accepted honce hissued₁ hs.issued hcmd₁ hcmd₀ heq
        exact hunanswered (hsame ▸ hr₁)
    · have hsame : r = r₀ :=
        eq_of_accepted honce hissued hs.issued hcmd hcmd₀ (hsel.trans hid)
      rw [hsame]

/-- An accepted create repeats no id. -/
theorem freshCreate (h : Settled w) (hinv : Inv w) (hsucceeds : e.Succeeds)
    (honce : (w.next e).accepted.Nodup) : FreshCreate w e := by
  cases e with
  | command cmd o =>
    cases cmd with
    | create childId parentId =>
      obtain rfl : o = .created := hsucceeds
      intro hchild hparent _
      have hperm := accepted_create hinv hchild hparent
      have hnot := (List.nodup_cons.mp (hperm.nodup_iff.mp honce)).1
      refine ⟨fun hmem => hnot ?_, fun r hr hcmd heq => hnot ?_⟩
      · obtain ⟨v, hv, rfl⟩ := List.mem_map.mp hmem
        exact h.created v (List.mem_range.mp hv)
      · exact heq ▸ mem_accepted (hr.issued hinv) hcmd
    | _ => trivial
  | _ => trivial

theorem created_next (h : Settled w) (hinv : Inv w) (he : e.Enabled w) (hsucceeds : e.Succeeds) :
    ∀ v < (w.next e).count, ((w.next e).proc v).node.id ∈ (w.next e).accepted := by
  intro v hv
  have hgrow := (hinv.accepted_sublist he hsucceeds).subset
  by_cases hold : v < w.count
  · rw [hinv.id_next he hold]
    exact hgrow (h.created v hold)
  cases hinv.born_next he with
  | none hcount => exact absurd (hcount ▸ hv) hold
  | direct id _ _ hcount hnode hctrl =>
    obtain rfl : v = w.count := by omega
    rw [hnode, World.accepted, hctrl, List.map_append]
    exact List.mem_append_left _ (List.mem_append_right _ (List.mem_singleton.mpr rfl))
  | below q r rest _ hfirst _ hcmd hcount hnode =>
    obtain rfl : v = w.count := by omega
    rw [hnode]
    exact hgrow (mem_accepted hfirst.issued hcmd)
  | orphan hfail => exact absurd hsucceeds hfail

/-- A message from below registers an id only if it answers the create request for it. -/
theorem mem_nodeIds_receiveUp {p : ℕ} (hinv : Inv w) {i : ℤ}
    (hi : i ∈ (receiveUp w p).ctrl.nodeIds) : i ∈ w.ctrl.nodeIds ∨
      ∃ r ∈ (receiveUp w p).answered.map Prod.fst,
        r.msg.command = .create ∧ r.msg.addData = i := by
  unfold receiveUp at hi ⊢
  split at hi
  · exact Or.inl hi
  · next pkt rest hup =>
    dsimp only at hi ⊢
    rw [handleChildMessage_nodeIds] at hi
    split_ifs at hi with hcmd
    · rcases Finset.mem_insert.mp hi with rfl | hi
      · have hmem : pkt ∈ (w.proc p).up := by rw [hup]; exact List.mem_cons_self
        rcases hinv.packets.up p pkt hmem with ⟨r, m, rfl, u, -, hserved⟩ | ⟨-, hbeat⟩
        · have hs := hinv.packets.served u _ hserved
          have hreply : IsReply w r.msg m := hs.reply
          -- A message with the command of a create reply answers a create request.
          have hrcmd : r.msg.command = .create := by
            have hsettles := (hreply.settles (hinv.packets.request r hs.issued)).1
            rw [show m.command = .create from hcmd] at hsettles
            exact (Option.some.inj hsettles).symm
          unfold IsReply at hreply
          rw [hrcmd] at hreply
          refine Or.inr ⟨r, ?_, hrcmd, hreply.2.1.symm⟩
          simp
        · rw [hcmd] at hbeat
          exact absurd hbeat (by decide)
      · exact Or.inl hi
    · exact Or.inl hi

/-- The registry after a step knows what it knew, a new child of the controller, or a child
whose Create reply was just processed. -/
theorem mem_nodeIds_next (hinv : Inv w) (he : e.Enabled w) (hsucceeds : e.Succeeds) {i : ℤ}
    (hi : i ∈ (w.next e).ctrl.nodeIds) : i ∈ w.ctrl.nodeIds ∨ Told (w.next e) i := by
  cases e with
  | command cmd o =>
    cases hinv.born_next he with
    | direct id _ _ _ _ hctrl hnodeIds =>
      rw [hnodeIds] at hi
      rcases Finset.mem_insert.mp hi with rfl | hi
      · refine Or.inr (Or.inl ?_)
        rw [hctrl, List.map_append]
        exact List.mem_append_right _ (List.mem_singleton.mpr rfl)
      · exact Or.inl hi
    | below _ _ _ hevent => cases hevent
    | orphan hfail => exact absurd hsucceeds hfail
    | none hcount =>
      apply Or.inl
      change i ∈ (NodeTree.handleCommand w o cmd).ctrl.nodeIds at hi
      change (NodeTree.handleCommand w o cmd).count = w.count at hcount
      have hcmd := hinv.commanded o cmd
      generalize NodeTree.handleCommand w o cmd = w' at hcmd hi hcount
      rcases hcmd with line | ⟨m, -, -⟩ | ⟨id, -, -, -⟩ | ⟨id, -, -, -⟩ | ⟨id, -, -, -⟩ | time
      · exact hi
      · rwa [hinv.broadcastMessage_eq] at hi
      · exact absurd hcount (Nat.succ_ne_self _)
      · exact hi
      · exact hi
      · rwa [hinv.handleHeartbeatCommand_eq] at hi
  | receiveUp p => exact (mem_nodeIds_receiveUp hinv hi).imp_right Or.inr
  | checkPending => exact Or.inl ((Inv.checkPendingMessages_keeps w.ctrl w.clock).2 ▸ hi)
  | receiveDown p o => exact Or.inl ((congrArg Controller.nodeIds (hinv.receiveDown_ctrl he.1 o).1) ▸ hi)
  | relayUp p c => exact Or.inl ((congrArg Controller.nodeIds (Inv.relayUp_relinked w p c).ctrl) ▸ hi)
  | sendBeat p => exact Or.inl ((congrArg Controller.nodeIds (sendBeat_ctrl w p).1) ▸ hi)
  | _ => exact Or.inl hi

/-- **Every timely step keeps the unanswered requests pending.** -/
theorem pending_next (h : Settled w) (hinv : Inv w) (he : e.Enabled w) (htimely : NoTimeout w e)
    (honce : w.accepted.Nodup) : (w.next e).ctrl.pendingMessages =
      (w.next e).issued.filter fun r => r ∉ (w.next e).answered.map Prod.fst := by
  cases hinv.pendingChange he with
  | same hpending hissued hanswered => rw [hpending, hissued, hanswered, h.pending]
  | issued r htag hpending hissued hanswered =>
    -- The new request has a number that no answered request has.
    have hnew : r ∉ w.answered.map Prod.fst := by
      intro hmem
      obtain ⟨x, hx, rfl⟩ := List.mem_map.mp hmem
      obtain ⟨u, hu⟩ := hinv.packets.answered x hx
      have := hinv.tag_lt (hinv.packets.served u x hu).issued
      omega
    rw [hpending, hissued, hanswered, h.pending, List.filter_append, List.filter_singleton,
      decide_eq_true hnew]
    rfl
  | received p pkt rest hp hup hpending hissued hanswered =>
    subst hp
    obtain ⟨m, req⟩ := pkt
    cases req with
    | none =>
      have hbeat : m.command = .heartBeat := by
        rcases hinv.packets.up p _ (by rw [hup]; exact List.mem_cons_self) with
          ⟨r, m', heq, -⟩ | ⟨-, hbeat⟩
        · exact absurd (Packet.mk.inj heq).2.symm (Option.some_ne_none r)
        · exact hbeat
      rw [hpending, Pending.settle_beat hbeat, hissued, hanswered, h.pending]
      simp only [Option.map_none, Option.toList_none, List.append_nil]
    | some r₀ =>
      rw [hpending, h.toPending.settle_eq hinv he.2 hup (h.safeReply hinv honce), hissued,
        hanswered, h.pending, List.filter_filter]
      apply List.filter_congr
      intro r _
      rw [← Bool.decide_and]
      apply decide_eq_decide.mpr
      rw [List.map_append, List.mem_append, not_or, and_comm]
      simp
  | checked hcheck hpending hissued hanswered =>
    subst hcheck
    rw [hpending, hissued, hanswered, ← h.pending]
    apply List.filter_eq_self.mpr
    intro r hr
    simpa using htimely r hr

/-- **Every timely step keeps the invariant**, while no id is accepted twice. -/
theorem next (h : Settled w) (hinv : Inv w) (he : e.Enabled w) (hsucceeds : e.Succeeds)
    (htimely : NoTimeout w e) (honce : (w.next e).accepted.Nodup) : Settled (w.next e) := by
  have honce₀ : w.accepted.Nodup := honce.sublist (hinv.accepted_sublist he hsucceeds)
  have hgrow := hinv.nodeIds_next he
  refine ⟨h.distinct.next hinv he (h.freshCreate hinv hsucceeds honce),
    h.created_next hinv he hsucceeds, fun i hi => ?_, fun r hr hcmd => ?_,
    h.pending_next hinv he htimely honce₀⟩
  · rcases mem_nodeIds_next hinv he hsucceeds hi with hold | hnew
    · exact (h.confirmed i hold).imp_right (Told.next hinv he hsucceeds)
    · exact Or.inr hnew
  · by_cases hold : r ∈ w.issued
    · exact hgrow (h.parents r hold hcmd)
    · obtain ⟨_, _, -, -, hcreate⟩ := hinv.issued_next he hr hold
      exact hgrow (hcreate hcmd).2.2

theorem initial : Settled initial := by
  have hnone : ∀ r, ¬ Travelling NodeTree.initial r := fun r ht =>
    absurd (ht.issued Inv.initial) List.not_mem_nil
  refine ⟨⟨List.nodup_nil, fun r hr => absurd hr (hnone r), fun r r' hr => absurd hr (hnone r)⟩,
    fun v hv => absurd hv (Nat.not_lt_zero v), fun i hi => Or.inl (Finset.mem_singleton.mp hi),
    fun r hr => absurd hr List.not_mem_nil, rfl⟩

/-- **Every run of timely steps** that accepts no id twice. -/
theorem of_run {es : List Event} (h : Run TimelyStep NodeTree.initial es w)
    (honce : w.accepted.Nodup) : Inv w ∧ Settled w := by
  have hall := h.preserves (I := fun w => Inv w ∧ (w.accepted.Nodup → Settled w)) ?_
    ⟨Inv.initial, fun _ => initial⟩
  · exact ⟨hall.1, hall.2 honce⟩
  · rintro w e w' ⟨hinv, hs⟩ ⟨⟨he, rfl⟩, hsucceeds, htimely⟩
    refine ⟨hinv.next he, fun honce => ?_⟩
    exact (hs (honce.sublist (hinv.accepted_sublist he hsucceeds))).next hinv he hsucceeds
      htimely honce

end Settled

/-! ## Requests that are under way -/

/-- A copy of the request is in a link on the path to the node that it is for. -/
def CopyUnderWay (w : World) (r : Request) : Prop :=
  ∃ v, (w.proc v).node.id = r.msg.id ∧ ∃ q ∈ (w.proc v).path, ⟨r.msg, some r⟩ ∈ (w.proc q).down

/-- A reply to the request is in a link. -/
def ReplyUnderWay (w : World) (r : Request) : Prop :=
  ∃ q m, ⟨m, some r⟩ ∈ (w.proc q).up

section UnderWay

variable {w : World} {r : Request}

/-- **A request for a node of the tree is answered or under way**, and not both. -/
theorem Inv.underWay_iff (h : Inv w) (hnd : w.ids.Nodup) (hcrashed : ∀ v, (w.proc v).crashed = none)
    (hr : r ∈ w.issued) (hroot : r.msg.id ≠ -1) :
    r ∉ w.answered.map Prod.fst ↔ CopyUnderWay w r ∨ ReplyUnderWay w r := by
  obtain ⟨v, hv, hid⟩ := (h.packets.request r hr).target.resolve_left hroot
  have hf := h.fifo hnd v hv
  have hmem : r ∈ w.issuedTo (w.proc v).node.id := List.mem_filter.mpr ⟨hr, decide_eq_true hid.symm⟩
  constructor
  · intro hnot
    rw [hf.requests, hcrashed v, hf.replies, List.map_append] at hmem
    rcases List.mem_append.mp hmem with hmem | hcopy
    · rcases List.mem_append.mp hmem with hmem | hnone
      · rcases List.mem_append.mp hmem with hanswered | hreply
        · obtain ⟨x, hx, rfl⟩ := List.mem_map.mp hanswered
          exact absurd (List.mem_map_of_mem (List.mem_filter.mp hx).1) hnot
        · obtain ⟨x, hx, rfl⟩ := List.mem_map.mp hreply
          obtain ⟨q, -, hq⟩ := inFlight.mem_iff.mp hx
          exact Or.inr ⟨q, x.2, (Process.mem_replies.mp hq).1⟩
      · exact absurd hnone List.not_mem_nil
    · obtain ⟨q, hq, hqr⟩ := inFlight.mem_iff.mp hcopy
      obtain ⟨pkt, hpkt, hreq, -⟩ := Process.mem_requests.mp hqr
      obtain ⟨m, req⟩ := pkt
      obtain rfl : req = some r := hreq
      obtain ⟨-, rfl⟩ := h.mem_issued hpkt
      exact Or.inl ⟨v, hid, q, List.mem_reverse.mp hq, hpkt⟩
  · rintro (⟨u, hu, q, hq, hcopy⟩ | ⟨q, m, hreply⟩) hanswered
    · -- What was answered was acted on, and nothing that was acted on is still on its way down.
      obtain rfl : u = v :=
        ids_inj hnd (h.path_lt (List.ne_nil_of_mem hq)) (h.path_lt hv) (hu.trans hid.symm)
      have hnodup : (w.issuedTo (w.proc u).node.id).Nodup := h.packets.issued_nodup.filter _
      rw [hf.requests] at hnodup
      refine (List.nodup_append.mp hnodup).2.2 r ?_ r ?_ rfl
      · obtain ⟨x, hx, rfl⟩ := List.mem_map.mp hanswered
        refine List.mem_append_left _ (List.mem_map_of_mem ?_)
        rw [hf.replies]
        exact List.mem_append_left _ (List.mem_filter.mpr ⟨hx, decide_eq_true hid.symm⟩)
      · exact inFlight.mem_iff.mpr ⟨q, List.mem_reverse.mpr hq,
          Process.mem_requests.mpr ⟨_, hcopy, rfl, hid.symm⟩⟩
    · exact Settled.not_answered h hnd hreply hanswered

end UnderWay

/-- **No pending request is forgotten or left over.**  In every run without timeouts in which
`create_process` succeeds, each id is accepted once and no request is for the id -1, the pending
requests are the unanswered ones, each once and in the order of the broadcasts.  Each of them
has a copy on its way to its node or a reply on its way to the controller, and so there are
none when no message is in flight. -/
theorem pending_are_the_requests_under_way {es : List Event} {w : World}
    (h : Run TimelyStep initial es w) (honce : w.accepted.Nodup)
    (htarget : ∀ r ∈ w.issued, r.msg.id ≠ -1) :
    w.ctrl.pendingMessages.Nodup ∧
    (w.ctrl.pendingMessages = w.issued.filter fun r => r ∉ w.answered.map Prod.fst) ∧
    (∀ r, r ∈ w.ctrl.pendingMessages ↔
      r ∈ w.issued ∧ (CopyUnderWay w r ∨ ReplyUnderWay w r)) ∧
    (NothingInFlight w → w.ctrl.pendingMessages = []) := by
  obtain ⟨hinv, hs⟩ := Settled.of_run h honce
  have hcrashed : ∀ v, (w.proc v).crashed = none :=
    crashed_eq_none_of_success (h.mono fun _ _ _ hstep => ⟨hstep.1, hstep.2.1⟩)
  have hmem : ∀ r, r ∈ w.ctrl.pendingMessages ↔
      r ∈ w.issued ∧ (CopyUnderWay w r ∨ ReplyUnderWay w r) := by
    intro r
    rw [hs.pending, List.mem_filter, decide_eq_true_eq]
    apply and_congr_right
    intro hr
    exact hinv.underWay_iff hs.distinct.nodup hcrashed hr (htarget r hr)
  refine ⟨?_, hs.pending, hmem, fun hquiet => ?_⟩
  · rw [hs.pending]
    exact hinv.packets.issued_nodup.filter _
  · apply List.eq_nil_iff_forall_not_mem.mpr
    intro r hr
    rcases ((hmem r).mp hr).2 with ⟨v, -, q, -, hcopy⟩ | ⟨q, m, hreply⟩
    · rw [(hquiet q).1] at hcopy
      exact List.not_mem_nil hcopy
    · rw [(hquiet q).2] at hreply
      exact List.not_mem_nil hreply

theorem pending_are_the_requests_under_way_two_pings :
    let w := twoPings.foldl World.next initial
    w.ctrl.pendingMessages.length = 2 ∧
    w.ctrl.pendingMessages.Nodup ∧
    (w.ctrl.pendingMessages = w.issued.filter fun r => r ∉ w.answered.map Prod.fst) ∧
    (∀ r, r ∈ w.ctrl.pendingMessages ↔
      r ∈ w.issued ∧ (CopyUnderWay w r ∨ ReplyUnderWay w r)) ∧
    (NothingInFlight w → w.ctrl.pendingMessages = []) :=
  have hrun : Possible (fun w e => e.Succeeds ∧ NoTimeout w e) initial twoPings := by decide
  ⟨by decide, pending_are_the_requests_under_way hrun.run (by decide) (by decide)⟩

end NodeTree
