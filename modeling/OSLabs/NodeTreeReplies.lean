/-
# Replies on their way up

Relaying a message of a child, and a reply that reaches the controller, keep the invariant:
the replies of a node move up its path in the order in which it acted.
-/
import OSLabs.NodeTreeRouting

namespace NodeTree

namespace Inv

variable {w w' : World} {p c v : ℕ} {pkt : Packet} {rest : List Packet} {r : Request} {m : Message}

/-! ## Replies on their way up -/

/-- A reply of `v` is only found in the links of the path to `v`. -/
theorem replies_eq_nil (h : Inv w) (hnd : w.ids.Nodup) (hv : (w.proc v).path ≠ [])
    (hpkt : pkt ∈ (w.proc c).up) (hcv : c ∉ (w.proc v).path) :
    pkt.replies (w.proc v).node.id = [] := by
  rcases h.packets.up c pkt hpkt with ⟨r, m, rfl, u, hu, hserved⟩ | ⟨hnone, -⟩
  · refine Packet.replies_of_ne fun heq => hcv ?_
    have hpath : (w.proc u).path ≠ [] := List.ne_nil_of_mem hu
    have htarget := (h.packets.served u _ hserved).target
    have huv : u = v := ids_inj hnd (h.path_lt hpath) (h.path_lt hv) (htarget.symm.trans heq)
    exact huv ▸ hu
  · unfold Packet.replies Packet.requests
    rw [hnone]
    rfl

/-- What relaying does to each process. -/
theorem relayUp_proc (hup : (w.proc c).up = pkt :: rest) (hpc : p ≠ c) (q : ℕ) :
    (NodeTree.relayUp w p c).proc q =
      if q = p then { w.proc p with up := (w.proc p).up ++ [pkt] }
      else if q = c then { w.proc c with up := rest } else w.proc q := by
  unfold NodeTree.relayUp World.sendUp
  rw [hup]
  simp only [update_proc]
  rw [if_neg hpc]

/-- Relaying changes nothing of a process but its link to the parent. -/
theorem relayUp_frame (w : World) (p c q : ℕ) :
    ∃ u, (NodeTree.relayUp w p c).proc q = { w.proc q with up := u } := by
  unfold NodeTree.relayUp World.sendUp
  split
  · exact ⟨_, rfl⟩
  · next pkt rest hup =>
    simp only [update_proc]
    by_cases hqp : q = p
    · subst hqp
      by_cases hqc : q = c
      · subst hqc
        exact ⟨rest ++ [pkt], by simp⟩
      · exact ⟨(w.proc q).up ++ [pkt], by simp [hqc]⟩
    · by_cases hqc : q = c
      · subst hqc
        exact ⟨rest, by simp [hqp]⟩
      · exact ⟨(w.proc q).up, by simp [hqp, hqc]⟩

/-- Relaying keeps the order of the replies: a reply moves one link up the path. -/
theorem relayUp_inFlight (h : Inv w) (hnd : w.ids.Nodup)
    (hc : c ∈ pids (w.proc p).node.children) (hup : (w.proc c).up = pkt :: rest)
    (hv : (w.proc v).path ≠ []) :
    inFlight (w.proc v).path
        (fun q => ((NodeTree.relayUp w p c).proc q).replies (w.proc v).node.id) =
      inFlight (w.proc v).path fun q => (w.proc q).replies (w.proc v).node.id := by
  have hpc : p ≠ c := fun heq => h.self_notMem_children p (by rwa [← heq] at hc)
  have hpkt : pkt ∈ (w.proc c).up := by rw [hup]; exact List.mem_cons_self
  have hfirst : (w.proc c).replies (w.proc v).node.id = pkt.replies (w.proc v).node.id ++
      rest.flatMap (Packet.replies (w.proc v).node.id) := by
    rw [Process.replies, hup, List.flatMap_cons]
  have hrest : ((NodeTree.relayUp w p c).proc c).replies (w.proc v).node.id =
      rest.flatMap (Packet.replies (w.proc v).node.id) := by
    rw [relayUp_proc hup hpc, if_neg hpc.symm, if_pos rfl, Process.replies]
  have hnew : ((NodeTree.relayUp w p c).proc p).replies (w.proc v).node.id =
      (w.proc p).replies (w.proc v).node.id ++ pkt.replies (w.proc v).node.id := by
    rw [relayUp_proc hup hpc, if_pos rfl, Process.replies, List.flatMap_append,
      List.flatMap_singleton]
    rfl
  have hother : ∀ q, q ≠ p → q ≠ c →
      ((NodeTree.relayUp w p c).proc q).replies (w.proc v).node.id =
        (w.proc q).replies (w.proc v).node.id := by
    intro q hqp hqc
    rw [relayUp_proc hup hpc, if_neg hqp, if_neg hqc]
  by_cases hcv : c ∈ (w.proc v).path
  · obtain ⟨pre, post, hpath⟩ := h.tree.path_eq_of_child hv hc hcv
    have hnodup := h.tree.path_nodup v
    rw [hpath] at hnodup ⊢
    refine inFlight.relay hfirst hrest hnew (fun q hq => ?_) fun q hq => ?_
    · exact hother q (by rintro rfl; grind) (by rintro rfl; grind)
    · exact hother q (by rintro rfl; grind) (by rintro rfl; grind)
  · -- Off the path of the sender, the message holds no reply of the node.
    apply inFlight.congr
    intro q hq
    by_cases hqp : q = p
    · subst hqp
      rw [hnew, h.replies_eq_nil hnd hv hpkt hcv, List.append_nil]
    · exact hother q hqp fun heq => hcv (heq ▸ hq)

/-- What relaying adds to a link comes from below it. -/
theorem relayUp_up (h : Inv w) (hc : c ∈ pids (w.proc p).node.children)
    (hup : (w.proc c).up = pkt :: rest) {q : ℕ} {x : Packet}
    (hx : x ∈ ((NodeTree.relayUp w p c).proc q).up) : x ∈ (w.proc q).up ∨ IsUp w q x := by
  have hpc : p ≠ c := fun heq => h.self_notMem_children p (by rwa [← heq] at hc)
  rw [relayUp_proc hup hpc] at hx
  split_ifs at hx with hqp hqc
  · subst hqp
    apply (List.mem_append.mp hx).imp_right
    intro hx
    obtain rfl := List.mem_singleton.mp hx
    apply (h.packets.up c x (by rw [hup]; exact List.mem_cons_self)).imp_left
    rintro ⟨r, m, hrm, u, hcu, hserved⟩
    obtain ⟨pre, post, hpath⟩ := h.tree.path_eq_of_child (List.ne_nil_of_mem hcu) hc hcu
    exact ⟨r, m, hrm, u, by rw [hpath]; simp, hserved⟩
  · subst hqc
    rw [hup]
    exact Or.inl (List.mem_cons_of_mem _ hx)
  · exact Or.inl hx

/-- Relaying changes nothing but links of the tree. -/
theorem relayUp_relinked (w : World) (p c : ℕ) : Relinked w (NodeTree.relayUp w p c) := by
  have hframe := relayUp_frame w p c
  have hcount : (NodeTree.relayUp w p c).count = w.count ∧
      (NodeTree.relayUp w p c).ctrl = w.ctrl ∧ (NodeTree.relayUp w p c).issued = w.issued ∧
      (NodeTree.relayUp w p c).answered = w.answered := by
    unfold NodeTree.relayUp
    split
    · exact ⟨rfl, rfl, rfl, rfl⟩
    · exact ⟨rfl, rfl, rfl, rfl⟩
  obtain ⟨h₁, h₂, h₃, h₄⟩ := hcount
  refine ⟨h₁, h₂, h₃, h₄, fun q => ?_, fun q _ => ?_⟩
  · obtain ⟨u, hu⟩ := hframe q
    rw [hu]
  · obtain ⟨u, hu⟩ := hframe q
    rw [hu]

/-- **Relaying** a message of a child. -/
theorem relayUp (h : Inv w) (hc : c ∈ pids (w.proc p).node.children) :
    Inv (relayUp w p c) := by
  have hframe := relayUp_frame w p c
  cases hup : (w.proc c).up with
  | nil =>
    unfold NodeTree.relayUp
    rw [hup]
    exact h
  | cons pkt rest =>
    refine h.relinked (relayUp_relinked w p c) (fun q x hx => Or.inl ?_)
      (fun q x hx => h.relayUp_up hc hup hx) (fun _ v _ => inFlight.congr fun q _ => ?_)
      fun hnd v hv => h.relayUp_inFlight hnd hc hup hv
    · obtain ⟨u, hu⟩ := hframe q
      rwa [hu] at hx
    · obtain ⟨u, hu⟩ := hframe q
      rw [hu]
      rfl

/-- A reply to a create request names a process of the tree. -/
theorem inTree_of_create (h : Inv w) (hpkt : pkt ∈ (w.proc c).up)
    (hcmd : pkt.msg.command = .create) : InTree w pkt.msg.id := by
  rcases h.packets.up c pkt hpkt with ⟨r, m, rfl, u, -, hserved⟩ | ⟨-, hbeat⟩
  · have hs := h.packets.served u _ hserved
    have hreply := hs.reply
    unfold IsReply at hreply
    split at hreply
    · exact hreply.2.2
    · rw [hcmd] at hreply
      rcases hreply.1 with hc | hc <;> exact absurd hc (by decide)
    · next hne _ =>
      have hm : m = r.msg := hreply
      rw [hm] at hcmd
      exact absurd hcmd hne
  · rw [hcmd] at hbeat
    exact absurd hbeat (by decide)

end Inv

/-! ## Replies that reach the controller -/

theorem handleChildMessage_children (c : Controller) (now : ℤ) (m : Message) :
    (c.handleChildMessage now m).children = c.children := by
  unfold Controller.handleChildMessage
  split <;> rfl

theorem handleChildMessage_nodeIds (c : Controller) (now : ℤ) (m : Message) :
    (c.handleChildMessage now m).nodeIds =
      if m.command = .create then insert m.id c.nodeIds else c.nodeIds := by
  unfold Controller.handleChildMessage
  split <;> simp_all [Controller.print, Controller.removePendingMessage]

/-- A message leaves the link to the controller, and the reply in it counts as processed. -/
def World.deliver (w : World) (p : ℕ) (pkt : Packet) (rest : List Packet) : World :=
  { w.update p fun q => { q with up := rest } with
    answered := w.answered ++ (pkt.req.map fun r => (r, pkt.msg)).toList }

namespace Inv

variable {w w' : World} {p c v : ℕ} {pkt : Packet} {rest : List Packet} {r : Request} {m : Message}

theorem answeredBy_deliver (t : ℤ) :
    (w.deliver p pkt rest).answeredBy t = w.answeredBy t ++ pkt.replies t := by
  show (w.answered ++ (pkt.req.map fun r => (r, pkt.msg)).toList).filter _ = _
  rw [List.filter_append]
  unfold World.answeredBy Packet.replies Packet.requests
  cases pkt.req with
  | none => rfl
  | some r => by_cases hr : r.msg.id = t <;> simp [hr]

theorem deliver_proc_self (w : World) (p : ℕ) (pkt : Packet) (rest : List Packet) :
    (w.deliver p pkt rest).proc p = { w.proc p with up := rest } :=
  update_proc_self w p fun q => { q with up := rest }

theorem deliver_proc_of_ne {q : ℕ} (h : q ≠ p) : (w.deliver p pkt rest).proc q = w.proc q :=
  update_proc_of_ne w p q (fun q => { q with up := rest }) h

/-- A delivery changes nothing of a process but its upward link. -/
theorem deliver_keeps {β : Type*} (field : Process → β) (q : ℕ)
    (hf : field { w.proc p with up := rest } = field (w.proc p)) :
    field ((w.deliver p pkt rest).proc q) = field (w.proc q) :=
  update_keeps w p q (fun x => { x with up := rest }) field hf

/-- **A delivery** to the controller. -/
theorem deliver (h : Inv w) (hp : p ∈ pids w.ctrl.children) (hup : (w.proc p).up = pkt :: rest) :
    Inv (w.deliver p pkt rest) := by
  have hpath : (w.proc p).path ≠ [] := by
    rw [(h.tree.ctrlChild p hp).2]
    exact List.cons_ne_nil p []
  have hpkt : pkt ∈ (w.proc p).up := by rw [hup]; exact List.mem_cons_self
  have hself := deliver_proc_self w p pkt rest
  have hc : OneChanged w (w.deliver p pkt rest) p := by
    refine ⟨rfl, rfl, rfl, rfl, fun q hq => deliver_proc_of_ne hq, ?_, ?_, fun x hx => ?_⟩
    · rw [hself]
    · rw [hself]
    · rwa [hself]
  refine h.moveOne hc hpath (fun x hx => ?_) (fun x hx => Or.inl ?_) (fun x hx => Or.inl ?_)
    (fun r hr => Or.inl ?_) (fun x hx => ?_) fun hnd v hv hf => ?_
  · rwa [hself] at hx
  · rw [hself] at hx
    rw [hup]
    exact List.mem_cons_of_mem _ hx
  · rwa [hself] at hx
  · rw [hself] at hr ⊢
    exact ⟨hr, rfl⟩
  · apply (List.mem_append.mp hx).imp_right
    intro hx
    rcases h.packets.up p pkt hpkt with ⟨r, m, rfl, u, hu, hserved⟩ | ⟨hnone, -⟩
    · obtain rfl : x = (r, m) := by simpa using hx
      exact ⟨u, (hc.sameTree hpath).served u _ hserved⟩
    · rw [hnone] at hx
      simp at hx
  · have hfirst : (w.proc p).replies (w.proc v).node.id = pkt.replies (w.proc v).node.id ++
        rest.flatMap (Packet.replies (w.proc v).node.id) := by
      rw [Process.replies, hup, List.flatMap_cons]
    have hrest : ((w.deliver p pkt rest).proc p).replies (w.proc v).node.id =
        rest.flatMap (Packet.replies (w.proc v).node.id) := by
      rw [hself]
      rfl
    have hs := hc.sameTree hpath
    have hserved : ((w.deliver p pkt rest).proc v).served = (w.proc v).served :=
      deliver_keeps (·.served) v rfl
    have hcrashed : ((w.deliver p pkt rest).proc v).crashed = (w.proc v).crashed :=
      deliver_keeps (·.crashed) v rfl
    have hdown : ∀ q, ((w.deliver p pkt rest).proc q).down = (w.proc q).down := fun q =>
      deliver_keeps (·.down) q rfl
    constructor
    · -- requests: no link down has changed
      rw [hs.id, hs.path, hserved, hcrashed]
      show w.issuedTo _ = _
      rw [hf.requests]
      congr 1
      apply inFlight.congr
      intro q _
      unfold Process.requests
      rw [hdown]
    · -- replies: the first of link `p` is now among the answers
      rw [hs.id, hs.path, hserved, answeredBy_deliver, hf.replies, List.append_assoc]
      congr 1
      by_cases hpv : p ∈ (w.proc v).path
      · obtain ⟨post, hpost⟩ := h.tree.path_eq_of_ctrlChild hv hp hpv
        have hnodup := h.tree.path_nodup v
        rw [hpost] at hnodup ⊢
        refine inFlight.arrive hfirst hrest fun q hq => ?_
        have hqp : q ≠ p := by rintro rfl; grind
        rw [hc.other q hqp]
      · -- not a packet of `v`
        rw [h.replies_eq_nil hnd hv hpkt hpv, List.nil_append]
        refine (inFlight.congr fun q hq => ?_).symm
        have hqp : q ≠ p := fun heq => hpv (heq ▸ hq)
        rw [hc.other q hqp]

/-- **Receiving** a message of a child of the controller. -/
theorem receiveUp (h : Inv w) (hp : p ∈ pids w.ctrl.children) : Inv (receiveUp w p) := by
  unfold NodeTree.receiveUp
  split
  · exact h
  · next pkt rest hup =>
    have hinv := h.deliver hp hup
    have hnode : ∀ i ∈ (w.ctrl.handleChildMessage w.clock pkt.msg).nodeIds,
        i ∈ w.ctrl.nodeIds ∨ InTree (w.deliver p pkt rest) i := by
      intro i hi
      rw [handleChildMessage_nodeIds] at hi
      split_ifs at hi with hcmd
      · apply (Finset.mem_insert.mp hi).symm.imp_right
        intro heq
        have hc : pkt ∈ (w.proc p).up := by rw [hup]; exact List.mem_cons_self
        obtain ⟨u, hu, hid⟩ := h.inTree_of_create hc hcmd
        have hpath : ((w.deliver p pkt rest).proc u).path = (w.proc u).path :=
          deliver_keeps (·.path) u rfl
        have hnode : ((w.deliver p pkt rest).proc u).node = (w.proc u).node :=
          deliver_keeps (·.node) u rfl
        refine ⟨u, ?_, ?_⟩
        · rwa [hpath]
        · rw [hnode, hid, heq]
      · exact Or.inl hi
    refine hinv.quiet ⟨rfl, handleChildMessage_children _ _ _, ?_, hnode, rfl, rfl, fun q => ?_⟩
    · show w.ctrl.nodeIds ⊆ (w.ctrl.handleChildMessage w.clock pkt.msg).nodeIds
      rw [handleChildMessage_nodeIds]
      split_ifs
      · exact Finset.subset_insert _ _
      · exact Finset.Subset.refl _
    · exact ⟨_, rfl, rfl, rfl⟩

end Inv

end NodeTree
