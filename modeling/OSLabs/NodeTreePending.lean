/-
# When a pending request is settled by its own reply

`remove_pending_message` looks for the first entry with the command and the id of a reply, so
a late reply can remove the entry of a newer request.  Over first-in-first-out links with
distinct ids the first such entry is the right one, as long as the request of the reply is
still pending itself.
-/
import OSLabs.NodeTreeIds

namespace NodeTree

/-! ## What a step does to the pending requests -/

/-- The command that `remove_pending_message` is called with for a reply, if it is called. -/
def CommandType.settles : CommandType → Option CommandType
  | .create => some .create
  | .ping => some .ping
  | .execErr => some .execFnd
  | .execAdd => some .execAdd
  | .execFnd => some .execFnd
  | _ => Option.none

/-- The pending requests after a reply. -/
def settle (m : Message) (pending : List Request) : List Request :=
  match m.command.settles with
  | some cmd => pending.eraseP fun r => isAnswered cmd m.id r.msg
  | none => pending

theorem handleChildMessage_pending (c : Controller) (now : ℤ) (m : Message) :
    (c.handleChildMessage now m).pendingMessages = settle m c.pendingMessages := by
  unfold Controller.handleChildMessage settle
  cases m.command <;> rfl

/-- **What a step can do to the pending requests**, and to the record of requests and replies. -/
inductive PendingChange (w : World) (e : Event) (w' : World) : Prop
  | same (hpending : w'.ctrl.pendingMessages = w.ctrl.pendingMessages)
      (hissued : w'.issued = w.issued) (hanswered : w'.answered = w.answered)
  | issued (r : Request) (htag : r.tag = w.issued.length)
      (hpending : w'.ctrl.pendingMessages = w.ctrl.pendingMessages ++ [r])
      (hissued : w'.issued = w.issued ++ [r]) (hanswered : w'.answered = w.answered)
  | received (p : ℕ) (pkt : Packet) (rest : List Packet) (he : e = .receiveUp p)
      (hup : (w.proc p).up = pkt :: rest)
      (hpending : w'.ctrl.pendingMessages = settle pkt.msg w.ctrl.pendingMessages)
      (hissued : w'.issued = w.issued)
      (hanswered : w'.answered = w.answered ++ (pkt.req.map fun r => (r, pkt.msg)).toList)
  | checked (he : e = .checkPending)
      (hpending : w'.ctrl.pendingMessages =
        w.ctrl.pendingMessages.filter fun r => ¬ Controller.isExpired w.clock r.msg)
      (hissued : w'.issued = w.issued) (hanswered : w'.answered = w.answered)

section Change

variable {w : World} {e : Event}

theorem Inv.pendingChange_command (h : Inv w) (cmd : Command) (o : Outcome) :
    PendingChange w (.command cmd o) (NodeTree.handleCommand w o cmd) := by
  have hcmd := h.commanded o cmd
  generalize NodeTree.handleCommand w o cmd = w' at hcmd ⊢
  rcases hcmd with line | ⟨m, -, -⟩ | ⟨id, -, -, -⟩ | ⟨id, -, -, -⟩ | ⟨id, -, -, -⟩ | time
  · exact .same rfl rfl rfl
  · rw [h.broadcastMessage_eq]
    exact .issued ⟨w.issued.length, m⟩ rfl rfl rfl rfl
  · exact .same rfl rfl rfl
  · exact .same rfl rfl rfl
  · exact .same rfl rfl rfl
  · rw [h.handleHeartbeatCommand_eq]
    exact .same rfl rfl rfl

/-- Handling a message of the parent does not concern the controller. -/
theorem Inv.receiveDown_ctrl (h : Inv w) {p : ℕ} (hp : p < w.count) (o : Outcome) :
    (NodeTree.receiveDown w p o).ctrl = w.ctrl ∧ (NodeTree.receiveDown w p o).issued = w.issued ∧
      (NodeTree.receiveDown w p o).answered = w.answered := by
  have hreceived := h.received hp o
  generalize NodeTree.receiveDown w p o = w' at hreceived ⊢
  cases hreceived with
  | beat pkt rest =>
    rw [(h.setHeartbeat p _).forward_eq]
    exact ⟨rfl, rfl, rfl⟩
  | other r rest =>
    rw [h.forward_eq]
    exact ⟨rfl, rfl, rfl⟩
  | _ => exact ⟨rfl, rfl, rfl⟩

/-- **Every step changes the pending requests in one of the four ways.** -/
theorem Inv.pendingChange (h : Inv w) (he : e.Enabled w) : PendingChange w e (w.next e) := by
  cases e with
  | tick now => exact .same rfl rfl rfl
  | command cmd o => exact h.pendingChange_command cmd o
  | receiveUp p =>
    show PendingChange w _ (NodeTree.receiveUp w p)
    unfold NodeTree.receiveUp
    split
    · exact .same rfl rfl rfl
    · next pkt rest hup =>
      exact .received p pkt rest rfl hup (handleChildMessage_pending _ _ _) rfl rfl
  | checkPending => exact .checked rfl rfl rfl rfl
  | checkBeats => exact .same rfl rfl rfl
  | receiveDown p o =>
    obtain ⟨h₁, h₂, h₃⟩ := h.receiveDown_ctrl he.1 o
    exact .same (congrArg Controller.pendingMessages h₁) h₂ h₃
  | relayUp p c =>
    show PendingChange w _ (NodeTree.relayUp w p c)
    unfold NodeTree.relayUp
    split <;> exact .same rfl rfl rfl
  | sendBeat p =>
    obtain ⟨hctrl, hanswered⟩ := sendBeat_ctrl w p
    exact .same (congrArg Controller.pendingMessages hctrl) (sendBeat_onlyUp w p).issued hanswered

end Change

/-! ## The order of the requests -/

section Order

variable {w : World} {e : Event} {r r₀ : Request} {m : Message} {p : ℕ} {rest : List Packet}

theorem Packets.issued_sorted (h : Packets w) : w.issued.Pairwise fun a b => a.tag < b.tag := by
  rw [← List.pairwise_map, h.tags]
  exact List.pairwise_lt_range

/-- A request is only known after it was broadcast. -/
theorem Inv.tag_lt (h : Inv w) (hr : r ∈ w.issued) : r.tag < w.issued.length := by
  have hmem : r.tag ∈ w.issued.map Request.tag := List.mem_map_of_mem hr
  rw [h.packets.tags] at hmem
  exact List.mem_range.mp hmem

/-- Where a reply in a link comes from. -/
theorem Inv.exists_served (h : Inv w) (hmem : ⟨m, some r₀⟩ ∈ (w.proc p).up) :
    ∃ u, p ∈ (w.proc u).path ∧ (r₀, m) ∈ (w.proc u).served ∧ IsServed w u (r₀, m) := by
  rcases h.packets.up p _ hmem with ⟨r, m', heq, u, hu, hserved⟩ | ⟨hnone, -⟩
  · obtain ⟨rfl, hr⟩ := Packet.mk.inj heq
    obtain rfl := Option.some.inj hr
    exact ⟨u, hu, hserved, h.packets.served u _ hserved⟩
  · exact absurd hnone (Option.some_ne_none r₀)

/-- A reply selects pending requests by the command of its own request, and its own request is
one of those that it selects. -/
theorem IsReply.settles {q : Message} (h : IsReply w q m) (hq : IsRequest w q) :
    m.command.settles = some q.command ∧ isAnswered q.command m.id q = true := by
  unfold IsReply at h
  unfold isAnswered
  rcases hq.kind with hk | hk | hk | hk
  · rw [hk] at h
    obtain ⟨h₁, h₂, -⟩ := h
    rw [h₁, hk, h₂]
    exact ⟨rfl, by simp⟩
  · rw [hk] at h
    obtain rfl : m = q := h
    rw [hk]
    exact ⟨rfl, by simp⟩
  · rw [hk] at h
    obtain rfl : m = q := h
    rw [hk]
    exact ⟨rfl, by simp⟩
  · rw [hk] at h
    obtain ⟨h₁ | h₁, h₂⟩ := h
    · rw [h₁, hk, h₂]
      exact ⟨rfl, by simp⟩
    · rw [h₁, hk, h₂]
      exact ⟨rfl, by simp⟩

/-- A reply to a request other than a create carries the id of the request. -/
theorem IsReply.id_eq {q : Message} (h : IsReply w q m) (hq : q.command ≠ .create) :
    m.id = q.id := by
  unfold IsReply at h
  split at h
  · next hc => exact absurd hc hq
  · exact h.2
  · rw [h]

/-- **An older request for the same node has been answered** when a reply of that node reaches
the controller. -/
theorem Inv.older_answered (h : Inv w) (hnd : w.ids.Nodup) (hp : p ∈ pids w.ctrl.children)
    (hup : (w.proc p).up = ⟨m, some r₀⟩ :: rest) (hr : r ∈ w.issued)
    (hid : r.msg.id = r₀.msg.id) (htag : r.tag < r₀.tag) : r ∈ w.answered.map Prod.fst := by
  obtain ⟨u, hu, hserved, hs⟩ :=
    h.exists_served (by rw [hup]; exact List.mem_cons_self : ⟨m, some r₀⟩ ∈ (w.proc p).up)
  have hupath : (w.proc u).path ≠ [] := List.ne_nil_of_mem hu
  have hf := h.fifo hnd u hupath
  have htarget : r₀.msg.id = (w.proc u).node.id := hs.target
  -- The reply is the first in flight, behind the processed ones.
  obtain ⟨post, hpost⟩ := h.tree.path_eq_of_ctrlChild hupath hp hu
  have hfirst : (w.proc p).replies (w.proc u).node.id =
      (r₀, m) :: rest.flatMap (Packet.replies (w.proc u).node.id) := by
    rw [Process.replies, hup, List.flatMap_cons, Packet.replies_self htarget]
    rfl
  have hreplies := hf.replies
  rw [hpost, inFlight.cons, hfirst, List.cons_append] at hreplies
  have hissued := hf.requests
  rw [hreplies, List.map_append, List.map_cons, List.append_assoc, List.append_assoc,
    List.cons_append] at hissued
  have hsorted : (w.issuedTo (w.proc u).node.id).Pairwise fun a b => a.tag < b.tag :=
    h.packets.issued_sorted.filter _
  have hmem : r ∈ w.issuedTo (w.proc u).node.id :=
    List.mem_filter.mpr ⟨hr, decide_eq_true (hid.trans htarget)⟩
  rw [hissued] at hsorted hmem
  -- What stands behind the request of the reply is newer.
  rcases List.mem_append.mp hmem with hbefore | hbehind
  · obtain ⟨x, hx, rfl⟩ := List.mem_map.mp hbefore
    exact List.mem_map_of_mem (List.mem_filter.mp hx).1
  · have hnewer := List.pairwise_cons.mp (List.pairwise_append.mp hsorted).2.1
    rcases List.mem_cons.mp hbehind with rfl | hbehind
    · exact absurd htag (Nat.lt_irrefl _)
    · exact absurd (hnewer.1 r hbehind) (Nat.lt_asymm htag)

end Order

/-! ## Pending requests -/

/-- The request leaves the pending ones for a good reason: the first message of the link is the
reply to it, or it is expired. -/
def SettledRightly (w : World) (r : Request) : Event → Prop
  | .receiveUp p => (w.proc p).up.head?.bind Packet.req = some r
  | .checkPending => Controller.isExpired w.clock r.msg = true
  | _ => False

/-- The reply `m` to the request `r₀` selects its own entry or none: the request is pending
itself, or no pending request is selected; and, for a create or where two nodes have the same
id, no older pending request is selected. -/
def SelectsOwn (w : World) (r₀ : Request) (m : Message) : Prop :=
  (r₀ ∈ w.ctrl.pendingMessages ∨
    ∀ r ∈ w.ctrl.pendingMessages, ¬ isAnswered r₀.msg.command m.id r.msg) ∧
  (r₀.msg.command = .create ∨ ¬ w.ids.Nodup →
    ∀ r ∈ w.ctrl.pendingMessages, isAnswered r₀.msg.command m.id r.msg → r₀.tag ≤ r.tag)

/-- If the step processes a reply, the reply selects its own entry or none. -/
def SafeReply (w : World) : Event → Prop
  | .receiveUp p => ∀ pkt ∈ (w.proc p).up.head?, ∀ r₀ ∈ pkt.req, SelectsOwn w r₀ pkt.msg
  | _ => True

/-- A step with a safe reply, if any. -/
def SafeStep (w : World) (e : Event) (w' : World) : Prop := Step w e w' ∧ SafeReply w e

instance decidableSettledRightly (w : World) (r : Request) :
    (e : Event) → Decidable (SettledRightly w r e)
  | .receiveUp p => inferInstanceAs (Decidable ((w.proc p).up.head?.bind Packet.req = some r))
  | .checkPending => inferInstanceAs (Decidable (Controller.isExpired w.clock r.msg = true))
  | .tick _ | .command _ _ | .checkBeats | .receiveDown _ _ | .relayUp _ _ | .sendBeat _ =>
    inferInstanceAs (Decidable False)

instance (w : World) (r₀ : Request) (m : Message) : Decidable (SelectsOwn w r₀ m) :=
  inferInstanceAs (Decidable (_ ∧ _))

instance decidableSafeReply (w : World) : (e : Event) → Decidable (SafeReply w e)
  | .receiveUp p => inferInstanceAs
      (Decidable (∀ pkt ∈ (w.proc p).up.head?, ∀ r₀ ∈ pkt.req, SelectsOwn w r₀ pkt.msg))
  | .tick _ | .command _ _ | .checkPending | .checkBeats | .receiveDown _ _ | .relayUp _ _
  | .sendBeat _ => inferInstanceAs (Decidable True)

/-- **The pending requests** are in the order of the broadcasts, and with distinct ids none of
them has been answered. -/
structure Pending (w : World) : Prop where
  issued : w.ctrl.pendingMessages.Sublist w.issued
  unanswered : w.ids.Nodup → ∀ r ∈ w.ctrl.pendingMessages, r ∉ w.answered.map Prod.fst

namespace Pending

variable {w w' : World} {e : Event} {r r₀ : Request} {m : Message} {p : ℕ} {rest : List Packet}

theorem sorted (h : Pending w) (hinv : Inv w) :
    w.ctrl.pendingMessages.Pairwise fun a b => a.tag < b.tag :=
  hinv.packets.issued_sorted.sublist h.issued

/-- **A safe reply settles its own request**, and no other one. -/
theorem settle_eq (h : Pending w) (hinv : Inv w) (hp : p ∈ pids w.ctrl.children)
    (hup : (w.proc p).up = ⟨m, some r₀⟩ :: rest) (hsafe : SafeReply w (.receiveUp p)) :
    settle m w.ctrl.pendingMessages = w.ctrl.pendingMessages.filter fun r => r ≠ r₀ := by
  obtain ⟨u, -, -, hs⟩ :=
    hinv.exists_served (by rw [hup]; exact List.mem_cons_self : ⟨m, some r₀⟩ ∈ (w.proc p).up)
  have hreq := hinv.packets.request r₀ hs.issued
  have hreply : IsReply w r₀.msg m := hs.reply
  obtain ⟨hsettles, hself⟩ := hreply.settles hreq
  obtain ⟨hown, holder⟩ := hsafe _ (by rw [hup]; rfl) r₀ rfl
  unfold settle
  rw [hsettles]
  dsimp only
  by_cases hmem : r₀ ∈ w.ctrl.pendingMessages
  · -- No entry before the own one is selected.
    have hsorted := h.sorted hinv
    obtain ⟨l₁, l₂, hsplit⟩ := List.append_of_mem hmem
    rw [hsplit] at hsorted
    obtain ⟨hs₁, hs₂, hcross⟩ := List.pairwise_append.mp hsorted
    have hfirst : ∀ r ∈ l₁, ¬ isAnswered r₀.msg.command m.id r.msg = true := by
      intro r hr hsel
      have hrmem : r ∈ w.ctrl.pendingMessages := by
        rw [hsplit]
        exact List.mem_append_left _ hr
      have htag := hcross r hr r₀ List.mem_cons_self
      by_cases hcase : r₀.msg.command = .create ∨ ¬ w.ids.Nodup
      · have := holder hcase r hrmem hsel
        omega
      · obtain ⟨hcmd, hnd⟩ := not_or.mp hcase
        have hnd := not_not.mp hnd
        have hid : r.msg.id = r₀.msg.id := by
          have hm : m.id = r₀.msg.id := hreply.id_eq hcmd
          simp only [isAnswered, decide_eq_true_eq] at hsel
          exact hsel.elim (fun h => h.2.trans hm) fun h => absurd (h.1.symm.trans h.2.1) hcmd
        exact h.unanswered hnd r hrmem
          (hinv.older_answered hnd hp hup (h.issued.subset hrmem) hid htag)
    have herase : (r₀ :: l₂).eraseP (fun r => isAnswered r₀.msg.command m.id r.msg) = l₂ :=
      List.eraseP_cons_of_pos hself
    rw [hsplit, List.eraseP_append_right _ hfirst, herase, List.filter_append,
      List.filter_cons_of_neg (by simp)]
    have hne₁ : ∀ r ∈ l₁, decide (r ≠ r₀) = true := fun r hr => decide_eq_true fun heq => by
      have := hcross r hr r₀ List.mem_cons_self
      rw [heq] at this
      exact absurd this (Nat.lt_irrefl _)
    have hne₂ : ∀ r ∈ l₂, decide (r ≠ r₀) = true := fun r hr => decide_eq_true fun heq => by
      have := (List.pairwise_cons.mp hs₂).1 r hr
      rw [heq] at this
      exact absurd this (Nat.lt_irrefl _)
    rw [List.filter_eq_self.mpr hne₁, List.filter_eq_self.mpr hne₂]
  · have hnone := hown.resolve_left hmem
    rw [List.eraseP_of_forall_not hnone, List.filter_eq_self.mpr]
    intro r hr
    exact decide_eq_true fun heq => hmem (heq ▸ hr)

/-- A reply that is no reply to a request settles nothing. -/
theorem settle_beat (hcmd : m.command = .heartBeat) (l : List Request) : settle m l = l := by
  unfold settle
  rw [hcmd]
  rfl

end Pending

/-! ## Steps and runs -/

section Steps

variable {w : World} {e : Event} {v : ℕ}

theorem Inv.id_next (h : Inv w) (he : e.Enabled w) (hv : v < w.count) :
    ((w.next e).proc v).node.id = (w.proc v).node.id := by
  cases h.change_next he v with
  | same hs => exact hs.id
  | fresh hv' => omega
  | acted r m ha =>
    rcases ha.node with ⟨-, hnode, -⟩ | ⟨-, -, hnode⟩
    · rw [hnode]
      exact (act_keeps _ _).1
    · rw [hnode]
  | threw o _ _ hid => exact hid

theorem Inv.count_le_receiveDown (h : Inv w) {p : ℕ} (hp : p < w.count) (o : Outcome) :
    w.count ≤ (NodeTree.receiveDown w p o).count := by
  have hreceived := h.received hp o
  generalize NodeTree.receiveDown w p o = w' at hreceived ⊢
  cases hreceived with
  | beat pkt rest =>
    rw [(h.setHeartbeat p _).forward_eq]
    exact le_rfl
  | other r rest => rw [h.forward_eq]
  | created => exact Nat.le_succ _
  | notBound => exact Nat.le_succ _
  | _ => exact le_rfl

theorem Inv.count_le_next (h : Inv w) (he : e.Enabled w) : w.count ≤ (w.next e).count := by
  cases e with
  | command cmd o =>
    show w.count ≤ (NodeTree.handleCommand w o cmd).count
    have hcmd := h.commanded o cmd
    generalize NodeTree.handleCommand w o cmd = w' at hcmd ⊢
    rcases hcmd with line | ⟨m, -, -⟩ | ⟨id, -, -, -⟩ | ⟨id, -, -, -⟩ | ⟨id, -, -, -⟩ | time
    · exact le_rfl
    · rw [h.broadcastMessage_eq]
    · exact Nat.le_succ _
    · exact le_rfl
    · exact Nat.le_succ _
    · rw [h.handleHeartbeatCommand_eq]
  | receiveDown p o => exact h.count_le_receiveDown he.1 o
  | receiveUp p => exact (receiveUp_onlyUp w p).count.ge
  | relayUp p c => exact (relayUp_onlyUp w p c).count.ge
  | sendBeat p => exact (sendBeat_onlyUp w p).count.ge
  | _ => exact le_rfl

/-- **Every step with a safe reply** keeps the pending requests in order and unanswered. -/
theorem Pending.next (h : Pending w) (hinv : Inv w) (he : e.Enabled w) (hsafe : SafeReply w e) :
    Pending (w.next e) := by
  have hback : (w.next e).ids.Nodup → w.ids.Nodup := fun hnd =>
    ids_nodup_of_le hnd (hinv.count_le_next he) fun q hq => hinv.id_next he hq
  cases hinv.pendingChange he with
  | same hpending hissued hanswered =>
    refine ⟨by rw [hpending, hissued]; exact h.issued, fun hnd r hr => ?_⟩
    rw [hpending] at hr
    rw [hanswered]
    exact h.unanswered (hback hnd) r hr
  | issued r htag hpending hissued hanswered =>
    refine ⟨by rw [hpending, hissued]; exact h.issued.append (List.Sublist.refl _),
      fun hnd r' hr' => ?_⟩
    rw [hpending] at hr'
    rw [hanswered]
    rcases List.mem_append.mp hr' with hr' | hr'
    · exact h.unanswered (hback hnd) r' hr'
    · -- The new request has a number that no answered request has.
      obtain rfl := List.mem_singleton.mp hr'
      intro hmem
      obtain ⟨x, hx, rfl⟩ := List.mem_map.mp hmem
      obtain ⟨u, hu⟩ := hinv.packets.answered x hx
      have := hinv.tag_lt (hinv.packets.served u x hu).issued
      omega
  | received p pkt rest hp hup hpending hissued hanswered =>
    subst hp
    obtain ⟨m, req⟩ := pkt
    cases req with
    | none =>
      have hbeat : m.command = .heartBeat := by
        rcases hinv.packets.up p _ (by rw [hup]; exact List.mem_cons_self) with
          ⟨r, m', heq, -⟩ | ⟨-, hbeat⟩
        · exact absurd (Packet.mk.inj heq).2.symm (Option.some_ne_none r)
        · exact hbeat
      have hsame : settle m w.ctrl.pendingMessages = w.ctrl.pendingMessages := settle_beat hbeat _
      refine ⟨by rw [hpending, hissued, hsame]; exact h.issued, fun hnd r hr => ?_⟩
      rw [hpending, hsame] at hr
      rw [hanswered]
      simpa using h.unanswered (hback hnd) r hr
    | some r₀ =>
      have hfilter := h.settle_eq hinv he.2 hup hsafe
      constructor
      · rw [hpending, hissued, hfilter]
        exact List.filter_sublist.trans h.issued
      · intro hnd r hr
        rw [hpending, hfilter] at hr
        obtain ⟨hmem, hne⟩ := List.mem_filter.mp hr
        rw [hanswered, List.map_append, List.mem_append, not_or]
        refine ⟨h.unanswered (hback hnd) r hmem, ?_⟩
        simpa using hne
  | checked _ hpending hissued hanswered =>
    constructor
    · rw [hpending, hissued]
      exact List.filter_sublist.trans h.issued
    · intro hnd r hr
      rw [hpending] at hr
      rw [hanswered]
      exact h.unanswered (hback hnd) r (List.mem_filter.mp hr).1

/-- A request that leaves the pending ones in a step with a safe reply leaves rightly. -/
theorem Pending.settledRightly (h : Pending w) (hinv : Inv w) (he : e.Enabled w)
    (hsafe : SafeReply w e) {r : Request} (hr : r ∈ w.ctrl.pendingMessages)
    (hleft : r ∉ (w.next e).ctrl.pendingMessages) : SettledRightly w r e := by
  cases hinv.pendingChange he with
  | same hpending => exact absurd hr (hpending ▸ hleft)
  | issued r' _ hpending =>
    rw [hpending] at hleft
    exact absurd (List.mem_append_left _ hr) hleft
  | received p pkt rest hp hup hpending =>
    subst hp
    obtain ⟨m, req⟩ := pkt
    rw [hpending] at hleft
    cases req with
    | none =>
      have hbeat : m.command = .heartBeat := by
        rcases hinv.packets.up p _ (by rw [hup]; exact List.mem_cons_self) with
          ⟨r, m', heq, -⟩ | ⟨-, hbeat⟩
        · exact absurd (Packet.mk.inj heq).2.symm (Option.some_ne_none r)
        · exact hbeat
      rw [Pending.settle_beat hbeat] at hleft
      exact absurd hr hleft
    | some r₀ =>
      rw [h.settle_eq hinv he.2 hup hsafe] at hleft
      have heq : r = r₀ := by
        by_contra hne
        exact hleft (List.mem_filter.mpr ⟨hr, decide_eq_true hne⟩)
      show (w.proc p).up.head?.bind Packet.req = some r
      rw [hup, heq]
      rfl
  | checked hcheck hpending =>
    subst hcheck
    rw [hpending] at hleft
    show Controller.isExpired w.clock r.msg = true
    by_contra hnot
    exact hleft (List.mem_filter.mpr ⟨hr, decide_eq_true hnot⟩)

end Steps

/-- **A pending request is settled by its own reply only**, or by its own timeout, in every run
in which every reply that is processed is safe. -/
theorem pending_settled_by_own_reply {es : List Event} {w w' : World} {e : Event}
    (h : Run SafeStep initial es w) (hstep : SafeStep w e w') :
    ∀ r ∈ w.ctrl.pendingMessages, r ∉ w'.ctrl.pendingMessages → SettledRightly w r e := by
  have hall := h.preserves (I := fun w => Inv w ∧ Pending w) ?_ ⟨Inv.initial, ?_⟩
  · obtain ⟨⟨he, rfl⟩, hsafe⟩ := hstep
    exact fun r hr hleft => hall.2.settledRightly hall.1 he hsafe hr hleft
  · rintro w e w' ⟨hinv, hp⟩ ⟨⟨he, rfl⟩, hsafe⟩
    exact ⟨hinv.next he, hp.next hinv he hsafe⟩
  · exact ⟨List.Sublist.refl _, fun _ r hr => absurd hr List.not_mem_nil⟩

/-- Two nodes are pinged before the replies arrive. -/
def twoPings : List Event :=
  [.command (.create 1 (-1)) .created, .command (.create 2 (-1)) .created,
    .command (.ping 2) .created, .command (.ping 1) .created, .receiveDown 0 .created,
    .receiveDown 0 .created]

theorem pending_settled_by_own_reply_two_pings :
    let w := twoPings.foldl World.next initial
    w.ctrl.pendingMessages.length = 2 ∧ (w.next (.receiveUp 0)).ctrl.pendingMessages.length = 1 ∧
    ∀ r ∈ w.ctrl.pendingMessages, r ∉ (w.next (.receiveUp 0)).ctrl.pendingMessages →
      SettledRightly w r (.receiveUp 0) :=
  have hrun : Possible SafeReply initial twoPings := by decide
  ⟨by decide, by decide,
    pending_settled_by_own_reply hrun.run ⟨⟨by decide, rfl⟩, by decide⟩⟩

/-- A ping expires, a second ping of the same node follows, and the reply to the first
arrives. -/
def latePing : List Event :=
  [.command (.create 1 (-1)) .created, .command (.ping 1) .created, .tick 6500000000,
    .checkPending, .command (.ping 1) .created, .receiveDown 0 .created]

/-- The late reply removes the entry of the second ping. -/
theorem late_reply_settles_newer_request : ¬ ∀ es w e w', Run Step initial es w → Step w e w' →
    ∀ r ∈ w.ctrl.pendingMessages, r ∉ w'.ctrl.pendingMessages → SettledRightly w r e := by
  intro h
  have hrun : Possible (fun _ _ => True) initial latePing := by decide
  have hstep : Step (latePing.foldl World.next initial) (.receiveUp 0)
      ((latePing.foldl World.next initial).next (.receiveUp 0)) := ⟨by decide, rfl⟩
  have hsettled := h _ _ _ _ hrun.stepRun hstep ⟨1, .of 6500000000 .ping 1 0⟩ (by decide) (by decide)
  exact absurd hsettled (by decide)

end NodeTree
