/-
# Where the messages in the links come from

Every message on its way down is a copy of a request that the controller broadcast, or a
heartbeat; every message on its way up is a reply of a process below the link, or a
heartbeat.  A change of the world keeps this if what it adds to the links, the records and
the registry has such an origin.
-/
import OSLabs.NodeTreeShape

namespace NodeTree

/-! ## Changes of the world -/

section Projections

variable (w : World) (p q : ℕ) (f : Process → Process) (pkt : Packet)

@[simp] theorem update_count : (w.update p f).count = w.count := rfl
@[simp] theorem update_ctrl : (w.update p f).ctrl = w.ctrl := rfl
@[simp] theorem update_clock : (w.update p f).clock = w.clock := rfl
@[simp] theorem update_issued : (w.update p f).issued = w.issued := rfl
@[simp] theorem update_answered : (w.update p f).answered = w.answered := rfl

theorem update_proc : (w.update p f).proc q = if q = p then f (w.proc p) else w.proc q :=
  Function.update_apply w.proc p _ q

@[simp] theorem update_proc_self : (w.update p f).proc p = f (w.proc p) := by
  rw [update_proc, if_pos rfl]

theorem update_proc_of_ne (h : q ≠ p) : (w.update p f).proc q = w.proc q := by
  rw [update_proc, if_neg h]

/-- What the change of a process keeps is kept for all processes. -/
theorem update_keeps {β : Type*} (field : Process → β)
    (hf : field (f (w.proc p)) = field (w.proc p)) :
    field ((w.update p f).proc q) = field (w.proc q) := by
  rw [update_proc]
  split_ifs with hqp
  · rw [hqp, hf]
  · rfl

/-- What sending to one child keeps, sending to all children keeps. -/
theorem sendAll_keeps {β : Type*} {f : World → β}
    (hf : ∀ (w : World) q, f (w.sendDown q pkt) = f w) (children : List Node) :
    f (w.sendAll children pkt) = f w := by
  induction children generalizing w with
  | nil => rfl
  | cons c children ih => exact (ih (w.sendDown c.pid pkt)).trans (hf w c.pid)

/-- What is sent to every child ends up in the link of every child. -/
theorem sendAll_eq {children : List Node} (hnd : (pids children).Nodup) :
    w.sendAll children pkt = { w with
      proc := fun q => if q ∈ pids children then { w.proc q with down := (w.proc q).down ++ [pkt] }
        else w.proc q } := by
  induction children generalizing w with
  | nil => rfl
  | cons c children ih =>
      obtain ⟨hc, hnd⟩ := List.nodup_cons.mp hnd
      show (w.sendDown c.pid pkt).sendAll children pkt = _
      rw [ih _ hnd]
      unfold World.sendDown World.update
      congr 1
      funext q
      by_cases hq : q ∈ pids children
      · have hqc : q ≠ c.pid := fun h => hc (h ▸ hq)
        simp [hq, hqc]
      · by_cases hqc : q = c.pid
        · subst hqc
          simp [hq]
        · simp [hq, hqc]

end Projections

/-! ## Origins -/

/-- A message on its way down: a copy of a request, or a heartbeat setting. -/
def IsDown (w : World) (pkt : Packet) : Prop :=
  (∃ r ∈ w.issued, pkt = ⟨r.msg, some r⟩) ∨ (pkt.req = none ∧ pkt.msg.command = .heartBeat)

/-- A message on its way up from `v`: a reply of a process below, or a heartbeat. -/
def IsUp (w : World) (v : ℕ) (pkt : Packet) : Prop :=
  (∃ r m, pkt = ⟨m, some r⟩ ∧ ∃ u, v ∈ (w.proc u).path ∧ (r, m) ∈ (w.proc u).served) ∨
    (pkt.req = none ∧ pkt.msg.command = .heartBeat)

/-- The id belongs to a process of the tree. -/
def InTree (w : World) (id : ℤ) : Prop := ∃ v, (w.proc v).path ≠ [] ∧ (w.proc v).node.id = id

/-- A request that the controller may broadcast. -/
structure IsRequest (w : World) (m : Message) : Prop where
  kind : m.command = .create ∨ m.command = .ping ∨ m.command = .execAdd ∨ m.command = .execFnd
  target : m.id = -1 ∨ InTree w m.id
  create : m.command = .create → m.id ≠ -1 ∧ m.addData ≠ -1
  val : truncate m.val = m.val

/-- `m` is a reply to the request `q`. -/
def IsReply (w : World) (q m : Message) : Prop :=
  match q.command with
  | .create => m.command = .create ∧ m.id = q.addData ∧ InTree w m.id
  | .execFnd => (m.command = .execFnd ∨ m.command = .execErr) ∧ m.id = q.id
  | _ => m = q

/-- A process acted on a request that was meant for it, with a proper reply. -/
structure IsServed (w : World) (v : ℕ) (x : Request × Message) : Prop where
  issued : x.1 ∈ w.issued
  target : x.1.msg.id = (w.proc v).node.id
  reply : IsReply w x.1.msg x.2

/-- A process has thrown while it handled a create request that was meant for it. -/
structure IsCrashed (w : World) (v : ℕ) (r : Request) : Prop where
  stopped : (w.proc v).running = false
  issued : r ∈ w.issued
  target : r.msg.id = (w.proc v).node.id
  create : r.msg.command = .create

/-- **The origins of all messages and records.** -/
structure Packets (w : World) : Prop where
  idle : ∀ v, (w.proc v).path = [] →
    (w.proc v).down = [] ∧ (w.proc v).served = [] ∧ (w.proc v).crashed = none
  down : ∀ v, ∀ pkt ∈ (w.proc v).down, IsDown w pkt
  up : ∀ v, ∀ pkt ∈ (w.proc v).up, IsUp w v pkt
  served : ∀ v, ∀ x ∈ (w.proc v).served, IsServed w v x
  crashed : ∀ v r, (w.proc v).crashed = some r → IsCrashed w v r
  answered : ∀ x ∈ w.answered, ∃ v, x ∈ (w.proc v).served
  tags : w.issued.map Request.tag = List.range w.issued.length
  request : ∀ r ∈ w.issued, IsRequest w r.msg
  nodeIds : ∀ i ∈ w.ctrl.nodeIds, i = -1 ∨ InTree w i
  root : -1 ∈ w.ctrl.nodeIds
  noRoot : ∀ v < w.count, (w.proc v).node.id ≠ -1

theorem Packets.issued_nodup {w : World} (h : Packets w) : w.issued.Nodup := by
  apply List.Nodup.of_map Request.tag
  rw [h.tags]
  exact List.nodup_range

/-- `w'` has all processes of the tree and all records of `w`. -/
structure Extends (w w' : World) : Prop where
  path : ∀ v, (w.proc v).path ≠ [] → (w'.proc v).path = (w.proc v).path
  id : ∀ v, (w.proc v).path ≠ [] → (w'.proc v).node.id = (w.proc v).node.id
  served : ∀ v, ∀ x ∈ (w.proc v).served, x ∈ (w'.proc v).served
  issued : ∀ r ∈ w.issued, r ∈ w'.issued

namespace Extends

variable {w w' : World} {v : ℕ} {pkt : Packet} {x : Request × Message} {r : Request}

theorem inTree (h : Extends w w') {id : ℤ} (hid : InTree w id) : InTree w' id := by
  obtain ⟨v, hv, rfl⟩ := hid
  exact ⟨v, by rw [h.path v hv]; exact hv, h.id v hv⟩

theorem isDown (h : Extends w w') (hd : IsDown w pkt) : IsDown w' pkt :=
  hd.imp_left fun ⟨r, hr, heq⟩ => ⟨r, h.issued r hr, heq⟩

theorem isUp (h : Extends w w') (hu : IsUp w v pkt) : IsUp w' v pkt := by
  apply hu.imp_left
  rintro ⟨r, m, heq, u, hu, hserved⟩
  exact ⟨r, m, heq, u, by rw [h.path u (List.ne_nil_of_mem hu)]; exact hu, h.served u _ hserved⟩

theorem isRequest (h : Extends w w') {m : Message} (hm : IsRequest w m) : IsRequest w' m :=
  ⟨hm.kind, hm.target.imp_right h.inTree, hm.create, hm.val⟩

theorem isReply (h : Extends w w') {q m : Message} (hr : IsReply w q m) : IsReply w' q m := by
  unfold IsReply at hr ⊢
  split at hr
  · exact ⟨hr.1, hr.2.1, h.inTree hr.2.2⟩
  · exact hr
  · exact hr

theorem isServed (h : Extends w w') (hv : (w.proc v).path ≠ []) (hs : IsServed w v x) :
    IsServed w' v x :=
  ⟨h.issued _ hs.issued, hs.target.trans (h.id v hv).symm, h.isReply hs.reply⟩

end Extends

/-- **A change keeps the origins** if what it adds has one. -/
theorem Packets.extend {w w' : World} (h : Packets w) (hext : Extends w w')
    (hidle : ∀ v, (w'.proc v).path = [] →
      (w'.proc v).down = [] ∧ (w'.proc v).served = [] ∧ (w'.proc v).crashed = none)
    (hdown : ∀ v, ∀ pkt ∈ (w'.proc v).down, pkt ∈ (w.proc v).down ∨ IsDown w' pkt)
    (hup : ∀ v, ∀ pkt ∈ (w'.proc v).up, pkt ∈ (w.proc v).up ∨ IsUp w' v pkt)
    (hserved : ∀ v, ∀ x ∈ (w'.proc v).served, x ∈ (w.proc v).served ∨ IsServed w' v x)
    (hcrashed : ∀ v r, (w'.proc v).crashed = some r →
      ((w.proc v).crashed = some r ∧ (w'.proc v).running = (w.proc v).running) ∨ IsCrashed w' v r)
    (hanswered : ∀ x ∈ w'.answered, x ∈ w.answered ∨ ∃ v, x ∈ (w'.proc v).served)
    (htags : w'.issued.map Request.tag = List.range w'.issued.length)
    (hrequest : ∀ r ∈ w'.issued, r ∈ w.issued ∨ IsRequest w' r.msg)
    (hnodeIds : ∀ i ∈ w'.ctrl.nodeIds, i ∈ w.ctrl.nodeIds ∨ InTree w' i)
    (hroot : -1 ∈ w'.ctrl.nodeIds)
    (hnoRoot : ∀ v < w'.count, (v < w.count ∧ (w'.proc v).node.id = (w.proc v).node.id) ∨
      (w'.proc v).node.id ≠ -1) : Packets w' := by
  have hpath : ∀ v, (w.proc v).served ≠ [] ∨ (w.proc v).crashed ≠ none → (w.proc v).path ≠ [] := by
    intro v hne hnil
    obtain ⟨-, hs, hc⟩ := h.idle v hnil
    exact hne.elim (absurd hs) (absurd hc)
  refine ⟨hidle, fun v pkt hmem => ?_, fun v pkt hmem => ?_, fun v x hmem => ?_,
    fun v r hmem => ?_, fun x hmem => ?_, htags, fun r hmem => ?_, fun i hmem => ?_, hroot,
    fun v hv => ?_⟩
  · exact (hdown v pkt hmem).elim (fun hold => hext.isDown (h.down v pkt hold)) id
  · exact (hup v pkt hmem).elim (fun hold => hext.isUp (h.up v pkt hold)) id
  · rcases hserved v x hmem with hold | hnew
    · exact hext.isServed (hpath v (Or.inl (List.ne_nil_of_mem hold))) (h.served v x hold)
    · exact hnew
  · -- a process that has crashed takes no other step
    rcases hcrashed v r hmem with ⟨hold, hrun⟩ | hnew
    · have hc := h.crashed v r hold
      have hv := hpath v (Or.inr (by rw [hold]; exact Option.some_ne_none r))
      exact ⟨hrun.trans hc.stopped, hext.issued r hc.issued,
        hc.target.trans (hext.id v hv).symm, hc.create⟩
    · exact hnew
  · rcases hanswered x hmem with hold | hnew
    · obtain ⟨v, hv⟩ := h.answered x hold
      exact ⟨v, hext.served v x hv⟩
    · exact hnew
  · exact (hrequest r hmem).elim (fun hold => hext.isRequest (h.request r hold)) id
  · rcases hnodeIds i hmem with hold | hnew
    · exact (h.nodeIds i hold).imp_right hext.inTree
    · exact Or.inr hnew
  · rcases hnoRoot v hv with ⟨hlt, heq⟩ | hne
    · rw [heq]
      exact h.noRoot v hlt
    · exact hne

end NodeTree
