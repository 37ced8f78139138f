/-
# The order of requests and replies

With distinct ids, the requests for a node travel down the path to it in the order in which
they were broadcast, and its replies travel up in the order in which it acted.  So the
requests for a node are those it acted on, then the one it threw at, then those in flight on
its path; and what it replied is what was processed, then what is in flight.
-/
import OSLabs.NodeTreeMoves

/-! ## Queues along a path of relays

The nodes of a path keep first-in-first-out queues, and each node relays the items of its queue to
the end of the queue of its neighbour on the path.  The items in flight, in the order in which they
will arrive, are the queues of the path one after the other. -/

section Path

variable {ι α : Type*}

/-- The items in the queues of a path, the ones next to arrive first. -/
def inFlight (path : List ι) (queue : ι → List α) : List α := path.flatMap queue

namespace inFlight

variable {path pre post : List ι} {queue queue' : ι → List α} {u c v : ι} {x : α}
  {xs rest : List α}

@[simp] theorem nil (queue : ι → List α) : inFlight [] queue = [] := rfl

@[simp] theorem cons (queue : ι → List α) :
    inFlight (u :: path) queue = queue u ++ inFlight path queue := List.flatMap_cons

@[simp] theorem append (queue : ι → List α) :
    inFlight (pre ++ post) queue = inFlight pre queue ++ inFlight post queue :=
  List.flatMap_append

/-- Only the queues of the path count. -/
theorem congr (h : ∀ w ∈ path, queue' w = queue w) :
    inFlight path queue' = inFlight path queue :=
  List.flatMap_congr h

/-- An item is in flight when it is in some queue of the path. -/
theorem mem_iff : x ∈ inFlight path queue ↔ ∃ w ∈ path, x ∈ queue w := List.mem_flatMap

/-- **An arrival**: the first items of the first queue leave the path. -/
theorem arrive (hu : queue u = xs ++ rest) (hu' : queue' u = rest)
    (hother : ∀ w ∈ path, queue' w = queue w) :
    inFlight (u :: path) queue = xs ++ inFlight (u :: path) queue' := by
  rw [cons, cons, hu, hu', congr hother, List.append_assoc]

/-- **A relay**: the first items of a queue move to the end of the queue before it. -/
theorem relay (hc : queue c = xs ++ rest) (hc' : queue' c = rest) (hu' : queue' u = queue u ++ xs)
    (hpre : ∀ w ∈ pre, queue' w = queue w) (hpost : ∀ w ∈ post, queue' w = queue w) :
    inFlight (pre ++ u :: c :: post) queue' = inFlight (pre ++ u :: c :: post) queue := by
  simp [congr hpre, congr hpost, hc, hc', hu']

/-- **A departure**: items enter the path at the end of the last queue. -/
theorem depart (hv : queue' v = queue v ++ xs) (hother : ∀ w ∈ pre, queue' w = queue w) :
    inFlight (pre ++ [v]) queue' = inFlight (pre ++ [v]) queue ++ xs := by
  simp [congr hother, hv]

end inFlight

end Path

namespace NodeTree

/-! ## Traffic of one node -/

/-- The request in a message, if it is for the node `t`. -/
def Packet.requests (t : ℤ) (pkt : Packet) : List Request :=
  pkt.req.toList.filter fun r => r.msg.id = t

/-- The reply in a message, if the node `t` sent it. -/
def Packet.replies (t : ℤ) (pkt : Packet) : List (Request × Message) :=
  (pkt.requests t).map fun r => (r, pkt.msg)

/-- The requests for `t` on their way down in one link. -/
def Process.requests (t : ℤ) (q : Process) : List Request := q.down.flatMap (Packet.requests t)

/-- The replies of `t` on their way up in one link. -/
def Process.replies (t : ℤ) (q : Process) : List (Request × Message) :=
  q.up.flatMap (Packet.replies t)

/-- The requests for `t`, in the order of the broadcasts. -/
def World.issuedTo (w : World) (t : ℤ) : List Request := w.issued.filter fun r => r.msg.id = t

/-- The processed replies of `t`, in the order of processing. -/
def World.answeredBy (w : World) (t : ℤ) : List (Request × Message) :=
  w.answered.filter fun x => x.1.msg.id = t

/-- The messages on their way down to a process, the next to arrive first. -/
def World.stream (w : World) (v : ℕ) : List Packet :=
  inFlight (w.proc v).path.reverse fun q => (w.proc q).down

/-- The requests on their way down to a process are those in the messages. -/
theorem stream_requests (w : World) (v : ℕ) (t : ℤ) :
    inFlight (w.proc v).path.reverse (fun q => (w.proc q).requests t) =
      (w.stream v).flatMap (Packet.requests t) :=
  List.flatMap_assoc.symm

section Packet

variable {t : ℤ} {m : Message} {r : Request}

@[simp] theorem Packet.requests_none : (Packet.mk m none).requests t = [] := rfl

@[simp] theorem Packet.replies_none : (Packet.mk m none).replies t = [] := rfl

theorem Packet.requests_self (h : r.msg.id = t) : (Packet.mk m (some r)).requests t = [r] := by
  simp [Packet.requests, h]

theorem Packet.requests_of_ne (h : r.msg.id ≠ t) : (Packet.mk m (some r)).requests t = [] := by
  simp [Packet.requests, h]

theorem Packet.replies_self (h : r.msg.id = t) :
    (Packet.mk m (some r)).replies t = [(r, m)] := by
  simp [Packet.replies, Packet.requests_self h]

theorem Packet.replies_of_ne (h : r.msg.id ≠ t) : (Packet.mk m (some r)).replies t = [] := by
  simp [Packet.replies, Packet.requests_of_ne h]

/-- A message with a request for `t` holds just that request. -/
theorem Packet.mem_requests {pkt : Packet} :
    r ∈ pkt.requests t ↔ pkt.req = some r ∧ r.msg.id = t := by
  simp [Packet.requests, Option.mem_toList]

/-- A link holds a request for `t` when a message in it does. -/
theorem Process.mem_requests {q : Process} :
    r ∈ q.requests t ↔ ∃ pkt ∈ q.down, pkt.req = some r ∧ r.msg.id = t := by
  simp [Process.requests, Packet.mem_requests]

/-- A link holds a reply of `t` when the message with it is in the link. -/
theorem Process.mem_replies {q : Process} :
    (r, m) ∈ q.replies t ↔ ⟨m, some r⟩ ∈ q.up ∧ r.msg.id = t := by
  constructor
  · intro hmem
    obtain ⟨pkt, hpkt, hreply⟩ := List.mem_flatMap.mp hmem
    obtain ⟨r', hr', heq⟩ := List.mem_map.mp hreply
    obtain ⟨rfl, rfl⟩ := Prod.mk.inj heq
    obtain ⟨hreq, hid⟩ := Packet.mem_requests.mp hr'
    rw [← hreq]
    exact ⟨hpkt, hid⟩
  · rintro ⟨hmem, hid⟩
    refine List.mem_flatMap.mpr ⟨_, hmem, ?_⟩
    rw [Packet.replies_self hid]
    exact List.mem_singleton.mpr rfl

end Packet

/-- **The traffic of the node at `v` is in order.** -/
structure Fifo (w : World) (v : ℕ) : Prop where
  requests : w.issuedTo (w.proc v).node.id =
    (w.proc v).served.map Prod.fst ++ (w.proc v).crashed.toList ++
      inFlight (w.proc v).path.reverse fun q => (w.proc q).requests (w.proc v).node.id
  replies : (w.proc v).served = w.answeredBy (w.proc v).node.id ++
      inFlight (w.proc v).path fun q => (w.proc q).replies (w.proc v).node.id

/-- Only the records of the node and the links on its path count. -/
theorem Fifo.congr {w w' : World} {v : ℕ} (h : Fifo w v)
    (hid : (w'.proc v).node.id = (w.proc v).node.id) (hpath : (w'.proc v).path = (w.proc v).path)
    (hserved : (w'.proc v).served = (w.proc v).served)
    (hcrashed : (w'.proc v).crashed = (w.proc v).crashed)
    (hissued : w'.issuedTo (w.proc v).node.id = w.issuedTo (w.proc v).node.id)
    (hanswered : w'.answeredBy (w.proc v).node.id = w.answeredBy (w.proc v).node.id)
    (hrequests : inFlight (w.proc v).path.reverse
      (fun q => (w'.proc q).requests (w.proc v).node.id) =
        inFlight (w.proc v).path.reverse fun q => (w.proc q).requests (w.proc v).node.id)
    (hreplies : inFlight (w.proc v).path (fun q => (w'.proc q).replies (w.proc v).node.id) =
      inFlight (w.proc v).path fun q => (w.proc q).replies (w.proc v).node.id) :
    Fifo w' v := by
  constructor
  · rw [hid, hpath, hserved, hcrashed, hissued, h.requests, hrequests]
  · rw [hid, hpath, hserved, hanswered, hreplies, h.replies]

/-! ## The invariant -/

/-- **The invariant of the whole system.** -/
structure Inv (w : World) : Prop where
  tree : Tree w
  packets : Packets w
  fifo : w.ids.Nodup → ∀ v, (w.proc v).path ≠ [] → Fifo w v

section Ids

variable {w w' : World} {u v : ℕ}

theorem ids_inj (h : w.ids.Nodup) (hu : u < w.count) (hv : v < w.count)
    (heq : (w.proc u).node.id = (w.proc v).node.id) : u = v :=
  List.inj_on_of_nodup_map h (List.mem_range.mpr hu) (List.mem_range.mpr hv) heq

/-- The ids are distinct when different processes have different ids. -/
theorem ids_nodup (h : ∀ u < w.count, ∀ v < w.count,
    (w.proc u).node.id = (w.proc v).node.id → u = v) : w.ids.Nodup :=
  List.Nodup.map_on (fun u hu v hv heq => h u (List.mem_range.mp hu) v (List.mem_range.mp hv) heq)
    List.nodup_range

/-- Ids that are distinct after a step were distinct before. -/
theorem ids_nodup_of_le (h : w'.ids.Nodup) (hcount : w.count ≤ w'.count)
    (hid : ∀ q < w.count, (w'.proc q).node.id = (w.proc q).node.id) : w.ids.Nodup :=
  ids_nodup fun u hu v hv heq =>
    ids_inj h (Nat.lt_of_lt_of_le hu hcount) (Nat.lt_of_lt_of_le hv hcount)
      ((hid u hu).trans (heq.trans (hid v hv).symm))

end Ids

/-- The worlds differ in nothing that a message or the tree depends on. -/
structure Alike (w w' : World) : Prop where
  count : w'.count = w.count
  children : w'.ctrl.children = w.ctrl.children
  nodeIds : w.ctrl.nodeIds ⊆ w'.ctrl.nodeIds
  registered : ∀ i ∈ w'.ctrl.nodeIds, i ∈ w.ctrl.nodeIds ∨ InTree w i
  issued : w'.issued = w.issued
  answered : w'.answered = w.answered
  proc : ∀ q, ∃ n : ComputingNode, w'.proc q = { w.proc q with node := n } ∧
    n.id = (w.proc q).node.id ∧ n.children = (w.proc q).node.children

namespace Alike

variable {w w' : World}

/-- A process differs in nothing but its node. -/
theorem frame (h : Alike w w') (q : ℕ) :
    w'.proc q = { w.proc q with node := (w'.proc q).node } := by
  obtain ⟨n, heq, -⟩ := h.proc q
  rw [heq]

theorem id (h : Alike w w') (q : ℕ) : (w'.proc q).node.id = (w.proc q).node.id := by
  obtain ⟨n, heq, hn, -⟩ := h.proc q
  rw [heq, hn]

theorem nodeChildren (h : Alike w w') (q : ℕ) :
    (w'.proc q).node.children = (w.proc q).node.children := by
  obtain ⟨n, heq, -, hn⟩ := h.proc q
  rw [heq, hn]

end Alike

namespace Inv

variable {w w' : World} {p : ℕ}

theorem path_lt (h : Inv w) {v : ℕ} (hv : (w.proc v).path ≠ []) : v < w.count :=
  (h.tree.parent v hv).1

/-- **A quiet change** keeps the invariant. -/
theorem quiet (h : Inv w) (ha : Alike w w') : Inv w' := by
  have hid : ∀ q, (w'.proc q).node.id = (w.proc q).node.id := ha.id
  have hchildren : ∀ q, (w'.proc q).node.children = (w.proc q).node.children := ha.nodeChildren
  have hpath : ∀ q, (w'.proc q).path = (w.proc q).path := fun q => by
    rw [ha.frame q]
  have hdown : ∀ q, (w'.proc q).down = (w.proc q).down := fun q => by
    rw [ha.frame q]
  have hup : ∀ q, (w'.proc q).up = (w.proc q).up := fun q => by rw [ha.frame q]
  have hserved : ∀ q, (w'.proc q).served = (w.proc q).served := fun q => by
    rw [ha.frame q]
  have hcrashed : ∀ q, (w'.proc q).crashed = (w.proc q).crashed := fun q => by
    rw [ha.frame q]
  have hrunning : ∀ q, (w'.proc q).running = (w.proc q).running := fun q => by
    rw [ha.frame q]
  refine ⟨h.tree.congr ha.count ha.children hchildren hpath, ?_, fun hnd v hv => ?_⟩
  · have hext : Extends w w' :=
      ⟨fun q _ => hpath q, fun q _ => hid q, fun q x hx => by rwa [hserved],
        fun r hr => by rwa [ha.issued]⟩
    refine h.packets.extend hext (fun q hq => ?_) (fun q pkt hp => ?_) (fun q pkt hp => ?_)
      (fun q x hx => ?_) (fun q r hr => ?_) (fun x hx => ?_) ?_ (fun r hr => ?_) (fun i hi => ?_)
      ?_ (fun q hq => ?_)
    · rw [hdown, hserved, hcrashed]
      exact h.packets.idle q ((hpath q).symm.trans hq)
    · exact Or.inl (by rwa [hdown] at hp)
    · exact Or.inl (by rwa [hup] at hp)
    · exact Or.inl (by rwa [hserved] at hx)
    · exact Or.inl ⟨by rwa [hcrashed] at hr, hrunning q⟩
    · exact Or.inl (by rwa [ha.answered] at hx)
    · rw [ha.issued]
      exact h.packets.tags
    · exact Or.inl (by rwa [ha.issued] at hr)
    · exact (ha.registered i hi).imp_right hext.inTree
    · exact ha.nodeIds h.packets.root
    · exact Or.inl ⟨by rwa [ha.count] at hq, hid q⟩
  · have hnd' := ids_nodup_of_le hnd (by rw [ha.count]) fun q _ => hid q
    refine (h.fifo hnd' v (by rwa [hpath] at hv)).congr (hid v) (hpath v) (hserved v) (hcrashed v)
      ?_ ?_ (inFlight.congr fun q _ => ?_) (inFlight.congr fun q _ => ?_)
    · unfold World.issuedTo
      rw [ha.issued]
    · unfold World.answeredBy
      rw [ha.answered]
    · unfold Process.requests
      rw [hdown]
    · unfold Process.replies
      rw [hup]

end Inv

/-! ## Moves inside the tree -/

/-- The worlds have the same tree and the same requests. -/
structure SameTree (w w' : World) : Prop where
  count : w'.count = w.count
  ctrlChildren : w'.ctrl.children = w.ctrl.children
  nodeIds : w'.ctrl.nodeIds = w.ctrl.nodeIds
  issued : w'.issued = w.issued
  path : ∀ q, (w'.proc q).path = (w.proc q).path
  id : ∀ q, (w'.proc q).node.id = (w.proc q).node.id
  children : ∀ q, (w'.proc q).node.children = (w.proc q).node.children
  idle : ∀ q, (w.proc q).path = [] → (w'.proc q).down = (w.proc q).down ∧
    (w'.proc q).served = (w.proc q).served ∧ (w'.proc q).crashed = (w.proc q).crashed
  served : ∀ q, ∀ x ∈ (w.proc q).served, x ∈ (w'.proc q).served

namespace Inv

variable {w w' : World} {p c v : ℕ} {pkt : Packet} {rest : List Packet} {r : Request} {m : Message}

/-- **A move inside the tree** keeps the invariant if what it adds has an origin and it keeps
the order of the traffic of every node. -/
theorem move (h : Inv w) (hs : SameTree w w')
    (hdown : ∀ q, ∀ pkt ∈ (w'.proc q).down, pkt ∈ (w.proc q).down ∨ IsDown w pkt)
    (hup : ∀ q, ∀ pkt ∈ (w'.proc q).up, pkt ∈ (w.proc q).up ∨ IsUp w' q pkt)
    (hserved : ∀ q, ∀ x ∈ (w'.proc q).served, x ∈ (w.proc q).served ∨ IsServed w' q x)
    (hcrashed : ∀ q r, (w'.proc q).crashed = some r →
      ((w.proc q).crashed = some r ∧ (w'.proc q).running = (w.proc q).running) ∨ IsCrashed w' q r)
    (hanswered : ∀ x ∈ w'.answered, x ∈ w.answered ∨ ∃ q, x ∈ (w'.proc q).served)
    (hfifo : w.ids.Nodup → ∀ v, (w.proc v).path ≠ [] → Fifo w v → Fifo w' v) : Inv w' := by
  have hext : Extends w w' :=
    ⟨fun q _ => hs.path q, fun q _ => hs.id q, hs.served, fun r hr => by rwa [hs.issued]⟩
  refine ⟨h.tree.congr hs.count hs.ctrlChildren hs.children hs.path, ?_, fun hnd v hv => ?_⟩
  · refine h.packets.extend hext (fun q hq => ?_) (fun q pkt hp => ?_) hup hserved hcrashed
      hanswered ?_ (fun r hr => ?_) (fun i hi => ?_) ?_ (fun q hq => ?_)
    · rw [hs.path] at hq
      obtain ⟨hd, hsv, hc⟩ := hs.idle q hq
      rw [hd, hsv, hc]
      exact h.packets.idle q hq
    · exact (hdown q pkt hp).imp_right hext.isDown
    · rw [hs.issued]
      exact h.packets.tags
    · exact Or.inl (by rwa [hs.issued] at hr)
    · exact Or.inl (by rwa [hs.nodeIds] at hi)
    · rw [hs.nodeIds]
      exact h.packets.root
    · exact Or.inl ⟨by rwa [hs.count] at hq, hs.id q⟩
  · rw [hs.path] at hv
    have hnd' := ids_nodup_of_le hnd (by rw [hs.count]) fun q _ => hs.id q
    exact hfifo hnd' v hv (h.fifo hnd' v hv)

end Inv

/-! ### Messages that move -/

/-- The worlds differ in nothing but the links of the tree. -/
structure Relinked (w w' : World) : Prop where
  count : w'.count = w.count
  ctrl : w'.ctrl = w.ctrl
  issued : w'.issued = w.issued
  answered : w'.answered = w.answered
  frame : ∀ q, w'.proc q = { w.proc q with down := (w'.proc q).down, up := (w'.proc q).up }
  idle : ∀ q, (w.proc q).path = [] → (w'.proc q).down = (w.proc q).down

namespace Relinked

variable {w w' : World} {v : ℕ}

theorem node (h : Relinked w w') (q : ℕ) : (w'.proc q).node = (w.proc q).node := by
  rw [h.frame q]

theorem path (h : Relinked w w') (q : ℕ) : (w'.proc q).path = (w.proc q).path := by
  rw [h.frame q]

theorem served (h : Relinked w w') (q : ℕ) : (w'.proc q).served = (w.proc q).served := by
  rw [h.frame q]

theorem crashed (h : Relinked w w') (q : ℕ) : (w'.proc q).crashed = (w.proc q).crashed := by
  rw [h.frame q]

theorem running (h : Relinked w w') (q : ℕ) : (w'.proc q).running = (w.proc q).running := by
  rw [h.frame q]

theorem sameTree (h : Relinked w w') : SameTree w w' := by
  refine ⟨h.count, by rw [h.ctrl], by rw [h.ctrl], h.issued, h.path, fun q => ?_, fun q => ?_,
    fun q hq => ⟨h.idle q hq, h.served q, h.crashed q⟩, fun q x hx => ?_⟩
  · rw [h.node]
  · rw [h.node]
  · rwa [h.served]

/-- The order of the traffic only depends on what is in flight. -/
theorem fifo (h : Relinked w w') (hf : Fifo w v)
    (hrequests : inFlight (w.proc v).path.reverse
      (fun q => (w'.proc q).requests (w.proc v).node.id) =
        inFlight (w.proc v).path.reverse fun q => (w.proc q).requests (w.proc v).node.id)
    (hreplies : inFlight (w.proc v).path (fun q => (w'.proc q).replies (w.proc v).node.id) =
      inFlight (w.proc v).path fun q => (w.proc q).replies (w.proc v).node.id) :
    Fifo w' v := by
  refine hf.congr (by rw [h.node]) (h.path v) (h.served v) (h.crashed v) ?_ ?_ hrequests hreplies
  · unfold World.issuedTo
    rw [h.issued]
  · unfold World.answeredBy
    rw [h.answered]

end Relinked

namespace Inv

variable {w w' : World} {p c v : ℕ} {pkt : Packet} {rest : List Packet} {r : Request} {m : Message}

/-- **A move of messages** keeps the invariant if what it adds has an origin and what is in
flight for every node, and from it, stays the same. -/
theorem relinked (h : Inv w) (hr : Relinked w w')
    (hdown : ∀ q, ∀ pkt ∈ (w'.proc q).down, pkt ∈ (w.proc q).down ∨ IsDown w pkt)
    (hup : ∀ q, ∀ pkt ∈ (w'.proc q).up, pkt ∈ (w.proc q).up ∨ IsUp w q pkt)
    (hrequests : w.ids.Nodup → ∀ v, (w.proc v).path ≠ [] →
      inFlight (w.proc v).path.reverse (fun q => (w'.proc q).requests (w.proc v).node.id) =
        inFlight (w.proc v).path.reverse fun q => (w.proc q).requests (w.proc v).node.id)
    (hreplies : w.ids.Nodup → ∀ v, (w.proc v).path ≠ [] →
      inFlight (w.proc v).path (fun q => (w'.proc q).replies (w.proc v).node.id) =
        inFlight (w.proc v).path fun q => (w.proc q).replies (w.proc v).node.id) : Inv w' := by
  have hs := hr.sameTree
  have hext : Extends w w' :=
    ⟨fun q _ => hs.path q, fun q _ => hs.id q, hs.served, fun r hr => by rwa [hs.issued]⟩
  refine h.move hs hdown (fun q x hx => (hup q x hx).imp_right hext.isUp)
    (fun q x hx => Or.inl ?_) (fun q r hc => Or.inl ⟨?_, hr.running q⟩) (fun x hx => Or.inl ?_)
    fun hnd v hv hf => hr.fifo hf (hrequests hnd v hv) (hreplies hnd v hv)
  · rwa [hr.served] at hx
  · rwa [hr.crashed] at hc
  · rwa [hr.answered] at hx

/-- A process with a message in its link is in the tree. -/
theorem path_ne_nil (h : Inv w) (hdown : (w.proc p).down = pkt :: rest) :
    (w.proc p).path ≠ [] := by
  intro hnil
  have := (h.packets.idle p hnil).1
  rw [hdown] at this
  exact List.cons_ne_nil _ _ this

/-- A process is not its own child. -/
theorem self_notMem_children (h : Inv w) (p : ℕ) : p ∉ pids (w.proc p).node.children := by
  intro hmem
  obtain ⟨-, -, heq⟩ := h.tree.child p p hmem
  exact absurd heq.symm (by simp)

/-- Sending on only changes links. -/
theorem forward_eq (h : Inv w) (p : ℕ) (rest : List Packet) (pkt : Packet) :
    w.forward p rest pkt = { w with
    proc := fun q =>
      if q ∈ pids (w.proc p).node.children then
        { w.proc q with down := (w.proc q).down ++ [pkt] }
      else if q = p then { w.proc p with down := rest } else w.proc q } := by
  have hp := h.self_notMem_children p
  unfold World.forward broadcastToChildren
  rw [update_proc_self, sendAll_eq _ _ (h.tree.nodup p)]
  unfold World.update
  congr 1
  funext q
  by_cases hq : q ∈ pids (w.proc p).node.children
  · have hne : q ≠ p := fun heq => hp (heq ▸ hq)
    simp [hq, hne]
  · simp [hq, Function.update_apply]

/-- Sending on changes nothing of a process but its link from the parent. -/
theorem forward_frame (h : Inv w) (p : ℕ) (rest : List Packet) (pkt : Packet) (q : ℕ) :
    ∃ d, (w.forward p rest pkt).proc q = { w.proc q with down := d } := by
  rw [h.forward_eq]
  by_cases hq : q ∈ pids (w.proc p).node.children
  · exact ⟨(w.proc q).down ++ [pkt], if_pos hq⟩
  · by_cases hqp : q = p
    · subst hqp
      exact ⟨rest, by simp [hq]⟩
    · exact ⟨(w.proc q).down, by simp [hq, hqp]⟩

/-- What is in a link after sending on was in a link before. -/
theorem forward_down (h : Inv w) (hdown : (w.proc p).down = pkt :: rest) {q : ℕ} {x : Packet}
    (hx : x ∈ ((w.forward p rest pkt).proc q).down) :
    x ∈ (w.proc q).down ∨ (x = pkt ∧ q ∈ pids (w.proc p).node.children) := by
  rw [h.forward_eq] at hx
  by_cases hq : q ∈ pids (w.proc p).node.children
  · simp only [if_pos hq, List.mem_append, List.mem_singleton] at hx
    exact hx.imp_right fun heq => ⟨heq, hq⟩
  · by_cases hqp : q = p
    · subst hqp
      simp only [if_neg hq, if_true] at hx
      rw [hdown]
      exact Or.inl (List.mem_cons_of_mem _ hx)
    · simp only [if_neg hq, if_neg hqp] at hx
      exact Or.inl hx

/-- **Sending on keeps the order of the messages**: a copy moves one link down the path, and
what the sender itself takes is the first message on its way to it. -/
theorem forward_stream (h : Inv w) (hdown : (w.proc p).down = pkt :: rest)
    (hv : (w.proc v).path ≠ []) :
    w.stream v = (if v = p then [pkt] else []) ++ (w.forward p rest pkt).stream v := by
  have hp := h.self_notMem_children p
  have hnd := h.tree.path_nodup v
  have hself' : ((w.forward p rest pkt).proc p).down = rest := by
    rw [h.forward_eq]
    simp [hp]
  have hchild' : ∀ q ∈ pids (w.proc p).node.children,
      ((w.forward p rest pkt).proc q).down = (w.proc q).down ++ [pkt] := by
    intro q hq
    rw [h.forward_eq]
    simp only [if_pos hq]
  have hother : ∀ q, q ∉ pids (w.proc p).node.children → q ≠ p →
      ((w.forward p rest pkt).proc q).down = (w.proc q).down := by
    intro q hq hqp
    rw [h.forward_eq]
    simp [hq, hqp]
  obtain ⟨d, hd⟩ := h.forward_frame p rest pkt v
  have hpath : ((w.forward p rest pkt).proc v).path = (w.proc v).path := by rw [hd]
  unfold World.stream
  rw [hpath]
  by_cases hmem : p ∈ (w.proc v).path
  · by_cases heq : v = p
    · -- The children of the sender are not on its own path.
      subst heq
      obtain ⟨pre, hpre⟩ := h.tree.exists_path_eq hv
      rw [hpre] at hnd
      rw [if_pos rfl, hpre, List.reverse_append, List.reverse_singleton, List.singleton_append]
      refine inFlight.arrive hdown hself' fun q hq => ?_
      have hqpre := List.mem_reverse.mp hq
      refine hother q (fun hc => h.tree.child_notMem_path hv hc ?_) ?_
      · rw [hpre]
        exact List.mem_append_left _ hqpre
      · rintro rfl
        grind
    · obtain ⟨pre, c, post, hsplit, hc⟩ := h.tree.exists_next hv hmem (Ne.symm heq)
      have hrev : (w.proc v).path.reverse = post.reverse ++ c :: p :: pre.reverse := by
        rw [hsplit]
        simp
      have hout : ∀ q ∈ pre ++ post,
          ((w.forward p rest pkt).proc q).down = (w.proc q).down := by
        rw [hsplit] at hnd
        intro q hq
        have hqc : q ≠ c := by rintro rfl; grind
        have hqp : q ≠ p := by rintro rfl; grind
        refine hother q (fun hcq => hqc ?_) hqp
        apply h.tree.eq_next_of_child hv hsplit hcq
        rw [hsplit]
        grind
      have htaken : (w.proc p).down = [pkt] ++ rest := hdown
      rw [if_neg heq, List.nil_append, hrev]
      symm
      refine inFlight.relay htaken hself' (hchild' c hc) (fun q hq => ?_) fun q hq => ?_
      · exact hout q (List.mem_append_right _ (List.mem_reverse.mp hq))
      · exact hout q (List.mem_append_left _ (List.mem_reverse.mp hq))
  · have hvp : v ≠ p := by
      rintro rfl
      exact hmem (h.tree.self_mem_path hv)
    rw [if_neg hvp, List.nil_append]
    refine (inFlight.congr fun q hq => hother q (fun hc => hmem ?_) fun heq => hmem ?_).symm
    · obtain ⟨pre, post, hsplit⟩ := h.tree.path_eq_of_child hv hc (List.mem_reverse.mp hq)
      rw [hsplit]
      simp
    · exact heq ▸ List.mem_reverse.mp hq

/-- Sending on keeps the order of the requests. -/
theorem forward_inFlight (h : Inv w) (hdown : (w.proc p).down = pkt :: rest)
    (hv : (w.proc v).path ≠ []) {t : ℤ} (hpv : p = v → pkt.requests t = []) :
    inFlight (w.proc v).path.reverse (fun q => ((w.forward p rest pkt).proc q).requests t) =
      inFlight (w.proc v).path.reverse fun q => (w.proc q).requests t := by
  obtain ⟨d, hd⟩ := h.forward_frame p rest pkt v
  have hpath : ((w.forward p rest pkt).proc v).path = (w.proc v).path := by rw [hd]
  rw [stream_requests w v t, h.forward_stream hdown hv, List.flatMap_append, ← hpath,
    stream_requests]
  by_cases hvp : v = p
  · rw [if_pos hvp, List.flatMap_singleton, hpv hvp.symm, List.nil_append]
  · rw [if_neg hvp, List.flatMap_nil, List.nil_append]

/-- **What a process takes** is the first message on its way to it. -/
theorem stream_head (h : Inv w) (hdown : (w.proc p).down = pkt :: rest)
    (hdown' : (w'.proc p).down = rest) (hpath : (w'.proc p).path = (w.proc p).path)
    (hother : ∀ q ∈ (w.proc p).path, q ≠ p → (w'.proc q).down = (w.proc q).down) :
    w.stream p = pkt :: w'.stream p := by
  have hnd := h.tree.path_nodup p
  obtain ⟨pre, hpre⟩ := h.tree.exists_path_eq (h.path_ne_nil hdown)
  rw [hpre] at hnd hother
  unfold World.stream
  rw [hpath, hpre, List.reverse_append, List.reverse_singleton, List.singleton_append]
  show _ = [pkt] ++ _
  refine inFlight.arrive hdown hdown' fun q hq => ?_
  have hqpre := List.mem_reverse.mp hq
  apply hother q (List.mem_append_left _ hqpre)
  rintro rfl
  grind

/-- What a process takes and does not send on goes missing from the messages for the processes
below it. -/
theorem stream_below (hdown : (w.proc p).down = pkt :: rest) (hdown' : (w'.proc p).down = rest)
    (hpath : (w'.proc v).path = (w.proc v).path) (hnd : (w.proc v).path.Nodup)
    (hother : ∀ q ∈ (w.proc v).path, q ≠ p → (w'.proc q).down = (w.proc q).down) :
    w'.stream v = w.stream v ∨
      ∃ pre post, w.stream v = pre ++ pkt :: post ∧ w'.stream v = pre ++ post := by
  unfold World.stream
  rw [hpath]
  by_cases hmem : p ∈ (w.proc v).path.reverse
  · obtain ⟨pre, post, hsplit⟩ := List.append_of_mem hmem
    have hrev := List.nodup_reverse.mpr hnd
    rw [hsplit] at hrev
    have hsame : ∀ q ∈ pre ++ post, (w'.proc q).down = (w.proc q).down := by
      intro q hq
      have hqv : q ∈ (w.proc v).path.reverse := by
        rw [hsplit]
        grind
      apply hother q (List.mem_reverse.mp hqv)
      rintro rfl
      grind
    refine Or.inr ⟨inFlight pre fun q => (w.proc q).down,
      rest ++ inFlight post fun q => (w.proc q).down, ?_, ?_⟩
    · rw [hsplit, inFlight.append, inFlight.cons, hdown, List.cons_append]
    · rw [hsplit, inFlight.append, inFlight.cons, hdown',
        inFlight.congr fun q hq => hsame q (List.mem_append_left _ hq),
        inFlight.congr fun q hq => hsame q (List.mem_append_right _ hq)]
  · refine Or.inl (inFlight.congr fun q hq => hother q (List.mem_reverse.mp hq) ?_)
    rintro rfl
    exact hmem hq

/-- Sending on changes nothing but links of the tree. -/
theorem forward_relinked (h : Inv w) (hpath : (w.proc p).path ≠ []) :
    Relinked w (w.forward p rest pkt) := by
  have heq := h.forward_eq p rest pkt
  refine ⟨by rw [heq], by rw [heq], by rw [heq], by rw [heq], fun q => ?_, fun q hq => ?_⟩
  · obtain ⟨d, hd⟩ := h.forward_frame p rest pkt q
    rw [hd]
  · -- Neither the sender nor a child of it is outside of the tree.
    have hqc : q ∉ pids (w.proc p).node.children := by
      intro hmem
      have hchild := (h.tree.child p q hmem).2.2
      rw [hq] at hchild
      exact absurd hchild.symm (by simp)
    have hqp : q ≠ p := fun heq => hpath (heq ▸ hq)
    rw [heq]
    simp [hqc, hqp]

/-- **Sending on** a message that is not for the node itself. -/
theorem forward (h : Inv w) (hdown : (w.proc p).down = pkt :: rest)
    (hother : ∀ r, pkt.req = some r → r.msg.id ≠ (w.proc p).node.id) :
    Inv (w.forward p rest pkt) := by
  have hpkt : pkt ∈ (w.proc p).down := by rw [hdown]; exact List.mem_cons_self
  refine h.relinked (h.forward_relinked (h.path_ne_nil hdown)) (fun q x hx => ?_)
    (fun q x hx => Or.inl ?_) (fun _ v hv => ?_) fun _ v hv => inFlight.congr fun q _ => ?_
  · rcases h.forward_down hdown hx with hold | ⟨rfl, -⟩
    · exact Or.inl hold
    · exact Or.inr (h.packets.down p x hpkt)
  · obtain ⟨d, hd⟩ := h.forward_frame p rest pkt q
    rwa [hd] at hx
  · apply h.forward_inFlight hdown hv
    rintro rfl
    apply List.eq_nil_iff_forall_not_mem.mpr
    intro r hr
    obtain ⟨h₁, h₂⟩ := Packet.mem_requests.mp hr
    exact hother r h₁ h₂
  · obtain ⟨d, hd⟩ := h.forward_frame p rest pkt q
    rw [hd]
    rfl

end Inv

/-! ## Moves of one process -/

/-- Only the process `p` is different, and its node is the same. -/
structure OneChanged (w w' : World) (p : ℕ) : Prop where
  count : w'.count = w.count
  ctrlChildren : w'.ctrl.children = w.ctrl.children
  nodeIds : w'.ctrl.nodeIds = w.ctrl.nodeIds
  issued : w'.issued = w.issued
  other : ∀ q, q ≠ p → w'.proc q = w.proc q
  path : (w'.proc p).path = (w.proc p).path
  node : (w'.proc p).node = (w.proc p).node
  served : ∀ x ∈ (w.proc p).served, x ∈ (w'.proc p).served

theorem OneChanged.sameTree {w w' : World} {p : ℕ} (h : OneChanged w w' p)
    (hpath : (w.proc p).path ≠ []) : SameTree w w' := by
  refine ⟨h.count, h.ctrlChildren, h.nodeIds, h.issued, fun q => ?_, fun q => ?_, fun q => ?_,
    fun q hq => ?_, fun q x hx => ?_⟩
  all_goals
    by_cases hqp : q = p
    · subst hqp
      first
        | exact h.path
        | rw [h.node]
        | exact h.served x hx
        | exact absurd hq hpath
    · rw [h.other q hqp]
      try first | assumption | exact ⟨rfl, rfl, rfl⟩

namespace Inv

variable {w w' : World} {p c v : ℕ} {pkt : Packet} {rest : List Packet} {r : Request} {m : Message}

/-- A move of one process: only what is new at that process needs an origin. -/
theorem moveOne (h : Inv w) (hc : OneChanged w w' p) (hpath : (w.proc p).path ≠ [])
    (hdown : ∀ x ∈ (w'.proc p).down, x ∈ (w.proc p).down)
    (hup : ∀ x ∈ (w'.proc p).up, x ∈ (w.proc p).up ∨ IsUp w' p x)
    (hserved : ∀ x ∈ (w'.proc p).served, x ∈ (w.proc p).served ∨ IsServed w p x)
    (hcrashed : ∀ r, (w'.proc p).crashed = some r →
      ((w.proc p).crashed = some r ∧ (w'.proc p).running = (w.proc p).running) ∨ IsCrashed w' p r)
    (hanswered : ∀ x ∈ w'.answered, x ∈ w.answered ∨ ∃ q, x ∈ (w'.proc q).served)
    (hfifo : w.ids.Nodup → ∀ v, (w.proc v).path ≠ [] → Fifo w v → Fifo w' v) : Inv w' := by
  have hs := hc.sameTree hpath
  have hext : Extends w w' :=
    ⟨fun q _ => hs.path q, fun q _ => hs.id q, hs.served, fun r hr => by rwa [hs.issued]⟩
  refine h.move hs (fun q x hx => Or.inl ?_) (fun q x hx => ?_) (fun q x hx => ?_)
    (fun q r hr => ?_) hanswered hfifo
  · by_cases hq : q = p
    · exact hq ▸ hdown x (hq ▸ hx)
    · rwa [hc.other q hq] at hx
  · by_cases hq : q = p
    · exact hq ▸ hup x (hq ▸ hx)
    · exact Or.inl (by rwa [hc.other q hq] at hx)
  · by_cases hq : q = p
    · subst hq
      exact (hserved x hx).imp_right (hext.isServed hpath)
    · exact Or.inl (by rwa [hc.other q hq] at hx)
  · by_cases hq : q = p
    · subst hq
      exact hcrashed r hr
    · rw [hc.other q hq] at hr ⊢
      exact Or.inl ⟨hr, rfl⟩

/-- The traffic of a node is not changed by a move that only concerns other nodes. -/
theorem fifo_of_other (hc : OneChanged w w' p) (hvp : v ≠ p) (hf : Fifo w v)
    (hanswered : w'.answeredBy (w.proc v).node.id = w.answeredBy (w.proc v).node.id)
    (hrequests : (w'.proc p).requests (w.proc v).node.id = (w.proc p).requests (w.proc v).node.id)
    (hreplies : (w'.proc p).replies (w.proc v).node.id = (w.proc p).replies (w.proc v).node.id) :
    Fifo w' v := by
  have hv := hc.other v hvp
  refine hf.congr (by rw [hv]) (by rw [hv]) (by rw [hv]) (by rw [hv]) ?_ hanswered
    (inFlight.congr fun q _ => ?_) (inFlight.congr fun q _ => ?_)
  · unfold World.issuedTo
    rw [hc.issued]
  · by_cases hq : q = p
    · rw [hq, hrequests]
    · rw [hc.other q hq]
  · by_cases hq : q = p
    · rw [hq, hreplies]
    · rw [hc.other q hq]

/-- The first request for a node in its own link is the next that it will act on. -/
theorem requests_head (h : Inv w) (hc : OneChanged w w' p)
    (hdown : (w.proc p).down = ⟨r.msg, some r⟩ :: rest) (hdown' : (w'.proc p).down = rest)
    (htarget : r.msg.id = (w.proc p).node.id) :
    inFlight (w.proc p).path.reverse (fun q => (w.proc q).requests (w.proc p).node.id) =
      [r] ++ inFlight (w.proc p).path.reverse
        fun q => (w'.proc q).requests (w.proc p).node.id := by
  rw [stream_requests, h.stream_head hdown hdown' hc.path fun q _ hq => by rw [hc.other q hq],
    List.flatMap_cons, Packet.requests_self htarget, ← hc.path, stream_requests]

theorem crashed_eq_none (h : Inv w) (hrun : (w.proc p).running = true) :
    (w.proc p).crashed = none := by
  apply Option.eq_none_iff_forall_ne_some.mpr
  intro r hr
  have := (h.packets.crashed p r hr).stopped
  rw [hrun] at this
  exact absurd this (by decide)

/-- A request in a link was broadcast. -/
theorem mem_issued (h : Inv w) (hmem : ⟨m, some r⟩ ∈ (w.proc p).down) :
    r ∈ w.issued ∧ m = r.msg := by
  rcases h.packets.down p _ hmem with ⟨r', hr', heq⟩ | ⟨heq, -⟩
  · obtain ⟨hm, hreq⟩ := Packet.mk.inj heq
    obtain rfl := Option.some.inj hreq
    exact ⟨hr', hm⟩
  · exact absurd heq (Option.some_ne_none r)

/-- **Acting** on a request and replying to it. -/
theorem serve (h : Inv w) (hdown : (w.proc p).down = ⟨r.msg, some r⟩ :: rest)
    (hrun : (w.proc p).running = true) (htarget : r.msg.id = (w.proc p).node.id)
    (hreply : IsReply w r.msg m) : Inv (w.serve p rest r m) := by
  have hpath := h.path_ne_nil hdown
  have hself : (w.serve p rest r m).proc p = { w.proc p with
      down := rest, up := (w.proc p).up ++ [⟨m, some r⟩]
      served := (w.proc p).served ++ [(r, m)] } := update_proc_self _ _ _
  have hc : OneChanged w (w.serve p rest r m) p := by
    refine ⟨rfl, rfl, rfl, rfl, fun q hq => update_proc_of_ne _ _ _ _ hq, ?_, ?_, fun x hx => ?_⟩
    · rw [hself]
    · rw [hself]
    · rw [hself]
      exact List.mem_append_left _ hx
  refine h.moveOne hc hpath (fun x hx => ?_) (fun x hx => ?_) (fun x hx => ?_) (fun r' hr => ?_)
    (fun x hx => Or.inl hx) fun hnd v hv hf => ?_
  · rw [hself] at hx
    rw [hdown]
    exact List.mem_cons_of_mem _ hx
  · rw [hself] at hx
    apply (List.mem_append.mp hx).imp_right
    intro hx
    refine Or.inl ⟨r, m, List.mem_singleton.mp hx, p, ?_, ?_⟩
    · rw [hself]
      exact h.tree.self_mem_path hpath
    · rw [hself]
      simp
  · rw [hself] at hx
    apply (List.mem_append.mp hx).imp_right
    intro hx
    obtain rfl := List.mem_singleton.mp hx
    exact ⟨(h.mem_issued (by rw [hdown]; exact List.mem_cons_self)).1, htarget, hreply⟩
  · rw [hself] at hr ⊢
    exact Or.inl ⟨hr, rfl⟩
  · by_cases hvp : v = p
    · subst hvp
      have hrequests := hf.requests
      have hreplies := hf.replies
      -- the process itself: its request leaves the link down, its reply joins the link up
      rw [h.requests_head hc hdown (by rw [hself]) htarget, h.crashed_eq_none hrun] at hrequests
      constructor
      · rw [hc.path, hc.node, hself]
        show w.issuedTo _ = _
        rw [hrequests, h.crashed_eq_none hrun]
        simp
      · obtain ⟨pre, hpre⟩ := h.tree.exists_path_eq hv
        have hnodup := h.tree.path_nodup v
        rw [hc.path, hc.node]
        rw [hpre] at hnodup hreplies ⊢
        have hdepart : inFlight (pre ++ [v])
            (fun q => ((w.serve v rest r m).proc q).replies (w.proc v).node.id) =
            inFlight (pre ++ [v]) (fun q => (w.proc q).replies (w.proc v).node.id) ++ [(r, m)] := by
          refine inFlight.depart ?_ fun q hq => ?_
          · rw [hself]
            simp [Process.replies, Packet.replies_self htarget]
          · have hqv : q ≠ v := by rintro rfl; grind
            rw [hc.other q hqv]
        rw [hdepart, hself]
        show (w.proc v).served ++ [(r, m)] = w.answeredBy _ ++ _
        rw [hreplies, List.append_assoc]
    · -- another id: neither link holds anything for it that has changed
      have hne : r.msg.id ≠ (w.proc v).node.id := fun heq =>
        hvp (ids_inj hnd (h.path_lt hv) (h.path_lt hpath) (heq.symm.trans htarget))
      refine fifo_of_other hc hvp hf rfl ?_ ?_
      · rw [hself]
        unfold Process.requests
        rw [hdown, List.flatMap_cons, Packet.requests_of_ne hne, List.nil_append]
      · rw [hself]
        unfold Process.replies
        rw [List.flatMap_append, List.flatMap_singleton, Packet.replies_of_ne hne, List.append_nil]

/-- **Throwing** while a create request is handled. -/
theorem crash (h : Inv w) (hdown : (w.proc p).down = ⟨r.msg, some r⟩ :: rest)
    (hrun : (w.proc p).running = true) (htarget : r.msg.id = (w.proc p).node.id)
    (hcreate : r.msg.command = .create) : Inv (w.crash p rest r) := by
  have hpath := h.path_ne_nil hdown
  have hself : (w.crash p rest r).proc p = { w.proc p with
      down := rest, running := false, crashed := some r } := update_proc_self _ _ _
  have hc : OneChanged w (w.crash p rest r) p := by
    refine ⟨rfl, rfl, rfl, rfl, fun q hq => update_proc_of_ne _ _ _ _ hq, ?_, ?_, fun x hx => ?_⟩
    · rw [hself]
    · rw [hself]
    · rwa [hself]
  refine h.moveOne hc hpath (fun x hx => ?_) (fun x hx => Or.inl ?_) (fun x hx => Or.inl ?_)
    (fun r' hr => ?_) (fun x hx => Or.inl hx) fun hnd v hv hf => ?_
  · rw [hself] at hx
    rw [hdown]
    exact List.mem_cons_of_mem _ hx
  · rwa [hself] at hx
  · rwa [hself] at hx
  · rw [hself] at hr
    obtain rfl := Option.some.inj hr
    refine Or.inr ⟨by rw [hself], ?_, ?_, hcreate⟩
    · exact (h.mem_issued (by rw [hdown]; exact List.mem_cons_self)).1
    · rw [hself]
      exact htarget
  · by_cases hvp : v = p
    · subst hvp
      have hrequests := hf.requests
      rw [h.requests_head hc hdown (by rw [hself]) htarget, h.crashed_eq_none hrun] at hrequests
      -- the request has left the link and is the one that crashed `v`
      constructor
      · rw [hc.path, hc.node, hself]
        show w.issuedTo _ = _
        rw [hrequests]
        simp
      · rw [hc.path, hc.node]
        have hreplies : ∀ q, ((w.crash v rest r).proc q).replies (w.proc v).node.id =
            (w.proc q).replies (w.proc v).node.id := by
          intro q
          by_cases hq : q = v
          · subst hq
            rw [hself]
            rfl
          · rw [hc.other q hq]
        rw [inFlight.congr fun q _ => hreplies q, hself]
        exact hf.replies
    · have hne : r.msg.id ≠ (w.proc v).node.id := fun heq =>
        hvp (ids_inj hnd (h.path_lt hv) (h.path_lt hpath) (heq.symm.trans htarget))
      refine fifo_of_other hc hvp hf rfl ?_ (by rw [hself]; rfl)
      rw [hself]
      unfold Process.requests
      rw [hdown, List.flatMap_cons, Packet.requests_of_ne hne, List.nil_append]

end Inv

end NodeTree
