/-
# The invariant holds in every run

The remaining moves (broadcasts, beats and new processes) keep the invariant, so every step
does.
-/
import OSLabs.NodeTreeReplies

namespace NodeTree

/-! ## Broadcasts -/

namespace Inv

variable {w w' : World} {p c v : ℕ} {pkt : Packet} {rest : List Packet} {r : Request} {m : Message}

/-- What a broadcast of the controller does to each process. -/
theorem sendAll_proc (h : Inv w) (pkt : Packet) (q : ℕ) :
    (w.sendAll w.ctrl.children pkt).proc q =
      if q ∈ pids w.ctrl.children then { w.proc q with down := (w.proc q).down ++ [pkt] }
      else w.proc q := by
  rw [sendAll_eq w pkt h.tree.nodupCtrl]

/-- **A broadcast comes last** in the messages for every node of the tree. -/
theorem sendAll_stream (h : Inv w) (pkt : Packet) (hv : (w.proc v).path ≠ []) :
    (w.sendAll w.ctrl.children pkt).stream v = w.stream v ++ [pkt] := by
  have hpath' : ((w.sendAll w.ctrl.children pkt).proc v).path = (w.proc v).path := by
    rw [h.sendAll_proc]
    split_ifs <;> rfl
  obtain ⟨c, post, hpath, hc⟩ := h.tree.exists_head hv
  have hnodup := h.tree.path_nodup v
  unfold World.stream
  rw [hpath']
  rw [hpath] at hnodup ⊢
  rw [List.reverse_cons]
  refine inFlight.depart ?_ fun q hq => ?_
  · rw [h.sendAll_proc, if_pos hc]
  · have hqc : q ∉ pids w.ctrl.children := by
      intro hmem
      have hqv : q ∈ (w.proc v).path := by
        rw [hpath]
        exact List.mem_cons_of_mem _ (List.mem_reverse.mp hq)
      obtain ⟨post', hpath'⟩ := h.tree.path_eq_of_ctrlChild hv hmem hqv
      obtain rfl : c = q := (List.cons.inj (hpath.symm.trans hpath')).1
      exact (List.nodup_cons.mp hnodup).1 (List.mem_reverse.mp hq)
    rw [h.sendAll_proc, if_neg hqc]

/-- A broadcast puts its request at the end of the requests on every path. -/
theorem sendAll_inFlight (h : Inv w) (pkt : Packet) (hv : (w.proc v).path ≠ []) (t : ℤ) :
    inFlight (w.proc v).path.reverse
        (fun q => ((w.sendAll w.ctrl.children pkt).proc q).requests t) =
      inFlight (w.proc v).path.reverse (fun q => (w.proc q).requests t) ++ pkt.requests t := by
  have hpath : ((w.sendAll w.ctrl.children pkt).proc v).path = (w.proc v).path := by
    rw [h.sendAll_proc]
    split_ifs <;> rfl
  rw [stream_requests w v t, ← hpath, stream_requests, h.sendAll_stream pkt hv,
    List.flatMap_append, List.flatMap_singleton]

/-- A broadcast changes nothing of a process but its link from the parent. -/
theorem sendAll_frame (h : Inv w) (pkt : Packet) (q : ℕ) :
    ∃ d, (w.sendAll w.ctrl.children pkt).proc q = { w.proc q with down := d } ∧
      (∀ x ∈ d, x ∈ (w.proc q).down ∨ x = pkt) ∧ ((w.proc q).path = [] → d = (w.proc q).down) := by
  by_cases hq : q ∈ pids w.ctrl.children
  · refine ⟨(w.proc q).down ++ [pkt], by rw [h.sendAll_proc, if_pos hq], fun x hx => ?_, fun hnil => ?_⟩
    · exact (List.mem_append.mp hx).imp_right List.mem_singleton.mp
    · rw [(h.tree.ctrlChild q hq).2] at hnil
      exact absurd hnil (List.cons_ne_nil q [])
  · exact ⟨(w.proc q).down, by rw [h.sendAll_proc, if_neg hq], fun x hx => Or.inl hx, fun _ => rfl⟩

/-- **A heartbeat setting** is broadcast. -/
theorem sendBeatSetting (h : Inv w) (hcmd : m.command = .heartBeat) :
    Inv (w.sendAll w.ctrl.children ⟨m, none⟩) := by
  have hframe := h.sendAll_frame ⟨m, none⟩
  have heq := sendAll_eq w ⟨m, none⟩ h.tree.nodupCtrl
  have hr : Relinked w (w.sendAll w.ctrl.children ⟨m, none⟩) := by
    refine ⟨by rw [heq], by rw [heq], by rw [heq], by rw [heq], fun q => ?_, fun q hq => ?_⟩
    · obtain ⟨d, hd, -⟩ := hframe q
      rw [hd]
    · obtain ⟨d, hd, -, hnil⟩ := hframe q
      rw [hd]
      exact hnil hq
  refine h.relinked hr (fun q x hx => ?_) (fun q x hx => Or.inl ?_) (fun _ v hv => ?_)
    fun _ v _ => inFlight.congr fun q _ => ?_
  · obtain ⟨d, hd, hmem, -⟩ := hframe q
    rw [hd] at hx
    rcases hmem x hx with hold | rfl
    · exact Or.inl hold
    · exact Or.inr (Or.inr ⟨rfl, hcmd⟩)
  · obtain ⟨d, hd, -⟩ := hframe q
    rwa [hd] at hx
  · rw [h.sendAll_inFlight ⟨m, none⟩ hv, Packet.requests_none, List.append_nil]
  · obtain ⟨d, hd, -⟩ := hframe q
    rw [hd]
    rfl

/-- The heartbeat command sets the time and puts a setting into every link of the controller. -/
theorem handleHeartbeatCommand_eq (h : Inv w) (time : ℤ) :
    handleHeartbeatCommand w time = { w with
      proc := fun q =>
        if q ∈ pids w.ctrl.children then
          { w.proc q with
            down := (w.proc q).down ++ [⟨.of w.clock .heartBeat (-1) time, none⟩] }
        else w.proc q
      ctrl := { w.ctrl with
        heartbeat := time
        beatTracker := w.ctrl.beatTracker.map fun e => (e.1, w.clock) } } := by
  unfold handleHeartbeatCommand
  exact sendAll_eq _ _ h.tree.nodupCtrl

/-- The heartbeat command changes nothing of a process but its link from the parent. -/
theorem handleHeartbeatCommand_frame (h : Inv w) (time : ℤ) (q : ℕ) :
    ∃ d, (handleHeartbeatCommand w time).proc q = { w.proc q with down := d } := by
  rw [h.handleHeartbeatCommand_eq]
  dsimp only
  split_ifs
  · exact ⟨_, rfl⟩
  · exact ⟨(w.proc q).down, rfl⟩

/-! ### Requests -/

/-- A broadcast records the request and puts a copy of it into every link of the controller. -/
theorem broadcastMessage_eq (h : Inv w) (m : Message) :
    broadcastMessage w m = { w with
      proc := fun q =>
        if q ∈ pids w.ctrl.children then
          { w.proc q with down := (w.proc q).down ++ [⟨m, some ⟨w.issued.length, m⟩⟩] }
        else w.proc q
      ctrl := { w.ctrl with
        pendingMessages := w.ctrl.pendingMessages ++ [⟨w.issued.length, m⟩] }
      issued := w.issued ++ [⟨w.issued.length, m⟩] } := by
  unfold broadcastMessage
  exact sendAll_eq _ _ h.tree.nodupCtrl

/-- The links after a broadcast. -/
theorem broadcastMessage_proc (h : Inv w) (m : Message) :
    (broadcastMessage w m).proc =
      (w.sendAll w.ctrl.children ⟨m, some ⟨w.issued.length, m⟩⟩).proc := by
  rw [h.broadcastMessage_eq, sendAll_eq w _ h.tree.nodupCtrl]

/-- A broadcast changes nothing of a process but its link from the parent. -/
theorem broadcastMessage_frame (h : Inv w) (m : Message) (q : ℕ) :
    ∃ d, (broadcastMessage w m).proc q = { w.proc q with down := d } ∧
      (∀ x ∈ d, x ∈ (w.proc q).down ∨ x = ⟨m, some ⟨w.issued.length, m⟩⟩) ∧
      ((w.proc q).path = [] → d = (w.proc q).down) := by
  rw [h.broadcastMessage_proc]
  exact h.sendAll_frame _ q

theorem broadcastMessage_issued (h : Inv w) (m : Message) :
    (broadcastMessage w m).issued = w.issued ++ [⟨w.issued.length, m⟩] := by
  rw [h.broadcastMessage_eq]

theorem broadcastMessage_extends (h : Inv w) (m : Message) :
    Extends w (broadcastMessage w m) := by
  refine ⟨fun q _ => ?_, fun q _ => ?_, fun q x hx => ?_, fun r hr => ?_⟩
  · obtain ⟨d, hd, -⟩ := h.broadcastMessage_frame m q
    rw [hd]
  · obtain ⟨d, hd, -⟩ := h.broadcastMessage_frame m q
    rw [hd]
  · obtain ⟨d, hd, -⟩ := h.broadcastMessage_frame m q
    rwa [hd]
  · rw [h.broadcastMessage_issued]
    exact List.mem_append_left _ hr

/-- The origin of every message after a broadcast. -/
theorem broadcastMessage_packets (h : Inv w) (hm : IsRequest w m) :
    Packets (broadcastMessage w m) := by
  have hframe := h.broadcastMessage_frame m
  have hext := h.broadcastMessage_extends m
  have heq := h.broadcastMessage_eq m
  have hissued := h.broadcastMessage_issued m
  refine h.packets.extend hext (fun q hq => ?_) (fun q x hx => ?_) (fun q x hx => Or.inl ?_)
    (fun q x hx => Or.inl ?_) (fun q r hr => Or.inl ?_) (fun x hx => Or.inl ?_) ?_
    (fun r hr => ?_) (fun i hi => Or.inl ?_) ?_ (fun q hq => Or.inl ⟨?_, ?_⟩)
  · obtain ⟨d, hd, -, hnil⟩ := hframe q
    rw [hd] at hq ⊢
    show d = [] ∧ _
    rw [hnil hq]
    exact h.packets.idle q hq
  · -- A new copy is one of the new request.
    obtain ⟨d, hd, hmem, -⟩ := hframe q
    rw [hd] at hx
    refine (hmem x hx).imp_right fun hx => Or.inl ⟨⟨w.issued.length, m⟩, ?_, hx⟩
    rw [hissued]
    exact List.mem_append_right _ (List.mem_singleton.mpr rfl)
  · obtain ⟨d, hd, -⟩ := hframe q
    rwa [hd] at hx
  · obtain ⟨d, hd, -⟩ := hframe q
    rwa [hd] at hx
  · obtain ⟨d, hd, -⟩ := hframe q
    rw [hd] at hr ⊢
    exact ⟨hr, rfl⟩
  · rwa [heq] at hx
  · rw [hissued, List.map_append, h.packets.tags, List.length_append, List.length_singleton,
      List.range_succ]
    rfl
  · rw [hissued] at hr
    apply (List.mem_append.mp hr).imp_right
    intro hr
    obtain rfl := List.mem_singleton.mp hr
    exact hext.isRequest hm
  · rwa [heq] at hi
  · rw [heq]
    exact h.packets.root
  · rwa [heq] at hq
  · obtain ⟨d, hd, -⟩ := hframe q
    rw [hd]

/-- A broadcast keeps the order of the traffic: the new request is the last one everywhere. -/
theorem broadcastMessage_fifo (h : Inv w) (m : Message) (hv : (w.proc v).path ≠ [])
    (hf : Fifo w v) : Fifo (broadcastMessage w m) v := by
  have hframe := h.broadcastMessage_frame m
  obtain ⟨d, hd, -⟩ := hframe v
  have hid : ((broadcastMessage w m).proc v).node.id = (w.proc v).node.id := by rw [hd]
  have hpath : ((broadcastMessage w m).proc v).path = (w.proc v).path := by rw [hd]
  have hserved : ((broadcastMessage w m).proc v).served = (w.proc v).served := by rw [hd]
  have hcrashed : ((broadcastMessage w m).proc v).crashed = (w.proc v).crashed := by rw [hd]
  constructor
  · rw [hid, hpath, hserved, hcrashed, h.broadcastMessage_proc, h.sendAll_inFlight _ hv,
      ← List.append_assoc, ← hf.requests]
    unfold World.issuedTo
    rw [h.broadcastMessage_issued, List.filter_append]
    congr 1
  · rw [hid, hpath, hserved]
    have hreplies : ∀ q, ((broadcastMessage w m).proc q).replies (w.proc v).node.id =
        (w.proc q).replies (w.proc v).node.id := by
      intro q
      obtain ⟨d', hd', -⟩ := hframe q
      rw [hd']
      rfl
    unfold World.answeredBy
    rw [h.broadcastMessage_eq, inFlight.congr fun q _ => ?_]
    · exact hf.replies
    · rw [← h.broadcastMessage_eq]
      exact hreplies q

/-- **A request** is broadcast. -/
theorem issue (h : Inv w) (hm : IsRequest w m) : Inv (broadcastMessage w m) := by
  have hframe := h.broadcastMessage_frame m
  have heq := h.broadcastMessage_eq m
  have hpath : ∀ q, ((broadcastMessage w m).proc q).path = (w.proc q).path := by
    intro q
    obtain ⟨d, hd, -⟩ := hframe q
    rw [hd]
  refine ⟨h.tree.congr (by rw [heq]) (by rw [heq]) (fun q => ?_) hpath,
    h.broadcastMessage_packets hm, fun hnd v hv => ?_⟩
  · obtain ⟨d, hd, -⟩ := hframe q
    rw [hd]
  · rw [hpath] at hv
    refine h.broadcastMessage_fifo m hv (h.fifo (ids_nodup_of_le hnd (by rw [heq]) ?_) v hv)
    intro q _
    obtain ⟨d, hd, -⟩ := hframe q
    rw [hd]

/-! ### Beats -/

/-- **A heartbeat** joins the messages for the parent. -/
theorem sendUp (h : Inv w) (hcmd : m.command = .heartBeat) : Inv (w.sendUp p ⟨m, none⟩) := by
  have hframe : ∀ q, ∃ u, (w.sendUp p ⟨m, none⟩).proc q = { w.proc q with up := u } ∧
      (∀ x ∈ u, x ∈ (w.proc q).up ∨ x = ⟨m, none⟩) ∧
      ∀ t, u.flatMap (Packet.replies t) = (w.proc q).replies t := by
    intro q
    by_cases hq : q = p
    · subst hq
      refine ⟨(w.proc q).up ++ [⟨m, none⟩], by rw [World.sendUp, update_proc_self], fun x hx => ?_,
        fun t => ?_⟩
      · exact (List.mem_append.mp hx).imp_right List.mem_singleton.mp
      · rw [List.flatMap_append, List.flatMap_singleton, Packet.replies_none, List.append_nil]
        rfl
    · exact ⟨(w.proc q).up, by rw [World.sendUp, update_proc_of_ne _ _ _ _ hq],
        fun x hx => Or.inl hx, fun t => rfl⟩
  have hr : Relinked w (w.sendUp p ⟨m, none⟩) := by
    refine ⟨rfl, rfl, rfl, rfl, fun q => ?_, fun q _ => ?_⟩
    · obtain ⟨u, hu, -⟩ := hframe q
      rw [hu]
    · obtain ⟨u, hu, -⟩ := hframe q
      rw [hu]
  refine h.relinked hr (fun q x hx => Or.inl ?_) (fun q x hx => ?_)
    (fun _ v _ => inFlight.congr fun q _ => ?_) fun _ v _ => inFlight.congr fun q _ => ?_
  · obtain ⟨u, hu, -⟩ := hframe q
    rwa [hu] at hx
  · obtain ⟨u, hu, hmem, -⟩ := hframe q
    rw [hu] at hx
    rcases hmem x hx with hold | rfl
    · exact Or.inl hold
    · exact Or.inr (Or.inr ⟨rfl, hcmd⟩)
  · obtain ⟨u, hu, -⟩ := hframe q
    rw [hu]
    rfl
  · obtain ⟨u, hu, -, ht⟩ := hframe q
    rw [hu]
    exact ht _

end Inv

/-! ## New processes -/

/-- `w'` has one more process, with the given id; the others keep their links and records. -/
structure Forked (w w' : World) (id : ℤ) : Prop where
  count : w'.count = w.count + 1
  newId : (w'.proc w.count).node.id = id
  newLinks : (w'.proc w.count).down = [] ∧ (w'.proc w.count).up = []
  newRecords : (w'.proc w.count).served = [] ∧ (w'.proc w.count).crashed = none
  old : ∀ q, q ≠ w.count → ∃ n : ComputingNode,
    w'.proc q = { w.proc q with node := n } ∧ n.id = (w.proc q).node.id
  issued : w'.issued = w.issued
  answered : w'.answered = w.answered
  nodeIds : w.ctrl.nodeIds ⊆ w'.ctrl.nodeIds
  registered : ∀ i ∈ w'.ctrl.nodeIds, i ∈ w.ctrl.nodeIds ∨ InTree w' i

namespace Forked

variable {w w' : World} {id : ℤ} {q : ℕ}

theorem ids (hf : Forked w w' id) (hq : q < w.count) :
    (w'.proc q).node.id = (w.proc q).node.id := by
  obtain ⟨n, hn, hnid⟩ := hf.old q (Nat.ne_of_lt hq)
  rw [hn, hnid]

/-- What is found at a process was there before: the new one has nothing. -/
theorem mem_old {α : Type*} (hf : Forked w w' id) (f : Process → List α)
    (hnew : f (w'.proc w.count) = []) (hnode : ∀ n, f { w.proc q with node := n } = f (w.proc q))
    {x : α} (hx : x ∈ f (w'.proc q)) : x ∈ f (w.proc q) := by
  by_cases hq : q = w.count
  · rw [hq, hnew] at hx
    exact absurd hx List.not_mem_nil
  · obtain ⟨n, hn, -⟩ := hf.old q hq
    rwa [hn, hnode] at hx

end Forked

/-- **The tree grows** by at most one process, below the controller or a process of the tree. -/
theorem Tree.grow {w w' : World} (h : Tree w) {a : List ℕ} {b : ℕ → List ℕ}
    (hcount : w'.count = w.count + 1)
    (hpath : ∀ q, q ≠ w.count → (w'.proc q).path = (w.proc q).path)
    (hctrl : pids w'.ctrl.children = pids w.ctrl.children ++ a)
    (hnew : (w'.proc w.count).node.children = [])
    (hchildren : ∀ q, q ≠ w.count →
      pids (w'.proc q).node.children = pids (w.proc q).node.children ++ b q)
    (ha : a.Nodup ∧ ∀ c ∈ a, c = w.count ∧ (w'.proc w.count).path = [w.count])
    (hb : ∀ q, (b q).Nodup ∧ ∀ c ∈ b q, c = w.count ∧ (w.proc q).path ≠ [] ∧
      (w'.proc w.count).path = (w.proc q).path ++ [w.count])
    (hparent : (w'.proc w.count).path ≠ [] → w.count ∈ a ∨ ∃ u < w.count, w.count ∈ b u) :
    Tree w' := by
  have hlt : ∀ u, u < w.count → u ≠ w.count := fun u hu => Nat.ne_of_lt hu
  have hold : ∀ c ∈ pids w.ctrl.children, c < w.count := fun c hc => (h.ctrlChild c hc).1
  have hold' : ∀ u, ∀ c ∈ pids (w.proc u).node.children, c < w.count :=
    fun u c hc => (h.child u c hc).1
  refine ⟨fun c hc => ?_, fun u c hc => ?_, ?_, fun u => ?_, fun v hv => ?_⟩
  · -- the controller's children
    rw [hctrl] at hc
    rcases List.mem_append.mp hc with hc | hc
    · obtain ⟨h₁, h₂⟩ := h.ctrlChild c hc
      exact ⟨by omega, by rw [hpath c (hlt c h₁), h₂]⟩
    · obtain ⟨rfl, h₂⟩ := ha.2 c hc
      exact ⟨by omega, h₂⟩
  · -- the children of a process: the new one has none
    by_cases hu : u = w.count
    · rw [hu, hnew] at hc
      exact absurd hc List.not_mem_nil
    · rw [hchildren u hu] at hc
      rw [hpath u hu]
      rcases List.mem_append.mp hc with hc | hc
      · obtain ⟨h₁, h₂, h₃⟩ := h.child u c hc
        exact ⟨by omega, h₂, by rw [hpath c (hlt c h₁), h₃]⟩
      · obtain ⟨rfl, h₂, h₃⟩ := (hb u).2 c hc
        exact ⟨by omega, h₂, h₃⟩
  · rw [hctrl]
    refine List.nodup_append.mpr ⟨h.nodupCtrl, ha.1, fun x hx y hy heq => ?_⟩
    have h₁ := hold x hx
    have h₂ := (ha.2 y hy).1
    omega
  · by_cases hu : u = w.count
    · rw [hu, hnew]
      exact List.nodup_nil
    · rw [hchildren u hu]
      refine List.nodup_append.mpr ⟨h.nodup u, (hb u).1, fun x hx y hy heq => ?_⟩
      have h₁ := hold' u x hx
      have h₂ := ((hb u).2 y hy).1
      omega
  · -- every process of the tree has a parent: the new one by `hparent`
    by_cases hvc : v = w.count
    · subst hvc
      refine ⟨by omega, (hparent hv).imp (fun hmem => ?_) fun ⟨u, hu, hmem⟩ => ?_⟩
      · exact ⟨(ha.2 _ hmem).2, by rw [hctrl]; exact List.mem_append_right _ hmem⟩
      · obtain ⟨-, h₂, h₃⟩ := (hb u).2 _ hmem
        refine ⟨u, hu, ?_, ?_, ?_⟩
        · rwa [hpath u (hlt u hu)]
        · rw [hpath u (hlt u hu), h₃]
        · rw [hchildren u (hlt u hu)]
          exact List.mem_append_right _ hmem
    · rw [hpath v hvc] at hv ⊢
      obtain ⟨hvlt, hcase⟩ := h.parent v hv
      refine ⟨by omega, hcase.imp (fun ⟨h₁, h₂⟩ => ⟨h₁, ?_⟩) fun ⟨u, huv, h₁, h₂, h₃⟩ => ?_⟩
      · rw [hctrl]
        exact List.mem_append_left _ h₂
      · have hu := hlt u (huv.trans hvlt)
        refine ⟨u, huv, by rwa [hpath u hu], by rw [hpath u hu, h₂], ?_⟩
        rw [hchildren u hu]
        exact List.mem_append_left _ h₃

namespace Inv

variable {w w' : World} {p : ℕ} {id : ℤ}

/-- No message concerns an id that no process of the tree has. -/
theorem no_traffic (h : Inv w) (hid : id ≠ -1) (hnew : ¬ InTree w id) :
    (∀ r ∈ w.issued, r.msg.id ≠ id) ∧ (∀ q, (w.proc q).requests id = []) ∧
      (∀ q, (w.proc q).replies id = []) := by
  have hissued : ∀ r ∈ w.issued, r.msg.id ≠ id := by
    rintro r hr rfl
    exact (h.packets.request r hr).target.elim hid hnew
  refine ⟨hissued, fun q => ?_, fun q => ?_⟩
  · apply List.flatMap_eq_nil_iff.mpr
    intro pkt hpkt
    rcases h.packets.down q pkt hpkt with ⟨r, hr, rfl⟩ | ⟨hnone, -⟩
    · exact Packet.requests_of_ne (hissued r hr)
    · simp [Packet.requests, hnone]
  · apply List.flatMap_eq_nil_iff.mpr
    intro pkt hpkt
    rcases h.packets.up q pkt hpkt with ⟨r, m, rfl, u, -, hserved⟩ | ⟨hnone, -⟩
    · exact Packet.replies_of_ne (hissued r (h.packets.served u _ hserved).issued)
    · simp [Packet.replies, Packet.requests, hnone]

/-- There is nothing of the process that the next fork starts. -/
theorem path_count (h : Inv w) : (w.proc w.count).path = [] := by
  by_contra hne
  exact absurd (h.path_lt hne) (Nat.lt_irrefl _)

theorem ne_count (h : Inv w) {q : ℕ} (hq : (w.proc q).path ≠ []) : q ≠ w.count :=
  fun heq => hq (heq ▸ h.path_count)

theorem forked_extends (h : Inv w) (hf : Forked w w' id) : Extends w w' := by
  refine ⟨fun q hq => ?_, fun q hq => hf.ids (h.path_lt hq), fun q x hx => ?_,
    fun r hr => by rwa [hf.issued]⟩
  · obtain ⟨n, hn, -⟩ := hf.old q (h.ne_count hq)
    rw [hn]
  · by_cases hq : q = w.count
    · rw [hq, (h.packets.idle _ h.path_count).2.1] at hx
      exact absurd hx List.not_mem_nil
    · obtain ⟨n, hn, -⟩ := hf.old q hq
      rwa [hn]

/-- A new process brings no message and no record. -/
theorem forked_packets (h : Inv w) (hf : Forked w w' id) (hid : id ≠ -1) : Packets w' := by
  refine h.packets.extend (h.forked_extends hf) (fun q hq => ?_) (fun q x hx => Or.inl ?_)
    (fun q x hx => Or.inl ?_) (fun q x hx => Or.inl ?_) (fun q r hr => Or.inl ?_)
    (fun x hx => Or.inl (by rwa [hf.answered] at hx)) ?_
    (fun r hr => Or.inl (by rwa [hf.issued] at hr)) hf.registered
    (hf.nodeIds h.packets.root) (fun q hq => ?_)
  · by_cases hqc : q = w.count
    · subst hqc
      exact ⟨hf.newLinks.1, hf.newRecords⟩
    · obtain ⟨n, hn, -⟩ := hf.old q hqc
      rw [hn] at hq ⊢
      exact h.packets.idle q hq
  · exact hf.mem_old Process.down hf.newLinks.1 (fun _ => rfl) hx
  · exact hf.mem_old Process.up hf.newLinks.2 (fun _ => rfl) hx
  · exact hf.mem_old Process.served hf.newRecords.1 (fun _ => rfl) hx
  · by_cases hqc : q = w.count
    · rw [hqc, hf.newRecords.2] at hr
      exact absurd hr.symm (Option.some_ne_none r)
    · obtain ⟨n, hn, -⟩ := hf.old q hqc
      rw [hn] at hr ⊢
      exact ⟨hr, rfl⟩
  · rw [hf.issued]
    exact h.packets.tags
  · by_cases hqc : q = w.count
    · exact Or.inr (by rwa [hqc, hf.newId])
    · rw [hf.count] at hq
      have hlt : q < w.count := by omega
      exact Or.inl ⟨hlt, hf.ids hlt⟩

/-- Nothing is under way for a new id. -/
theorem forked_fifo_new (h : Inv w) (hf : Forked w w' id) (hid : id ≠ -1) (hnew : ¬ InTree w id) :
    Fifo w' w.count := by
  obtain ⟨hissued, hrequests, hreplies⟩ := h.no_traffic hid hnew
  constructor
  · -- requests: none issued, none on a link
    rw [hf.newId, hf.newRecords.1, hf.newRecords.2]
    have hissuedTo : w'.issuedTo id = [] := by
      unfold World.issuedTo
      rw [hf.issued]
      exact List.filter_eq_nil_iff.mpr fun r hr => by simpa using hissued r hr
    have hflight : inFlight (w'.proc w.count).path.reverse
        (fun q => (w'.proc q).requests id) = [] := by
      apply List.flatMap_eq_nil_iff.mpr
      intro q _
      by_cases hqc : q = w.count
      · rw [Process.requests, hqc, hf.newLinks.1]
        rfl
      · obtain ⟨n, hn, -⟩ := hf.old q hqc
        rw [Process.requests, hn]
        exact hrequests q
    rw [hissuedTo, hflight]
    rfl
  · -- replies: none answered, none on a link
    rw [hf.newId, hf.newRecords.1]
    have hanswered : w'.answeredBy id = [] := by
      unfold World.answeredBy
      rw [hf.answered]
      apply List.filter_eq_nil_iff.mpr
      intro x hx
      obtain ⟨u, hu⟩ := h.packets.answered x hx
      simpa using hissued _ (h.packets.served u x hu).issued
    have hflight : inFlight (w'.proc w.count).path (fun q => (w'.proc q).replies id) = [] := by
      apply List.flatMap_eq_nil_iff.mpr
      intro q _
      by_cases hqc : q = w.count
      · rw [Process.replies, hqc, hf.newLinks.2]
        rfl
      · obtain ⟨n, hn, -⟩ := hf.old q hqc
        rw [Process.replies, hn]
        exact hreplies q
    rw [hanswered, hflight]
    rfl

/-- The traffic of the other nodes stays as it is. -/
theorem forked_fifo_old (h : Inv w) (hf : Forked w w' id) {v : ℕ} (hv : (w.proc v).path ≠ [])
    (hfifo : Fifo w v) : Fifo w' v := by
  obtain ⟨n, hn, hnid⟩ := hf.old v (h.ne_count hv)
  have hold : ∀ q ∈ (w.proc v).path, q ≠ w.count :=
    fun q hq => h.ne_count (h.tree.path_prefix_path hv hq).1
  refine hfifo.congr (by rw [hn, hnid]) (by rw [hn]) (by rw [hn]) (by rw [hn])
    (by unfold World.issuedTo; rw [hf.issued]) (by unfold World.answeredBy; rw [hf.answered])
    (inFlight.congr fun q hq => ?_) (inFlight.congr fun q hq => ?_)
  · obtain ⟨n', hn', -⟩ := hf.old q (hold q (List.mem_reverse.mp hq))
    rw [hn']
    rfl
  · obtain ⟨n', hn', -⟩ := hf.old q (hold q hq)
    rw [hn']
    rfl

/-- **A new process** keeps the invariant. -/
theorem forked (h : Inv w) (hf : Forked w w' id) (hid : id ≠ -1) (htree : Tree w') : Inv w' := by
  refine ⟨htree, h.forked_packets hf hid, fun hnd v hv => ?_⟩
  have hle : w.count ≤ w'.count := by rw [hf.count]; exact Nat.le_succ _
  have hnd' : w.ids.Nodup := ids_nodup_of_le hnd hle fun q hq => hf.ids hq
  by_cases hvc : v = w.count
  · subst hvc
    apply h.forked_fifo_new hf hid
    rintro ⟨u, hu, huid⟩
    have hlt := h.path_lt hu
    have heq : u = w.count := by
      apply ids_inj hnd (by rw [hf.count]; omega) (by rw [hf.count]; omega)
      rw [hf.ids hlt, huid, hf.newId]
    omega
  · obtain ⟨n, hn, -⟩ := hf.old v hvc
    have hvpath : (w.proc v).path ≠ [] := by rwa [hn] at hv
    exact h.forked_fifo_old hf hvpath (h.fifo hnd' v hvpath)

end Inv

end NodeTree
