/-
# When the node ids are distinct

`handle_create_command` registers the id of a child of a node only when the reply arrives, so
a second create of the same id before that is accepted and forks again.  The ids stay distinct
in the runs in which no accepted create can repeat the id of a process, or of a create request
that a node can still act on.
-/
import OSLabs.NodeTreeDelivery

namespace NodeTree

/-! ## Requests that can still be acted on -/

/-- A copy of the request is on the way to the process that it is for, and all processes from
there on are running. -/
def Travelling (w : World) (r : Request) : Prop :=
  ∃ v, (w.proc v).node.id = r.msg.id ∧ ∃ q ∈ (w.proc v).path,
    ⟨r.msg, some r⟩ ∈ (w.proc q).down ∧ ∀ u ∈ (w.proc v).path, q ≤ u → (w.proc u).running = true

section Travelling

variable {w w' : World} {r : Request} {p : ℕ} {m : Message}

theorem Travelling.issued (h : Inv w) (ht : Travelling w r) : r ∈ w.issued := by
  obtain ⟨v, -, q, -, hmem, -⟩ := ht
  exact (h.mem_issued hmem).1

/-- A request that a process acted on, or threw at, is not on its way any more. -/
theorem Inv.not_travelling (h : Inv w) (hnd : w.ids.Nodup) {v : ℕ} (hv : (w.proc v).path ≠ [])
    (hid : (w.proc v).node.id = r.msg.id)
    (hr : r ∈ (w.proc v).served.map Prod.fst ++ (w.proc v).crashed.toList) :
    ¬ Travelling w r := by
  rintro ⟨u, hu, q, hq, hmem, -⟩
  obtain rfl : u = v := ids_inj hnd (h.path_lt (List.ne_nil_of_mem hq)) (h.path_lt hv)
    (hu.trans hid.symm)
  have hnodup : (w.issuedTo (w.proc u).node.id).Nodup := h.packets.issued_nodup.filter _
  rw [(h.fifo hnd u hv).requests] at hnodup
  refine (List.nodup_append.mp hnodup).2.2 r hr r ?_ rfl
  refine inFlight.mem_iff.mpr ⟨q, List.mem_reverse.mpr hq, List.mem_flatMap.mpr ⟨_, hmem, ?_⟩⟩
  exact Packet.mem_requests.mpr ⟨rfl, hu.symm⟩

/-- The first request in the link of a running process that it is for is on its way. -/
theorem Inv.travelling_first (h : Inv w) {rest : List Packet} (hfirst : IsFirst w p r rest)
    (hrun : (w.proc p).running = true) (hid : r.msg.id = (w.proc p).node.id) :
    Travelling w r := by
  have hpath := h.path_ne_nil hfirst.down
  refine ⟨p, hid.symm, p, h.tree.self_mem_path hpath, ?_, fun u hu hpu => ?_⟩
  · rw [hfirst.down]
    exact List.mem_cons_self
  · have := (h.tree.path_prefix_path hpath hu).2.1
    obtain rfl : u = p := by omega
    exact hrun

/-- The tree is the same, no process starts to run, and nothing is added to the requests in
the links. -/
structure Calm (w w' : World) : Prop where
  count : w'.count = w.count
  id : ∀ v, (w'.proc v).node.id = (w.proc v).node.id
  path : ∀ v, (w'.proc v).path = (w.proc v).path
  running : ∀ v, (w'.proc v).running = true → (w.proc v).running = true
  down : ∀ q, ∀ pkt ∈ (w'.proc q).down, pkt ∈ (w.proc q).down ∨ pkt.req = none

theorem Calm.ids (h : Calm w w') : w'.ids = w.ids := by
  unfold World.ids
  rw [h.count]
  exact List.map_congr_left fun v _ => h.id v

theorem Calm.travelling (h : Calm w w') (ht : Travelling w' r) : Travelling w r := by
  obtain ⟨v, hv, q, hq, hmem, hrun⟩ := ht
  rw [h.path] at hq hrun
  refine ⟨v, (h.id v).symm.trans hv, q, hq, ?_, fun u hu hqu => h.running u (hrun u hu hqu)⟩
  exact (h.down q _ hmem).resolve_right (Option.some_ne_none r)

theorem Calm.of_onlyUp (h : OnlyUp w w') : Calm w w' := by
  refine ⟨h.count, fun v => ?_, h.path, fun v hr => (h.running v).symm.trans hr,
    fun v pkt hpkt => Or.inl ((h.down v) ▸ hpkt)⟩
  obtain ⟨u, t, hv⟩ := h.proc v
  rw [hv]

/-- A change of one process that adds nothing to its link. -/
theorem calm_update {f : Process → Process} (hid : (f (w.proc p)).node.id = (w.proc p).node.id)
    (hpath : (f (w.proc p)).path = (w.proc p).path)
    (hrun : (f (w.proc p)).running = true → (w.proc p).running = true)
    (hdown : ∀ pkt ∈ (f (w.proc p)).down, pkt ∈ (w.proc p).down) : Calm w (w.update p f) := by
  refine ⟨rfl, fun v => ?_, fun v => ?_, fun v => ?_, fun v pkt => ?_⟩
  all_goals
    rw [update_proc]
    split_ifs with hv
    · subst hv
      first
        | exact hid
        | exact hpath
        | exact hrun
        | exact fun hmem => Or.inl (hdown pkt hmem)
    · first
        | rfl
        | exact fun hmem => hmem
        | exact fun hmem => Or.inl hmem

/-- A change of the controller or the clock only. -/
theorem Calm.of_eq (hcount : w'.count = w.count) (hproc : w'.proc = w.proc) : Calm w w' := by
  refine ⟨hcount, ?_, ?_, ?_, ?_⟩
  all_goals rw [hproc]
  · exact fun v => rfl
  · exact fun v => rfl
  · exact fun v hv => hv
  · exact fun q pkt hmem => Or.inl hmem

/-- A broadcast without a request. -/
theorem Inv.calm_sendAll (h : Inv w) {pkt : Packet} (hnone : pkt.req = none) :
    Calm w (w.sendAll w.ctrl.children pkt) := by
  refine ⟨by rw [sendAll_eq w pkt h.tree.nodupCtrl], fun v => ?_, fun v => ?_, fun v hv => ?_,
    fun v x hx => ?_⟩
  all_goals
    obtain ⟨d, hd, hmem, -⟩ := h.sendAll_frame pkt v
  · rw [hd]
  · rw [hd]
  · rwa [hd] at hv
  · rw [hd] at hx
    rcases hmem x hx with hold | rfl
    · exact Or.inl hold
    · exact Or.inr hnone

theorem Calm.trans {w'' : World} (h : Calm w w') (h' : Calm w' w'') : Calm w w'' := by
  refine ⟨h'.count.trans h.count, fun v => (h'.id v).trans (h.id v),
    fun v => (h'.path v).trans (h.path v), fun v hv => h.running v (h'.running v hv),
    fun q pkt hmem => ?_⟩
  exact (h'.down q pkt hmem).elim (h.down q pkt) Or.inr

/-- A request sent on was on the way before. -/
theorem Inv.travelling_forward (h : Inv w) {rest : List Packet} {pkt : Packet}
    (hdown : (w.proc p).down = pkt :: rest) (hrun : (w.proc p).running = true)
    (ht : Travelling (w.forward p rest pkt) r) : Travelling w r := by
  have hframe := h.forward_frame p rest pkt
  have hpath : ∀ q, ((w.forward p rest pkt).proc q).path = (w.proc q).path := fun q => by
    obtain ⟨d, hd⟩ := hframe q
    rw [hd]
  have hrunning : ∀ q, ((w.forward p rest pkt).proc q).running = (w.proc q).running := fun q => by
    obtain ⟨d, hd⟩ := hframe q
    rw [hd]
  obtain ⟨v, hv, q, hq, hmem, hall⟩ := ht
  have hid : (w.proc v).node.id = r.msg.id := by
    obtain ⟨d, hd⟩ := hframe v
    rwa [hd] at hv
  rw [hpath] at hq hall
  simp only [hrunning] at hall
  rcases h.forward_down hdown hmem with hold | ⟨rfl, hchild⟩
  · exact ⟨v, hid, q, hq, hold, hall⟩
  · have hvpath := List.ne_nil_of_mem hq
    obtain ⟨pre, post, hsplit⟩ := h.tree.path_eq_of_child hvpath hchild hq
    have hsorted := h.tree.path_pairwise v
    refine ⟨v, hid, p, by rw [hsplit]; simp, by rw [hdown]; exact List.mem_cons_self,
      fun u hu hpu => ?_⟩
    -- The only process of the path between `p` and its child is `p`.
    by_cases hup : u = p
    · rwa [hup]
    · apply hall u hu
      rw [hsplit] at hu hsorted
      obtain ⟨-, htail, hcross⟩ := List.pairwise_append.mp hsorted
      rcases List.mem_append.mp hu with hu | hu
      · have := hcross u hu p List.mem_cons_self
        omega
      · rcases List.mem_cons.mp ((List.mem_cons.mp hu).resolve_left hup) with rfl | hu
        · exact le_rfl
        · exact ((List.pairwise_cons.mp (List.pairwise_cons.mp htail).2).1 u hu).le

/-- A new process brings no request on its way. -/
theorem Inv.travelling_forked (h : Inv w) {id : ℤ} (hf : Forked w w' id) (hid : id ≠ -1)
    (hnew : ¬ InTree w id) (ht : Travelling w' r) : Travelling w r := by
  have hcount : (w.proc w.count).path = [] := by
    by_contra hne
    exact absurd (h.path_lt hne) (Nat.lt_irrefl _)
  obtain ⟨v, hv, q, hq, hmem, hall⟩ := ht
  have hqold : q ≠ w.count := fun heq => by
    rw [heq, hf.newLinks.1] at hmem
    exact absurd hmem List.not_mem_nil
  obtain ⟨n, hn, -⟩ := hf.old q hqold
  rw [hn] at hmem
  by_cases hvc : v = w.count
  · subst hvc
    have hissued := (h.mem_issued hmem).1
    exact absurd (hv.symm.trans hf.newId) ((h.no_traffic hid hnew).1 r hissued)
  · obtain ⟨n', hn', hid'⟩ := hf.old v hvc
    rw [hn'] at hv hq hall
    refine ⟨v, hid'.symm.trans hv, q, hq, hmem, fun u hu hqu => ?_⟩
    have hu' : u ≠ w.count :=
      fun heq => (h.tree.path_prefix_path (List.ne_nil_of_mem hq) hu).1 (heq ▸ hcount)
    obtain ⟨n'', hn'', -⟩ := hf.old u hu'
    have hrun := hall u hu hqu
    rwa [hn''] at hrun

/-- A request that is on its way after a broadcast was on its way before, or it is the new
one and all processes on its path are running. -/
theorem Inv.travelling_issue (h : Inv w) (ht : Travelling (broadcastMessage w m) r) :
    Travelling w r ∨ (r.msg = m ∧ r.tag = w.issued.length ∧ ∃ v, (w.proc v).path ≠ [] ∧
      (w.proc v).node.id = m.id ∧ ∀ u ∈ (w.proc v).path, (w.proc u).running = true) := by
  have hproc : ∀ q, (broadcastMessage w m).proc q = if q ∈ pids w.ctrl.children then
      { w.proc q with down := (w.proc q).down ++ [⟨m, some ⟨w.issued.length, m⟩⟩] }
      else w.proc q := by
    intro q
    rw [h.broadcastMessage_eq]
  have hframe : ∀ q, ∃ d, (broadcastMessage w m).proc q = { w.proc q with down := d } := by
    intro q
    rw [hproc]
    split_ifs
    · exact ⟨_, rfl⟩
    · exact ⟨(w.proc q).down, rfl⟩
  obtain ⟨v, hv, q, hq, hmem, hall⟩ := ht
  obtain ⟨d, hd⟩ := hframe v
  rw [hd] at hv hq hall
  have hall' : ∀ u ∈ (w.proc v).path, q ≤ u → (w.proc u).running = true := fun u hu hqu => by
    obtain ⟨d', hd'⟩ := hframe u
    have hrun := hall u hu hqu
    rwa [hd'] at hrun
  rw [hproc] at hmem
  split_ifs at hmem with hchild
  · rcases List.mem_append.mp hmem with hold | hnew
    · exact Or.inl ⟨v, hv, q, hq, hold, hall'⟩
    · obtain ⟨hmsg, hreq⟩ := Packet.mk.inj (List.mem_singleton.mp hnew)
      obtain rfl := Option.some.inj hreq
      have hvpath : (w.proc v).path ≠ [] := List.ne_nil_of_mem hq
      refine Or.inr ⟨rfl, rfl, v, hvpath, hv, fun u hu => hall' u hu ?_⟩
      -- A child of the controller is the first process of the path.
      obtain ⟨post, hpost⟩ := h.tree.path_eq_of_ctrlChild hvpath hchild hq
      have hsorted := h.tree.path_pairwise v
      rw [hpost] at hu hsorted
      rcases List.mem_cons.mp hu with rfl | hu
      · exact le_rfl
      · exact ((List.pairwise_cons.mp hsorted).1 u hu).le
  · exact Or.inl ⟨v, hv, q, hq, hmem, hall'⟩

end Travelling

/-! ## Distinct ids -/

/-- The create command can lead to a fork: the parent is the controller, whose `fork` does not
fail, or a process to which all processes on the way are running. -/
def CanFork (w : World) (parentId : ℤ) (o : Outcome) : Prop :=
  (parentId = -1 ∧ o ≠ .forkFailed) ∨ ∃ v, (w.proc v).path ≠ [] ∧
    (w.proc v).node.id = parentId ∧ ∀ u ∈ (w.proc v).path, (w.proc u).running = true

/-- If the step is an accepted create that can lead to a fork, no process has the id of the
child, and no create request for that id is on its way. -/
def FreshCreate (w : World) : Event → Prop
  | .command (.create childId parentId) o =>
    childId ∉ w.ctrl.nodeIds → parentId ∈ w.ctrl.nodeIds → CanFork w parentId o →
      childId ∉ w.ids ∧
        ∀ r, Travelling w r → r.msg.command = .create → r.msg.addData ≠ childId
  | _ => True

/-- A step that repeats no id. -/
def FreshStep (w : World) (e : Event) (w' : World) : Prop := Step w e w' ∧ FreshCreate w e

/-- **The ids are distinct, and stay so**: also the create requests on their way name new ids,
each a different one. -/
structure Distinct (w : World) : Prop where
  nodup : w.ids.Nodup
  fresh : ∀ r, Travelling w r → r.msg.command = .create → r.msg.addData ∉ w.ids
  once : ∀ r r', Travelling w r → Travelling w r' → r.msg.command = .create →
    r'.msg.command = .create → r.msg.addData = r'.msg.addData → r = r'

namespace Distinct

variable {w w' : World} {p : ℕ} {r : Request}

theorem mono (h : Distinct w) (hids : w'.ids = w.ids)
    (ht : ∀ r, Travelling w' r → Travelling w r) : Distinct w' := by
  refine ⟨hids ▸ h.nodup, fun r hr hcmd => ?_, fun r r' hr hr' => ?_⟩
  · rw [hids]
    exact h.fresh r (ht r hr) hcmd
  · exact h.once r r' (ht r hr) (ht r' hr')

theorem calm (h : Distinct w) (hc : Calm w w') : Distinct w' :=
  h.mono hc.ids fun _ hr => hc.travelling hr

/-- The ids after a new process has started. -/
theorem ids_forked {id : ℤ} (hf : Forked w w' id) : w'.ids = w.ids ++ [id] := by
  unfold World.ids
  rw [hf.count, List.range_succ, List.map_append, List.map_singleton, hf.newId]
  congr 1
  apply List.map_congr_left
  intro v hv
  obtain ⟨n, hn, hid⟩ := hf.old v (Nat.ne_of_lt (List.mem_range.mp hv))
  rw [hn, hid]

/-- The id of a process of the tree is one of the ids. -/
theorem mem_ids_of_inTree (h : Inv w) {id : ℤ} (hid : InTree w id) : id ∈ w.ids := by
  obtain ⟨v, hv, rfl⟩ := hid
  exact List.mem_map_of_mem (List.mem_range.mpr (h.path_lt hv))

/-- A new process with a new id, which no other request on its way names. -/
theorem forked (h : Distinct w) (hinv : Inv w) {id : ℤ} (hf : Forked w w' id) (hid : id ≠ -1)
    (hnew : id ∉ w.ids) : w'.ids.Nodup ∧
    (∀ r, Travelling w' r → r.msg.command = .create → r.msg.addData ≠ id →
      r.msg.addData ∉ w'.ids) ∧
    ∀ r, Travelling w' r → Travelling w r := by
  have hids := ids_forked hf
  have htree : ¬ InTree w id := fun hin => hnew (mem_ids_of_inTree hinv hin)
  have hold : ∀ r, Travelling w' r → Travelling w r :=
    fun r => hinv.travelling_forked hf hid htree
  refine ⟨?_, fun r hr hcmd hne => ?_, hold⟩
  · rw [hids]
    exact List.nodup_append.mpr ⟨h.nodup, List.nodup_singleton id,
      fun x hx y hy heq => hnew (List.mem_singleton.mp hy ▸ heq ▸ hx)⟩
  · rw [hids]
    intro hmem
    rcases List.mem_append.mp hmem with hmem | hmem
    · exact h.fresh r (hold r hr) hcmd hmem
    · exact hne (List.mem_singleton.mp hmem)

/-- A create request that is acted on starts a process with a new id, or none. -/
theorem started (h : Distinct w) (hinv : Inv w) {w₁ : World} (hid : r.msg.addData ≠ -1)
    (hr : Travelling w r) (hcmd : r.msg.command = .create) (hf : Forked w w₁ r.msg.addData)
    (hc : Calm w₁ w') (hgone : w'.ids.Nodup → ¬ Travelling w' r) : Distinct w' := by
  obtain ⟨hnodup, hfresh, hold⟩ := h.forked hinv hf hid (h.fresh r hr hcmd)
  have hnodup' : w'.ids.Nodup := hc.ids ▸ hnodup
  refine ⟨hnodup', fun r' hr' hcmd' => ?_, fun r' r'' hr' hr'' => ?_⟩
  · rw [hc.ids]
    have ht := hc.travelling hr'
    apply hfresh r' ht hcmd'
    intro heq
    -- The requests on their way name different ids, and `r` is not on its way any more.
    obtain rfl := h.once r' r (hold r' ht) hr hcmd' hcmd heq
    exact hgone hnodup' hr'
  · exact h.once r' r'' (hold r' (hc.travelling hr')) (hold r'' (hc.travelling hr''))

/-- A direct create starts a process with a new id. -/
theorem startedCtrl (h : Distinct w) (hinv : Inv w) {w₁ : World} {id : ℤ} (hid : id ≠ -1)
    (hnew : id ∉ w.ids)
    (hother : ∀ r, Travelling w r → r.msg.command = .create → r.msg.addData ≠ id)
    (hf : Forked w w₁ id) (hc : Calm w₁ w') : Distinct w' := by
  obtain ⟨hnodup, hfresh, hold⟩ := h.forked hinv hf hid hnew
  refine ⟨hc.ids ▸ hnodup, fun r hr hcmd => ?_, fun r r' hr hr' => ?_⟩
  · rw [hc.ids]
    have ht := hc.travelling hr
    exact hfresh r ht hcmd (hother r (hold r ht) hcmd)
  · exact h.once r r' (hold r (hc.travelling hr)) (hold r' (hc.travelling hr'))

theorem setNode (h : Distinct w) (f : ComputingNode → ComputingNode)
    (hf : ∀ n, (f n).id = n.id) : Distinct (w.setNode p f) :=
  h.calm (calm_update (hf _) rfl (fun hr => hr) fun _ hmem => hmem)

theorem forward (h : Distinct w) (hinv : Inv w) {rest : List Packet} {pkt : Packet}
    (hdown : (w.proc p).down = pkt :: rest) (hrun : (w.proc p).running = true) :
    Distinct (w.forward p rest pkt) := by
  refine h.mono ?_ fun r hr => hinv.travelling_forward hdown hrun hr
  unfold World.ids
  rw [hinv.forward_eq]
  apply List.map_congr_left
  intro v _
  dsimp only
  split_ifs with h₁ h₂
  · rfl
  · rw [h₂]
  · rfl

/-- **Handling a message of the parent** keeps the ids distinct. -/
theorem receiveDown (h : Distinct w) (hinv : Inv w) (hp : p < w.count)
    (hrun : (w.proc p).running = true) (o : Outcome) : Distinct (receiveDown w p o) := by
  have hinv' : Inv (NodeTree.receiveDown w p o) := hinv.receiveDown hp hrun o
  have hrest : ∀ r rest, IsFirst w p r rest → ∀ x ∈ rest, x ∈ (w.proc p).down :=
    fun r rest hfirst x hx => by rw [hfirst.down]; exact List.mem_cons_of_mem _ hx
  have hreceived := hinv.received hp o
  generalize NodeTree.receiveDown w p o = w' at hreceived hinv' ⊢
  cases hreceived with
  | nothing => exact h
  | beat pkt rest hdown hnone =>
    have hset := h.setNode (fun n => { n with heartbeat := pkt.msg.addData }) (p := p)
      fun n => rfl
    have hself : (w.setNode p fun n => { n with heartbeat := pkt.msg.addData }).proc p =
        { w.proc p with node := { (w.proc p).node with heartbeat := pkt.msg.addData } } :=
      update_proc_self _ _ _
    exact hset.forward (hinv.setHeartbeat p _) (by rw [hself]; exact hdown)
      (by rw [hself]; exact hrun)
  | other r rest hfirst hid => exact h.forward hinv hfirst.down hrun
  | answered r rest hfirst hid hcmd =>
    refine (h.setNode _ fun n => (Inv.act_keeps n _).1).calm (calm_update rfl rfl (fun hr => hr) ?_)
    intro x hx
    rw [World.setNode, update_proc_self]
    exact hrest r rest hfirst x hx
  | created r rest hfirst hid hcmd =>
    have hpath := hinv.path_ne_nil hfirst.down
    have hself := attach_proc w p r.msg.addData hp p
    rw [if_pos rfl] at hself
    refine h.started hinv (hfirst.request.create hcmd).2 (hinv.travelling_first hfirst hrun hid)
      hcmd (forked_attach hp) (calm_update rfl rfl (fun hr => hr) fun x hx => ?_) fun hnd => ?_
    · rw [hself]
      exact hrest r rest hfirst x hx
    · -- the reply keeps anything else with this id from being under way
      have hself' : ((w.attach p r.msg.addData).serve p rest r
          (.of w.clock .create r.msg.addData w.count)).proc p = _ := update_proc_self _ _ _
      refine hinv'.not_travelling hnd (v := p) ?_ ?_ ?_
      · rw [hself', hself]
        exact hpath
      · rw [hself', hself]
        exact hid.symm
      · rw [hself']
        simp
  | notForked r rest hfirst hid hcmd =>
    exact h.calm (calm_update rfl rfl (fun hf => absurd hf Bool.false_ne_true) (hrest r rest hfirst))
  | notBound r rest hfirst hid hcmd =>
    -- the process is there although its creator has crashed
    have hpath := hinv.path_ne_nil hfirst.down
    have hself := fork_proc_of_lt w r.msg.addData [] hp
    refine h.started hinv (hfirst.request.create hcmd).2 (hinv.travelling_first hfirst hrun hid)
      hcmd (forked_fork []) (calm_update rfl rfl (fun hf => absurd hf Bool.false_ne_true) fun x hx => ?_)
      fun hnd => ?_
    · rw [hself]
      exact hrest r rest hfirst x hx
    · have hself' : ((w.fork r.msg.addData []).crash p rest r).proc p = _ := update_proc_self _ _ _
      refine hinv'.not_travelling hnd (v := p) ?_ ?_ ?_
      · rw [hself', hself]
        exact hpath
      · rw [hself', hself]
        exact hid.symm
      · rw [hself']
        simp

/-- **A command** that repeats no id keeps the ids distinct. -/
theorem command (h : Distinct w) (hinv : Inv w) (cmd : Command) (o : Outcome)
    (hfresh : FreshCreate w (.command cmd o)) : Distinct (handleCommand w o cmd) := by
  have hroot := hinv.packets.root
  have hchild : ∀ id, id ∉ w.ctrl.nodeIds → id ≠ -1 := fun id hid heq => hid (heq ▸ hroot)
  have hcmd := hinv.commanded o cmd
  generalize handleCommand w o cmd = w' at hcmd ⊢
  rcases hcmd with line | ⟨m, hm, hcreate⟩ | ⟨id, rfl, hid, rfl⟩ | ⟨id, rfl, hid, rfl⟩ |
    ⟨id, rfl, hid, rfl⟩ | time
  · exact h.calm (.of_eq rfl rfl)
  · have hids : (broadcastMessage w m).ids = w.ids := by
      unfold World.ids
      rw [hinv.broadcastMessage_eq]
      apply List.map_congr_left
      intro v _
      dsimp only
      split_ifs <;> rfl
    -- The new request may be on its way, and names an id that nothing else names.
    have hnew : ∀ v, (w.proc v).path ≠ [] → (w.proc v).node.id = m.id →
        (∀ u ∈ (w.proc v).path, (w.proc u).running = true) → m.command = .create →
        m.addData ∉ w.ids ∧
          ∀ r, Travelling w r → r.msg.command = .create → r.msg.addData ≠ m.addData := by
      intro v hv hvid hrun hc
      obtain ⟨rfl, hnot, hmem⟩ := hcreate hc
      exact hfresh hnot hmem (Or.inr ⟨v, hv, hvid, hrun⟩)
    refine ⟨hids ▸ h.nodup, fun r hr hc => ?_, fun r r' hr hr' hc hc' heq => ?_⟩
    · rw [hids]
      rcases hinv.travelling_issue hr with hold | ⟨rfl, -, v, hv, hvid, hrun⟩
      · exact h.fresh r hold hc
      · exact (hnew v hv hvid hrun hc).1
    · rcases hinv.travelling_issue hr with hold | ⟨hmsg, htag, v, hv, hvid, hrun⟩
      · rcases hinv.travelling_issue hr' with hold' | ⟨hmsg', -, v, hv, hvid, hrun⟩
        · exact h.once r r' hold hold' hc hc' heq
        · rw [hmsg'] at hc' heq
          exact absurd heq ((hnew v hv hvid hrun hc').2 r hold hc)
      · rcases hinv.travelling_issue hr' with hold' | ⟨hmsg', htag', -⟩
        · rw [hmsg] at hc heq
          exact absurd heq.symm ((hnew v hv hvid hrun hc).2 r' hold' hc')
        · cases r
          cases r'
          simp_all
  · obtain ⟨hnew, hother⟩ := hfresh hid hroot (Or.inl ⟨rfl, by decide⟩)
    exact h.startedCtrl hinv (hchild id hid) hnew hother forked_attachCtrl (.of_eq rfl rfl)
  · exact h.calm (.of_eq rfl rfl)
  · obtain ⟨hnew, hother⟩ := hfresh hid hroot (Or.inl ⟨rfl, by decide⟩)
    exact h.startedCtrl hinv (hchild id hid) hnew hother (forked_fork []) (.of_eq rfl rfl)
  · have hset := hinv.updateCtrl (fun c => { c with
      heartbeat := time
      beatTracker := c.beatTracker.map fun e => (e.1, w.clock) }) rfl rfl
    have hc : Calm w (w.updateCtrl fun c => { c with
      heartbeat := time
      beatTracker := c.beatTracker.map fun e => (e.1, w.clock) }) := .of_eq rfl rfl
    exact h.calm (hc.trans (hset.calm_sendAll rfl))

/-- **Every step that repeats no id keeps the ids distinct.** -/
theorem next (h : Distinct w) (hinv : Inv w) {e : Event} (he : e.Enabled w)
    (hfresh : FreshCreate w e) : Distinct (w.next e) := by
  cases e with
  | tick now => exact h.calm (.of_eq rfl rfl)
  | command cmd o => exact h.command hinv cmd o hfresh
  | receiveUp p => exact h.calm (.of_onlyUp (receiveUp_onlyUp w p))
  | checkPending => exact h.calm (.of_eq rfl rfl)
  | checkBeats => exact h.calm (.of_eq rfl rfl)
  | receiveDown p o => exact h.receiveDown hinv he.1 he.2 o
  | relayUp p c => exact h.calm (.of_onlyUp (relayUp_onlyUp w p c))
  | sendBeat p => exact h.calm (.of_onlyUp (sendBeat_onlyUp w p))

end Distinct

/-- **The ids are distinct** in every run in which no accepted create repeats an id. -/
theorem fresh_creates_keep_ids_distinct {es : List Event} {w : World}
    (h : Run FreshStep initial es w) : w.ids.Nodup := by
  have hall := h.preserves (I := fun w => Inv w ∧ Distinct w) ?_ ⟨Inv.initial, ?_⟩
  · exact hall.2.nodup
  · rintro w e w' ⟨hinv, hd⟩ ⟨⟨he, rfl⟩, hfresh⟩
    exact ⟨hinv.next he, hd.next hinv he hfresh⟩
  · have hnone : ∀ r, ¬ Travelling initial r := fun r ht =>
      absurd (ht.issued Inv.initial) List.not_mem_nil
    exact ⟨List.nodup_nil, fun r hr => absurd hr (hnone r), fun r r' hr => absurd hr (hnone r)⟩

/-- A create of an id that no process has, before any request. -/
theorem freshCreate_of_issued_nil {w : World} (h : Inv w) (hnil : w.issued = []) {childId : ℤ}
    (hid : childId ∉ w.ids) (parentId : ℤ) (o : Outcome) :
    FreshCreate w (.command (.create childId parentId) o) := by
  refine fun _ _ _ => ⟨hid, fun r hr => ?_⟩
  have hissued := hr.issued h
  rw [hnil] at hissued
  exact absurd hissued List.not_mem_nil

/-- Node 1 is created, then node 2 below it, and the reply arrives. -/
def nodeBelowNode : List Event :=
  [.command (.create 1 (-1)) .created, .command (.create 2 1) .created, .receiveDown 0 .created,
    .receiveUp 0]

theorem fresh_creates_keep_ids_distinct_two_nodes :
    (nodeBelowNode.foldl World.next initial).ids.Nodup := by
  have hpossible : Possible (fun _ _ => True) initial nodeBelowNode := by decide
  have hrun : Run FreshStep initial nodeBelowNode (nodeBelowNode.foldl World.next initial) := by
    have hinv := Inv.initial.next hpossible.1.1
    refine .cons ⟨⟨hpossible.1.1, rfl⟩, freshCreate_of_issued_nil Inv.initial rfl ?_ _ _⟩ ?_
    · decide
    refine .cons ⟨⟨hpossible.2.1.1, rfl⟩, freshCreate_of_issued_nil hinv rfl ?_ _ _⟩ ?_
    · decide
    exact .cons ⟨⟨hpossible.2.2.1.1, rfl⟩, trivial⟩
      (.cons ⟨⟨hpossible.2.2.2.1.1, rfl⟩, trivial⟩ (.nil _))
  exact fresh_creates_keep_ids_distinct hrun

/-- Two creates of the same child below node 1, both before the first reply. -/
def childTwice : List Event :=
  [.command (.create 1 (-1)) .created, .command (.create 2 1) .created,
    .command (.create 2 1) .created, .receiveDown 0 .created, .receiveDown 0 .bindFailed]

/-- Two processes get the id 2. -/
theorem node_ids_repeat : ¬ ∀ es w, Run Step initial es w → w.ids.Nodup := by
  intro h
  have hrun : Possible (fun _ _ => True) initial childTwice := by decide
  exact absurd (h _ _ hrun.stepRun) (by decide)

end NodeTree
