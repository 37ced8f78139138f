/-
# How far a heartbeat setting reaches

A heartbeat command sends its setting down the tree once.  The setting overtakes no request,
so it reaches the nodes whose create request was broadcast before it, and no others: a node
that is started later keeps the zero of its constructor.
-/
import OSLabs.NodeTreeRegistry

namespace NodeTree

/-! ## Settings in a queue of messages -/

/-- The last heartbeat command of a run: its time, the requests broadcast before it, and the
children that the controller had. -/
structure Mark where
  time : ℤ := 0
  issued : List Request := []
  children : List ℕ := []

/-- A heartbeat command is the last one from now on. -/
def Mark.next (k : Mark) (w : World) : Event → Mark
  | .command (.heartbeat time) _ => ⟨time, w.issued, pids w.ctrl.children⟩
  | _ => k

/-- The last heartbeat command after the events. -/
def lastMark : Mark → World → List Event → Mark
  | k, _, [] => k
  | k, w, e :: es => lastMark (k.next w e) (w.next e) es

/-- The setting of a node, which is `x` now, when the messages have arrived. -/
def afterBeats (x : ℤ) (l : List Packet) : ℤ :=
  l.foldl (fun x pkt => if pkt.req = none then pkt.msg.addData else x) x

/-- Behind a copy of a request that is older than the mark stands the setting of the mark, and
behind the copies of the others stands no setting. -/
def Dated (k : Mark) : List Packet → Prop
  | [] => True
  | pkt :: l =>
    (∀ r, pkt.req = some r → (r ∈ k.issued → ∀ x, afterBeats x l = k.time) ∧
      (r ∉ k.issued → ∀ x, afterBeats x l = x)) ∧ Dated k l

/-- What a node with the setting `x` and the messages `l` on their way to it will end up with:
the setting of the mark if it is an early one, and zero if it is not. -/
structure Expects (k : Mark) (isEarly : Prop) (x : ℤ) (l : List Packet) : Prop where
  dated : Dated k l
  early : isEarly → afterBeats x l = k.time
  late : ¬ isEarly → afterBeats x l = 0

/-- What a step other than a heartbeat command does to the setting of a node and the messages
on their way to it. -/
inductive Flow (issued : List Request) (x : ℤ) (l : List Packet) : ℤ → List Packet → Prop
  | same : Flow issued x l x l
  | taken (pre post : List Packet) (pkt : Packet) (r : Request) (hreq : pkt.req = some r)
      (hl : l = pre ++ pkt :: post) : Flow issued x l x (pre ++ post)
  | noted (post : List Packet) (pkt : Packet) (hnone : pkt.req = none) (hl : l = pkt :: post) :
      Flow issued x l pkt.msg.addData post
  | joined (m : Message) (r : Request) (hr : r ∉ issued) : Flow issued x l x (l ++ [⟨m, some r⟩])

section Queues

variable {k : Mark} {isEarly : Prop} {x x' : ℤ} {l l' pre post : List Packet} {pkt : Packet}
  {r : Request} {m : Message} {issued : List Request}

theorem afterBeats_append (x : ℤ) (l l' : List Packet) :
    afterBeats x (l ++ l') = afterBeats (afterBeats x l) l' :=
  List.foldl_append

theorem afterBeats_request (hreq : pkt.req = some r) (x : ℤ) (l : List Packet) :
    afterBeats x (pkt :: l) = afterBeats x l := by
  show afterBeats (if pkt.req = none then pkt.msg.addData else x) l = _
  rw [hreq, if_neg (Option.some_ne_none r)]

theorem afterBeats_beat (hnone : pkt.req = none) (x : ℤ) (l : List Packet) :
    afterBeats x (pkt :: l) = afterBeats pkt.msg.addData l := by
  show afterBeats (if pkt.req = none then pkt.msg.addData else x) l = _
  rw [if_pos hnone]

/-- A request more or less does not change the setting. -/
theorem afterBeats_drop (hreq : pkt.req = some r) (x : ℤ) :
    afterBeats x (pre ++ post) = afterBeats x (pre ++ pkt :: post) := by
  rw [afterBeats_append, afterBeats_append, afterBeats_request hreq]

namespace Dated

theorem drop (hreq : pkt.req = some r) (h : Dated k (pre ++ pkt :: post)) :
    Dated k (pre ++ post) := by
  induction pre with
  | nil => exact h.2
  | cons first pre ih =>
      refine ⟨fun r' hr' => ?_, ih h.2⟩
      obtain ⟨hearly, hlate⟩ := h.1 r' hr'
      constructor
      · intro hmem x
        exact (afterBeats_drop hreq x).trans (hearly hmem x)
      · intro hmem x
        exact (afterBeats_drop hreq x).trans (hlate hmem x)

/-- A request that is younger than the mark joins the queue. -/
theorem join (hr : r ∉ k.issued) (h : Dated k l) : Dated k (l ++ [⟨m, some r⟩]) := by
  induction l with
  | nil =>
      refine ⟨fun r' hr' => ?_, trivial⟩
      obtain rfl := Option.some.inj hr'
      exact ⟨fun hmem => absurd hmem hr, fun _ x => rfl⟩
  | cons first l ih =>
      refine ⟨fun r' hr' => ?_, ih h.2⟩
      have hjoin : ∀ x, afterBeats x (l ++ [⟨m, some r⟩]) = afterBeats x l := by
        intro x
        rw [afterBeats_append]
        rfl
      obtain ⟨hearly, hlate⟩ := h.1 r' hr'
      constructor
      · intro hmem x
        exact (hjoin x).trans (hearly hmem x)
      · intro hmem x
        exact (hjoin x).trans (hlate hmem x)

/-- A setting joins the queue and is the mark from now on. -/
theorem mark (hold : ∀ pkt ∈ l, ∀ r, pkt.req = some r → r ∈ k.issued) (htime : m.addData = k.time) :
    Dated k (l ++ [⟨m, none⟩]) := by
  induction l with
  | nil => exact ⟨fun r hr => absurd hr.symm (Option.some_ne_none r), trivial⟩
  | cons first l ih =>
      refine ⟨fun r hr => ⟨fun _ x => ?_, fun hmem => ?_⟩,
        ih fun pkt hpkt => hold pkt (List.mem_cons_of_mem _ hpkt)⟩
      · show afterBeats x (l ++ [⟨m, none⟩]) = _
        rw [afterBeats_append]
        exact htime
      · exact absurd (hold first List.mem_cons_self r hr) hmem

end Dated

/-- **What a node will end up with does not change** in a step other than a heartbeat command. -/
theorem Expects.flow (h : Expects k isEarly x l) (hissued : k.issued ⊆ issued)
    (hf : Flow issued x l x' l') : Expects k isEarly x' l' := by
  cases hf with
  | same => exact h
  | taken pre post pkt r hreq hl =>
    subst hl
    have heq : afterBeats x (pre ++ post) = _ := afterBeats_drop hreq x
    exact ⟨h.dated.drop hreq, fun he => heq.trans (h.early he), fun he => heq.trans (h.late he)⟩
  | noted post pkt hnone hl =>
    subst hl
    have heq := afterBeats_beat hnone x l'
    exact ⟨h.dated.2, fun he => heq.symm.trans (h.early he), fun he => heq.symm.trans (h.late he)⟩
  | joined m r hr =>
    have heq : afterBeats x (l ++ [⟨m, some r⟩]) = afterBeats x l := by
      rw [afterBeats_append]
      rfl
    exact ⟨h.dated.join fun hmem => hr (hissued hmem), fun he => heq.trans (h.early he),
      fun he => heq.trans (h.late he)⟩

/-- A new node ends up with what the mark says about the request that it was started for. -/
theorem Expects.newborn (h : Dated k (pkt :: l)) (hreq : pkt.req = some r) :
    Expects k (r ∈ k.issued) 0 l := by
  obtain ⟨hearly, hlate⟩ := h.1 r hreq
  exact ⟨h.2, fun hmem => hearly hmem 0, fun hmem => hlate hmem 0⟩

end Queues

/-! ## The messages on their way to a node -/

section Streams

variable {w w' : World} {p v : ℕ} {pkt : Packet} {rest : List Packet} {r : Request} {m : Message}

/-- The messages on the way to a node are those in the links of its path. -/
theorem stream_congr (hpath : (w'.proc v).path = (w.proc v).path)
    (hdown : ∀ q ∈ (w.proc v).path, (w'.proc q).down = (w.proc q).down) :
    w'.stream v = w.stream v := by
  unfold World.stream
  rw [hpath]
  exact inFlight.congr fun q hq => hdown q (List.mem_reverse.mp hq)

/-- A child of a process waits for its own messages and those on their way to its parent. -/
theorem stream_child (hpath : (w.proc v).path = (w.proc p).path ++ [v]) :
    w.stream v = (w.proc v).down ++ w.stream p := by
  unfold World.stream
  rw [hpath, List.reverse_append, List.reverse_singleton, List.singleton_append, inFlight.cons]

/-- What a step other than a heartbeat command does to the node at `v`. -/
def FlowAt (w w' : World) (v : ℕ) : Prop :=
  Flow w.issued (w.proc v).node.heartbeat (w.stream v) (w'.proc v).node.heartbeat (w'.stream v)

/-- Nothing changes for a node if its setting and the links of its path do not change. -/
theorem FlowAt.of_eq (hbeat : (w'.proc v).node.heartbeat = (w.proc v).node.heartbeat)
    (hpath : (w'.proc v).path = (w.proc v).path)
    (hdown : ∀ q ∈ (w.proc v).path, (w'.proc q).down = (w.proc q).down) : FlowAt w w' v := by
  unfold FlowAt
  rw [hbeat, stream_congr hpath hdown]
  exact .same

theorem FlowAt.of_onlyUp (h : OnlyUp w w') : FlowAt w w' v :=
  .of_eq (h.heartbeat v) (h.path v) fun q _ => h.down q

/-- The process `p` has taken a request from its link, and no other link has changed. -/
structure Taken (w w' : World) (p : ℕ) (rest : List Packet) : Prop where
  down : ∀ q < w.count, (w'.proc q).down = if q = p then rest else (w.proc q).down
  path : ∀ q < w.count, (w'.proc q).path = (w.proc q).path
  heartbeat : ∀ q < w.count, (w'.proc q).node.heartbeat = (w.proc q).node.heartbeat

/-- What a process takes is missing for the nodes below it. -/
theorem Taken.flow (ht : Taken w w' p rest) (h : Inv w)
    (hdown : (w.proc p).down = ⟨m, some r⟩ :: rest) (hv : (w.proc v).path ≠ []) :
    FlowAt w w' v := by
  have hp := h.path_lt (h.path_ne_nil hdown)
  have hlt := h.path_lt hv
  have hself : (w'.proc p).down = rest := by rw [ht.down p hp, if_pos rfl]
  have hother : ∀ q ∈ (w.proc v).path, q ≠ p → (w'.proc q).down = (w.proc q).down := by
    intro q hq hqp
    rw [ht.down q (h.path_lt (h.tree.path_prefix_path hv hq).1), if_neg hqp]
  unfold FlowAt
  rw [ht.heartbeat v hlt]
  rcases Inv.stream_below hdown hself (ht.path v hlt) (h.tree.path_nodup v) hother with
    heq | ⟨pre, post, hl, hl'⟩
  · rw [heq]
    exact .same
  · rw [hl']
    exact .taken pre post _ r rfl hl

/-- Whatever else the process notes, and whoever joins the tree, a request has been taken. -/
theorem taken_update {f : Process → Process} (hrest : ∀ q, (f q).down = rest)
    (hf : ∀ q, (f q).path = q.path ∧ (f q).node = q.node)
    (hdown : ∀ q < w.count, q ≠ p → (w'.proc q).down = (w.proc q).down)
    (hpath : ∀ q < w.count, (w'.proc q).path = (w.proc q).path)
    (hbeat : ∀ q < w.count, (w'.proc q).node.heartbeat = (w.proc q).node.heartbeat) :
    Taken w (w'.update p f) p rest := by
  refine ⟨fun q hq => ?_, fun q hq => ?_, fun q hq => ?_⟩
  · rw [update_proc]
    by_cases hqp : q = p
    · rw [if_pos hqp, if_pos hqp, hrest]
    · rw [if_neg hqp, if_neg hqp, hdown q hq hqp]
  · rw [update_keeps _ _ _ _ Process.path (hf _).1, hpath q hq]
  · rw [update_keeps _ _ _ _ (fun x => x.node.heartbeat) (by rw [(hf _).2]), hbeat q hq]

theorem taken_serve (hdown : ∀ q < w.count, q ≠ p → (w'.proc q).down = (w.proc q).down)
    (hpath : ∀ q < w.count, (w'.proc q).path = (w.proc q).path)
    (hbeat : ∀ q < w.count, (w'.proc q).node.heartbeat = (w.proc q).node.heartbeat) :
    Taken w (w'.serve p rest r m) p rest :=
  taken_update (fun _ => rfl) (fun _ => ⟨rfl, rfl⟩) hdown hpath hbeat

theorem taken_crash (hdown : ∀ q < w.count, q ≠ p → (w'.proc q).down = (w.proc q).down)
    (hpath : ∀ q < w.count, (w'.proc q).path = (w.proc q).path)
    (hbeat : ∀ q < w.count, (w'.proc q).node.heartbeat = (w.proc q).node.heartbeat) :
    Taken w (w'.crash p rest r) p rest :=
  taken_update (fun _ => rfl) (fun _ => ⟨rfl, rfl⟩) hdown hpath hbeat

/-! ### Steps -/

theorem act_heartbeat (n : ComputingNode) (m : Message) : (n.act m).heartbeat = n.heartbeat := by
  unfold ComputingNode.act
  split <;> rfl

theorem Inv.flow_receiveDown (h : Inv w) (hp : p < w.count) (o : Outcome)
    (hv : (w.proc v).path ≠ []) : FlowAt w (NodeTree.receiveDown w p o) v := by
  have hreceived := h.received hp o
  generalize NodeTree.receiveDown w p o = w' at hreceived ⊢
  cases hreceived with
  | nothing => exact .same
  | beat pkt rest hdown hnone =>
    have hset := setNode_proc w p fun n => { n with heartbeat := pkt.msg.addData }
    have hinv := h.setHeartbeat p pkt.msg.addData
    have hpath := setNode_path w p fun n => { n with heartbeat := pkt.msg.addData }
    have hdown' := setNode_down w p fun n => { n with heartbeat := pkt.msg.addData }
    -- First the setting is noted, then the message goes on to the children.
    generalize w.setNode p (fun n => { n with heartbeat := pkt.msg.addData }) = w₁
      at hset hinv hpath hdown'
    have hold : w₁.stream v = w.stream v := stream_congr (hpath v) fun q _ => hdown' q
    have hdown₁ : (w₁.proc p).down = pkt :: rest := (hdown' p).trans hdown
    have hv₁ : (w₁.proc v).path ≠ [] := by rwa [hpath]
    obtain ⟨d, hd⟩ := hinv.forward_frame p rest pkt v
    have hstream := hinv.forward_stream hdown₁ hv₁
    unfold FlowAt
    rw [hd, ← hold, hset]
    by_cases hvp : v = p
    · subst hvp
      rw [if_pos rfl] at hstream ⊢
      exact .noted _ pkt hnone hstream
    · rw [if_neg hvp] at hstream ⊢
      rw [hstream]
      exact .same
  | other r rest hfirst hid =>
    obtain ⟨d, hd⟩ := h.forward_frame p rest ⟨r.msg, some r⟩ v
    have hstream := h.forward_stream hfirst.down hv
    unfold FlowAt
    rw [hd]
    by_cases hvp : v = p
    · rw [if_pos hvp] at hstream
      exact .taken [] _ _ r rfl hstream
    · rw [if_neg hvp] at hstream
      rw [hstream]
      exact .same
  | answered r rest hfirst hid hcmd =>
    refine (taken_serve (fun q _ _ => setNode_down _ _ _ q) (fun q _ => setNode_path _ _ _ q)
      fun q _ => ?_).flow h hfirst.down hv
    exact update_keeps _ _ _ _ (fun x => x.node.heartbeat) (act_heartbeat _ _)
  | created r rest hfirst hid hcmd ho =>
    refine (taken_serve (fun q hq _ => ?_) (fun q hq => ?_) fun q hq => ?_).flow h hfirst.down hv
    · exact attach_keeps w p q _ Process.down (fun _ _ => rfl) hq
    · exact attach_keeps w p q _ Process.path (fun _ _ => rfl) hq
    · exact attach_keeps w p q _ (fun x => x.node.heartbeat) (fun _ _ => rfl) hq
  | notForked r rest hfirst hid hcmd ho =>
    exact (taken_crash (fun q _ _ => rfl) (fun q _ => rfl) fun q _ => rfl).flow h hfirst.down hv
  | notBound r rest hfirst hid hcmd ho =>
    refine (taken_crash (fun q hq _ => ?_) (fun q hq => ?_) fun q hq => ?_).flow h hfirst.down hv
    all_goals rw [fork_proc_of_lt w _ _ hq]

/-- A command other than a heartbeat command puts at most one new request into the queue. -/
theorem Inv.flow_command (h : Inv w) (cmd : Command) (o : Outcome)
    (hbeat : ∀ time, cmd ≠ .heartbeat time) (hv : (w.proc v).path ≠ []) :
    FlowAt w (NodeTree.handleCommand w o cmd) v := by
  have hold : ∀ q ∈ (w.proc v).path, q < w.count :=
    fun q hq => h.path_lt (h.tree.path_prefix_path hv hq).1
  have hfork : ∀ (w' : World) (id : ℤ) (path : List ℕ), w'.proc = (w.fork id path).proc →
      FlowAt w w' v := by
    intro w' id path hproc
    refine .of_eq ?_ ?_ fun q hq => ?_
    · rw [hproc, fork_proc_of_lt w id path (h.path_lt hv)]
    · rw [hproc, fork_proc_of_lt w id path (h.path_lt hv)]
    · rw [hproc, fork_proc_of_lt w id path (hold q hq)]
  have hcmd := h.commanded o cmd
  generalize NodeTree.handleCommand w o cmd = w' at hcmd ⊢
  rcases hcmd with line | ⟨m, -, -⟩ | ⟨id, -, -, -⟩ | ⟨id, -, -, -⟩ | ⟨id, -, -, -⟩ |
    ⟨time, htime⟩
  · exact .same
  · obtain ⟨d, hd, -⟩ := h.broadcastMessage_frame m v
    have hstream : (broadcastMessage w m).stream v =
        w.stream v ++ [⟨m, some ⟨w.issued.length, m⟩⟩] := by
      rw [← h.sendAll_stream _ hv]
      unfold World.stream
      rw [h.broadcastMessage_proc]
    unfold FlowAt
    rw [hstream, hd]
    refine .joined m _ fun hmem => ?_
    exact absurd (h.tag_lt hmem) (lt_irrefl _)
  · exact hfork _ id [w.count] rfl
  · exact .same
  · exact hfork _ id [] rfl
  · exact absurd htime (hbeat time)

/-- **What a step other than a heartbeat command does** to a node of the tree. -/
theorem Inv.flow_next (h : Inv w) {e : Event} (he : e.Enabled w)
    (hbeat : ∀ time o, e ≠ .command (.heartbeat time) o) (hv : (w.proc v).path ≠ []) :
    FlowAt w (w.next e) v := by
  cases e with
  | command cmd o => exact h.flow_command cmd o (fun time heq => hbeat time o (heq ▸ rfl)) hv
  | receiveUp p => exact .of_onlyUp (receiveUp_onlyUp w p)
  | receiveDown p o => exact h.flow_receiveDown he.1 o hv
  | relayUp p c => exact .of_onlyUp (relayUp_onlyUp w p c)
  | sendBeat p => exact .of_onlyUp (sendBeat_onlyUp w p)
  | _ => exact .same

end Streams

/-! ## What a node stems from -/

/-- The process `v` was started for the request `r`. -/
def StemsFrom (w : World) (v : ℕ) (r : Request) : Prop :=
  ∃ u m, (r, m) ∈ (w.proc u).served ∧ r.msg.command = .create ∧ m.addData = v

/-- The create command that the process `v` stems from was accepted before the heartbeat
command. -/
def OrderedBefore (k : Mark) (w : World) (v : ℕ) : Prop :=
  v ∈ k.children ∨ ∃ r ∈ k.issued, StemsFrom w v r

/-- **How a process comes into the tree** in a step. -/
inductive Newborn (w : World) (e : Event) (w' : World) (v : ℕ) : Prop
  | old (hv : (w.proc v).path ≠ [])
  | direct (he : ∀ p o, e ≠ .receiveDown p o) (hv : v = w.count)
      (hchild : v ∈ pids w'.ctrl.children) (hbeat : (w'.proc v).node.heartbeat = 0)
      (hstream : w'.stream v = [])
  | below (p : ℕ) (o : Outcome) (r : Request) (rest : List Packet) (he : e = .receiveDown p o)
      (hv : v = w.count) (hdown : (w.proc p).down = ⟨r.msg, some r⟩ :: rest)
      (hstems : StemsFrom w' v r) (hbeat : (w'.proc v).node.heartbeat = 0)
      (hstream : w.stream p = ⟨r.msg, some r⟩ :: w'.stream v)

section Stems

variable {w : World} {e : Event} {p v : ℕ} {r : Request}

/-- What a process stems from does not change. -/
theorem StemsFrom.next (hs : StemsFrom w v r) (h : Inv w) (he : e.Enabled w) :
    StemsFrom (w.next e) v r := by
  obtain ⟨u, m, hmem, hcmd, hm⟩ := hs
  refine ⟨u, m, ?_, hcmd, hm⟩
  cases h.change_next he u with
  | same hsame => rwa [hsame.served]
  | fresh hu =>
    rw [hu, (h.packets.idle _ h.path_count).2.1] at hmem
    exact absurd hmem List.not_mem_nil
  | acted r' m' ha =>
    rw [ha.served]
    exact List.mem_append_left _ hmem
  | threw o _ _ _ _ _ hserved => rwa [hserved]

/-- A step starts at most the next process, for the request that the step takes. -/
theorem StemsFrom.of_next (h : Inv w) (he : e.Enabled w) (hs : StemsFrom (w.next e) v r) :
    StemsFrom w v r ∨ (v = w.count ∧ w.count < (w.next e).count ∧
      ∃ p o rest, e = .receiveDown p o ∧ (w.proc p).down = ⟨r.msg, some r⟩ :: rest) := by
  obtain ⟨u, m, hmem, hcmd, hm⟩ := hs
  cases h.change_next he u with
  | same hsame =>
    rw [hsame.served] at hmem
    exact Or.inl ⟨u, m, hmem, hcmd, hm⟩
  | fresh _ _ _ hserved =>
    rw [hserved] at hmem
    exact absurd hmem List.not_mem_nil
  | acted r' m' ha =>
    rw [ha.served] at hmem
    rcases List.mem_append.mp hmem with hold | hnew
    · exact Or.inl ⟨u, m, hold, hcmd, hm⟩
    · obtain ⟨rfl, rfl⟩ := Prod.mk.inj (List.mem_singleton.mp hnew)
      obtain ⟨o, ho⟩ := ha.event
      obtain ⟨rest, hdown⟩ := ha.first
      -- Only a create reply carries the number of a process, and it is the next one.
      rcases ha.node with ⟨hne, -⟩ | ⟨-, rfl, hnode⟩
      · exact absurd hcmd hne
      · have hv : (w.count : ℤ) = v := hm
        have hchild : w.count ∈ pids ((w.next e).proc u).node.children := by
          rw [hnode]
          simp [pids]
        exact Or.inr ⟨by omega, ((h.next he).tree.child u _ hchild).1, u, o, rest, ho, hdown⟩
  | threw o _ _ _ _ _ hserved =>
    rw [hserved] at hmem
    exact Or.inl ⟨u, m, hmem, hcmd, hm⟩

theorem Inv.newborn_command (h : Inv w) (cmd : Command) (o : Outcome)
    (hv : ((NodeTree.handleCommand w o cmd).proc v).path ≠ []) :
    Newborn w (.command cmd o) (NodeTree.handleCommand w o cmd) v := by
  have hcmd := h.commanded o cmd
  generalize NodeTree.handleCommand w o cmd = w' at hcmd hv ⊢
  rcases hcmd with line | ⟨m, -, -⟩ | ⟨id, -, -, -⟩ | ⟨id, -, -, -⟩ | ⟨id, -, -, -⟩ |
    ⟨time, -⟩
  · exact .old hv
  · obtain ⟨d, hd, -⟩ := h.broadcastMessage_frame m v
    rw [hd] at hv
    exact .old hv
  · have hproc : ∀ q, (w.attachCtrl id).proc q = _ := fork_proc w id [w.count]
    -- the only process that can be new is the one just attached
    by_cases hvc : v = w.count
    · subst hvc
      have hself := hproc w.count
      rw [if_pos rfl] at hself
      refine .direct (fun p o heq => by cases heq) rfl ?_ ?_ ?_
      · show w.count ∈ pids (w.ctrl.children ++ [⟨id, w.count⟩])
        simp [pids]
      · show ((w.attachCtrl id).proc w.count).node.heartbeat = 0
        rw [hself]
      · show (w.attachCtrl id).stream w.count = []
        unfold World.stream
        rw [hself, List.reverse_singleton, inFlight.cons, inFlight.nil, hself]
        rfl
    · change ((w.attachCtrl id).proc v).path ≠ [] at hv
      rw [hproc, if_neg hvc] at hv
      exact .old hv
  · exact .old hv
  · -- a child that could not bind has no place in the tree
    change ((w.fork id []).proc v).path ≠ [] at hv
    rw [fork_proc] at hv
    split_ifs at hv with hvc
    · exact absurd rfl hv
    · exact .old hv
  · obtain ⟨d, hd⟩ := h.handleHeartbeatCommand_frame time v
    rw [hd] at hv
    exact .old hv

theorem Inv.newborn_receiveDown (h : Inv w) (hp : p < w.count) (o : Outcome)
    (hv : ((NodeTree.receiveDown w p o).proc v).path ≠ []) :
    Newborn w (.receiveDown p o) (NodeTree.receiveDown w p o) v := by
  have hreceived := h.received hp o
  generalize NodeTree.receiveDown w p o = w' at hreceived hv ⊢
  cases hreceived with
  | nothing => exact .old hv
  | beat pkt rest =>
    obtain ⟨d, hd⟩ := (h.setHeartbeat p pkt.msg.addData).forward_frame p rest pkt v
    rw [hd] at hv
    change ((w.setNode p _).proc v).path ≠ [] at hv
    rw [setNode_path] at hv
    exact .old hv
  | other r rest =>
    obtain ⟨d, hd⟩ := h.forward_frame p rest ⟨r.msg, some r⟩ v
    rw [hd] at hv
    exact .old hv
  | answered r rest =>
    rw [serve_path, setNode_path] at hv
    exact .old hv
  | created r rest hfirst hid hcmd ho =>
    have hattach := attach_proc w p r.msg.addData hp
    have hne : w.count ≠ p := Nat.ne_of_gt hp
    have hself := hattach p
    rw [if_pos rfl] at hself
    have hproc : ∀ q, q ≠ p → ((w.attach p r.msg.addData).serve p rest r
        (.of w.clock .create r.msg.addData w.count)).proc q =
          (w.attach p r.msg.addData).proc q :=
      fun q hq => update_proc_of_ne _ _ _ _ hq
    have hprocSelf : ((w.attach p r.msg.addData).serve p rest r
        (.of w.clock .create r.msg.addData w.count)).proc p = _ := update_proc_self _ _ _
    rw [hself] at hprocSelf
    by_cases hvc : v = w.count
    · subst hvc
      have hnew := hproc w.count hne
      rw [hattach, if_neg hne, if_pos rfl] at hnew
      generalize (w.attach p r.msg.addData).serve p rest r
        (.of w.clock .create r.msg.addData w.count) = w' at hproc hprocSelf hnew hv ⊢
      refine .below p o r rest rfl rfl hfirst.down ?_ ?_ ?_
      · refine ⟨p, .of w.clock .create r.msg.addData w.count, ?_, hcmd, rfl⟩
        rw [hprocSelf]
        exact List.mem_append_right _ (List.mem_singleton.mpr rfl)
      · rw [hnew]
      · -- the reply to the create is all there is between the new process and the controller
        have hpath : (w'.proc w.count).path = (w'.proc p).path ++ [w.count] := by
          rw [hnew, hprocSelf]
        rw [stream_child hpath, hnew, List.nil_append]
        refine h.stream_head hfirst.down ?_ ?_ fun q hq hqp => ?_
        · rw [hprocSelf]
        · rw [hprocSelf]
        · have hlt := h.path_lt (h.tree.path_prefix_path (h.path_ne_nil hfirst.down) hq).1
          rw [hproc q hqp, hattach, if_neg hqp, if_neg (Nat.ne_of_lt hlt)]
    · by_cases hvp : v = p
      · subst hvp
        rw [hprocSelf] at hv
        exact .old hv
      · rw [hproc v hvp, hattach, if_neg hvp, if_neg hvc] at hv
        exact .old hv
  | notForked r rest =>
    rw [crash_path] at hv
    exact .old hv
  | notBound r rest =>
    -- as with the controller, the process that could not bind is outside of the tree
    rw [crash_path, fork_proc] at hv
    split_ifs at hv with hvc
    · exact absurd rfl hv
    · exact .old hv

theorem Inv.newborn_next (h : Inv w) (he : e.Enabled w) (hv : ((w.next e).proc v).path ≠ []) :
    Newborn w e (w.next e) v := by
  cases e with
  | command cmd o => exact h.newborn_command cmd o hv
  | receiveDown p o => exact h.newborn_receiveDown he.1 o hv
  | receiveUp p => exact .old ((receiveUp_onlyUp w p).path v ▸ hv)
  | relayUp p c => exact .old ((relayUp_onlyUp w p c).path v ▸ hv)
  | sendBeat p => exact .old ((sendBeat_onlyUp w p).path v ▸ hv)
  | _ => exact .old hv

end Stems

/-! ## The settings of a run -/

/-- **What every node will end up with** after the last heartbeat command `k`. -/
structure Beats (k : Mark) (w : World) : Prop where
  time : w.ctrl.heartbeat = k.time
  issued : k.issued ⊆ w.issued
  children : ∀ c ∈ k.children, c < w.count
  started : ∀ v r, StemsFrom w v r → v < w.count
  origin : ∀ v, (w.proc v).path ≠ [] → v ∈ pids w.ctrl.children ∨ ∃ r, StemsFrom w v r
  expects : ∀ v, (w.proc v).path ≠ [] →
    Expects k (OrderedBefore k w v) (w.proc v).node.heartbeat (w.stream v)

section Beats

variable {w w' : World} {e : Event} {k : Mark} {v : ℕ} {r : Request} {es : List Event}

theorem Mark.next_of_ne (hbeat : ∀ time o, e ≠ .command (.heartbeat time) o) : k.next w e = k := by
  unfold Mark.next
  split
  · exact absurd rfl (hbeat _ _)
  · rfl

/-- Only a heartbeat command changes the setting of the controller. -/
theorem Inv.heartbeat_next (h : Inv w) (he : e.Enabled w)
    (hbeat : ∀ time o, e ≠ .command (.heartbeat time) o) :
    (w.next e).ctrl.heartbeat = w.ctrl.heartbeat := by
  cases e with
  | command cmd o =>
    show (NodeTree.handleCommand w o cmd).ctrl.heartbeat = _
    have hcmd := h.commanded o cmd
    generalize NodeTree.handleCommand w o cmd = w' at hcmd ⊢
    rcases hcmd with line | ⟨m, -, -⟩ | ⟨id, -, -, -⟩ | ⟨id, -, -, -⟩ | ⟨id, -, -, -⟩ |
      ⟨time, htime⟩
    · rfl
    · rw [h.broadcastMessage_eq]
    · rfl
    · rfl
    · rfl
    · exact absurd (htime ▸ rfl) (hbeat time o)
  | receiveUp p =>
    show (NodeTree.receiveUp w p).ctrl.heartbeat = _
    rcases receiveUp_ctrl w p with hctrl | ⟨pkt, -, hctrl⟩
    · rw [hctrl]
    · rw [hctrl]
      unfold Controller.handleChildMessage
      split <;> rfl
  | checkPending =>
    obtain ⟨output, pending, heq⟩ := Inv.checkPendingMessages_frame w.ctrl w.clock
    show (w.ctrl.checkPendingMessages w.clock).heartbeat = _
    rw [heq]
  | receiveDown p o =>
    show (NodeTree.receiveDown w p o).ctrl.heartbeat = _
    rw [(h.receiveDown_ctrl he.1 o).1]
  | relayUp p c =>
    show (NodeTree.relayUp w p c).ctrl.heartbeat = _
    rw [(Inv.relayUp_relinked w p c).ctrl]
  | sendBeat p =>
    show (NodeTree.sendBeat w p).ctrl.heartbeat = _
    rw [(sendBeat_ctrl w p).1]
  | _ => rfl

/-- The record of the broadcasts and the children of the controller only grow. -/
theorem Inv.issued_subset_next (h : Inv w) (he : e.Enabled w) : w.issued ⊆ (w.next e).issued := by
  rcases h.pendingChange he with ⟨-, hissued, -⟩ | ⟨r, -, -, hissued, -⟩ |
    ⟨p, pkt, rest, -, -, -, hissued, -⟩ | ⟨-, -, hissued, -⟩
  · rw [hissued]
    exact List.Subset.refl _
  · rw [hissued]
    exact List.subset_append_left _ _
  · rw [hissued]
    exact List.Subset.refl _
  · rw [hissued]
    exact List.Subset.refl _

/-- A request that a process stems from was broadcast. -/
theorem StemsFrom.issued (h : Inv w) (hs : StemsFrom w v r) : r ∈ w.issued := by
  obtain ⟨u, m, hmem, -, -⟩ := hs
  exact (h.packets.served u _ hmem).issued

namespace Beats

theorem initial : Beats {} initial := by
  refine ⟨rfl, List.nil_subset _, fun c hc => absurd hc List.not_mem_nil, ?_, ?_, ?_⟩
  · rintro v r ⟨u, m, hmem, -⟩
    exact absurd hmem List.not_mem_nil
  · exact fun v hv => absurd rfl hv
  · exact fun v hv => absurd rfl hv

/-- The processes that something stems from were started. -/
theorem started_next (h : Beats k w) (hinv : Inv w) (he : e.Enabled w) (v : ℕ) (r : Request)
    (hs : StemsFrom (w.next e) v r) : v < (w.next e).count := by
  rcases hs.of_next hinv he with hold | ⟨rfl, hlt, -⟩
  · exact Nat.lt_of_lt_of_le (h.started v r hold) (hinv.count_le_next he)
  · exact hlt

/-- Every process of the tree is a child of the controller or stems from a request. -/
theorem origin_next (h : Beats k w) (hinv : Inv w) (he : e.Enabled w) (v : ℕ)
    (hv : ((w.next e).proc v).path ≠ []) :
    v ∈ pids (w.next e).ctrl.children ∨ ∃ r, StemsFrom (w.next e) v r := by
  cases hinv.newborn_next he hv with
  | old hold =>
    rcases h.origin v hold with hchild | ⟨r, hs⟩
    · exact Or.inl (hinv.ctrlChildren_next he hchild)
    · exact Or.inr ⟨r, hs.next hinv he⟩
  | direct _ _ hchild => exact Or.inl hchild
  | below p o r rest _ _ _ hstems => exact Or.inr ⟨r, hstems⟩

/-- What the mark says about an old process does not change. -/
theorem orderedBefore_next (hinv : Inv w) (he : e.Enabled w) (hv : v < w.count) :
    OrderedBefore k (w.next e) v ↔ OrderedBefore k w v := by
  refine or_congr_right (exists_congr fun r => and_congr_right fun _ => ?_)
  constructor
  · intro hs
    rcases hs.of_next hinv he with hold | ⟨rfl, -⟩
    · exact hold
    · exact absurd hv (lt_irrefl _)
  · exact fun hs => hs.next hinv he

/-- What the nodes expect after a step other than a heartbeat command. -/
theorem expects_next (h : Beats k w) (hinv : Inv w) (he : e.Enabled w)
    (hbeat : ∀ time o, e ≠ .command (.heartbeat time) o) (v : ℕ)
    (hv : ((w.next e).proc v).path ≠ []) :
    Expects k (OrderedBefore k (w.next e) v) ((w.next e).proc v).node.heartbeat
      ((w.next e).stream v) := by
  cases hinv.newborn_next he hv with
  | old hold =>
    rw [orderedBefore_next hinv he (hinv.path_lt hold)]
    exact (h.expects v hold).flow h.issued (hinv.flow_next he hbeat hold)
  | direct hother hcount _ hzero hstream =>
    -- No mark is older than a process that starts now.
    subst hcount
    have hlate : ¬ OrderedBefore k (w.next e) w.count := by
      rintro (hchild | ⟨r, -, hs⟩)
      · exact absurd (h.children _ hchild) (lt_irrefl _)
      · rcases hs.of_next hinv he with hold | ⟨-, -, p, o, rest, heq, -⟩
        · exact absurd (h.started _ r hold) (lt_irrefl _)
        · exact hother p o heq
    rw [hzero, hstream]
    exact ⟨trivial, fun hearly => absurd hearly hlate, fun _ => rfl⟩
  | below p o r rest he' hcount hdown hstems hzero hstream =>
    -- The new node is going to get what is behind its own create request, and nothing before.
    subst hcount
    have hiff : OrderedBefore k (w.next e) w.count ↔ r ∈ k.issued := by
      constructor
      · rintro (hchild | ⟨r', hr', hs⟩)
        · exact absurd (h.children _ hchild) (lt_irrefl _)
        · rcases hs.of_next hinv he with hold | ⟨-, -, p', o', rest', heq, hdown'⟩
          · exact absurd (h.started _ r' hold) (lt_irrefl _)
          · rw [he'] at heq
            obtain ⟨rfl, -⟩ := Event.receiveDown.inj heq
            rw [hdown] at hdown'
            obtain ⟨-, hreq⟩ := Packet.mk.inj (List.cons.inj hdown').1
            exact (Option.some.inj hreq) ▸ hr'
      · exact fun hr => Or.inr ⟨r, hr, hstems⟩
    have hparent := h.expects p (hinv.path_ne_nil hdown)
    rw [hzero, hiff]
    exact .newborn (hstream ▸ hparent.dated) rfl

/-- After a heartbeat command its setting is the last message for every node. -/
theorem expects_heartbeat (h : Beats k w) (hinv : Inv w) (time : ℤ) (o : Outcome) (v : ℕ)
    (hv : ((handleHeartbeatCommand w time).proc v).path ≠ []) :
    Expects (k.next w (.command (.heartbeat time) o))
      (OrderedBefore (k.next w (.command (.heartbeat time) o)) (handleHeartbeatCommand w time) v)
      ((handleHeartbeatCommand w time).proc v).node.heartbeat
      ((handleHeartbeatCommand w time).stream v) := by
  obtain ⟨d, hd⟩ := hinv.handleHeartbeatCommand_frame time v
  rw [hd] at hv
  have hstream : (handleHeartbeatCommand w time).stream v =
      w.stream v ++ [⟨.of w.clock .heartBeat (-1) time, none⟩] := by
    rw [← hinv.sendAll_stream _ hv, hinv.handleHeartbeatCommand_eq]
    unfold World.stream
    rw [sendAll_eq w _ hinv.tree.nodupCtrl]
  have hlast : ∀ x, afterBeats x ((handleHeartbeatCommand w time).stream v) = time := by
    intro x
    rw [hstream, afterBeats_append]
    rfl
  -- The message is behind everything else, so no node is late for it.
  refine ⟨?_, fun _ => hlast _, fun hlate => absurd ?_ hlate⟩
  · rw [hstream]
    refine Dated.mark (fun pkt hpkt r hr => ?_) rfl
    obtain ⟨q, -, hmem⟩ := inFlight.mem_iff.mp hpkt
    obtain ⟨m, req⟩ := pkt
    subst hr
    exact (hinv.mem_issued hmem).1
  · rcases h.origin v hv with hchild | ⟨r, hs⟩
    · exact Or.inl hchild
    · refine Or.inr ⟨r, hs.issued hinv, ?_⟩
      obtain ⟨u, m, hmem, hcmd, hm⟩ := hs
      refine ⟨u, m, ?_, hcmd, hm⟩
      obtain ⟨d', hd'⟩ := hinv.handleHeartbeatCommand_frame time u
      rwa [hd']

/-- **Every step keeps what the nodes will end up with**, up to the mark. -/
theorem next (h : Beats k w) (hinv : Inv w) (he : e.Enabled w) :
    Beats (k.next w e) (w.next e) := by
  by_cases hbeat : ∃ time o, e = .command (.heartbeat time) o
  · obtain ⟨time, o, rfl⟩ := hbeat
    have heq : w.next (.command (.heartbeat time) o) = _ := hinv.handleHeartbeatCommand_eq time
    refine ⟨?_, ?_, ?_, h.started_next hinv he, h.origin_next hinv he,
      h.expects_heartbeat hinv time o⟩
    · rw [heq]
      rfl
    · rw [heq]
      exact List.Subset.refl _
    · intro c hc
      rw [heq]
      exact (hinv.tree.ctrlChild c hc).1
  · have hbeat' : ∀ time o, e ≠ .command (.heartbeat time) o :=
      fun time o heq => hbeat ⟨time, o, heq⟩
    rw [Mark.next_of_ne hbeat']
    refine ⟨(hinv.heartbeat_next he hbeat').trans h.time, ?_, fun c hc => ?_,
      h.started_next hinv he, h.origin_next hinv he, h.expects_next hinv he hbeat'⟩
    · exact List.Subset.trans h.issued (hinv.issued_subset_next he)
    · exact Nat.lt_of_lt_of_le (h.children c hc) (hinv.count_le_next he)

theorem of_run (h : Run Step w es w') (hinv : Inv w) (hk : Beats k w) :
    Beats (lastMark k w es) w' := by
  induction h generalizing k with
  | nil w => exact hk
  | @cons w w₁ w' e es hstep _ ih =>
    obtain ⟨he, rfl⟩ := hstep
    exact ih (hinv.next he) (hk.next hinv he)

end Beats

end Beats

/-- **A heartbeat setting reaches the nodes that were ordered before it**, and only those: when
no message is in flight, all nodes of the tree have the setting of the controller exactly when
that is zero or every node stems from a create command that was accepted before the last
heartbeat command. -/
theorem setting_everywhere_iff_ordered_before {es : List Event} {w : World}
    (h : Run Step initial es w) (hquiet : NothingInFlight w) :
    (∀ v, (w.proc v).path ≠ [] → (w.proc v).node.heartbeat = w.ctrl.heartbeat) ↔
      (w.ctrl.heartbeat = 0 ∨
        ∀ v, (w.proc v).path ≠ [] → OrderedBefore (lastMark {} initial es) w v) := by
  have hbeats := Beats.of_run h Inv.initial Beats.initial
  have hstream : ∀ v, w.stream v = [] := by
    intro v
    exact List.flatMap_eq_nil_iff.mpr fun q _ => (hquiet q).1
  have hexpects : ∀ v, (w.proc v).path ≠ [] →
      (OrderedBefore (lastMark {} initial es) w v →
        (w.proc v).node.heartbeat = w.ctrl.heartbeat) ∧
      (¬ OrderedBefore (lastMark {} initial es) w v → (w.proc v).node.heartbeat = 0) := by
    intro v hv
    obtain ⟨-, hearly, hlate⟩ := hbeats.expects v hv
    rw [hstream] at hearly hlate
    rw [hbeats.time]
    exact ⟨hearly, hlate⟩
  constructor
  · intro hall
    apply or_iff_not_imp_left.mpr
    intro hne v hv
    by_contra hlate
    exact hne ((hall v hv).symm.trans ((hexpects v hv).2 hlate))
  · rintro (hzero | hearly) v hv
    · by_cases hb : OrderedBefore (lastMark {} initial es) w v
      · exact (hexpects v hv).1 hb
      · rw [(hexpects v hv).2 hb, hzero]
    · exact (hexpects v hv).1 (hearly v hv)

/-- A node is started, and a setting reaches it. -/
def beatAfterCreate : List Event :=
  [.command (.create 1 (-1)) .created, .command (.heartbeat 5) .created, .receiveDown 0 .created]

theorem setting_everywhere_iff_ordered_before_one_node :
    let w := beatAfterCreate.foldl World.next initial
    (w.proc 0).node.heartbeat = 5 ∧
    ((∀ v, (w.proc v).path ≠ [] → (w.proc v).node.heartbeat = w.ctrl.heartbeat) ↔
      (w.ctrl.heartbeat = 0 ∨
        ∀ v, (w.proc v).path ≠ [] → OrderedBefore (lastMark {} initial beatAfterCreate) w v)) := by
  have hrun : Possible (fun _ _ => True) initial beatAfterCreate := by decide
  have hquiet : NothingInFlight (beatAfterCreate.foldl World.next initial) := by
    intro q
    cases q with
    | zero => exact ⟨rfl, rfl⟩
    | succ q => exact ⟨rfl, rfl⟩
  exact ⟨rfl, setting_everywhere_iff_ordered_before hrun.stepRun hquiet⟩

/-- A node is started after the heartbeat command. -/
def createAfterBeat : List Event :=
  [.command (.heartbeat 5) .created, .command (.create 1 (-1)) .created]

/-- Its setting is zero. -/
theorem later_node_has_no_setting :
    ¬ ∀ es w, Run Step initial es w → NothingInFlight w →
      ∀ v, (w.proc v).path ≠ [] → (w.proc v).node.heartbeat = w.ctrl.heartbeat := by
  intro hall
  have hrun : Possible (fun _ _ => True) initial createAfterBeat := by decide
  have hquiet : NothingInFlight (createAfterBeat.foldl World.next initial) := by
    intro q
    cases q with
    | zero => exact ⟨rfl, rfl⟩
    | succ q => exact ⟨rfl, rfl⟩
  have hzero := hall createAfterBeat _ hrun.stepRun hquiet 0 (by decide)
  exact absurd hzero (by decide)

end NodeTree
