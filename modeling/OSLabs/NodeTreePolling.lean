/-
# Every link is polled

The loops come back to every place.  So in an execution in which no process starves, a process
receives from its parent and from each of its children again and again, and what the other steps do
not disturb still holds when it does.  The rank is the number of turns until the place is reached.
-/
import OSLabs.FairRuns
import OSLabs.NodeTreeLoops

namespace NodeTree

/-! ## What others leave alone -/

section Others

variable {w : World} {e : Event} {p q u : ℕ}

/-- A process gets a new child in its own step only, when it takes a message of its parent. -/
theorem Inv.children_same (h : Inv w) (he : e.Enabled w) (hne : ∀ o, e ≠ .receiveDown u o)
    (hu : u < w.count) : ((w.next e).proc u).node.children = (w.proc u).node.children := by
  cases h.change_next he u with
  | same hs => exact hs.children
  | fresh hv => exact absurd hv (Nat.ne_of_lt hu)
  | acted r m ha =>
    obtain ⟨o, ho⟩ := ha.event
    exact absurd ho (hne o)
  | threw o ho => exact absurd ho (hne o)

/-- The children of a process keep their places in its list. -/
theorem Inv.children_grow (h : Inv w) (he : e.Enabled w) (hu : u < w.count) :
    (w.proc u).node.children <+: ((w.next e).proc u).node.children := by
  cases h.change_next he u with
  | same hs => rw [hs.children]
  | fresh hv => exact absurd hv (Nat.ne_of_lt hu)
  | acted r m ha =>
    rcases ha.node with ⟨-, hnode, -⟩ | ⟨-, -, hnode⟩
    · rw [hnode, (Inv.act_keeps _ _).2]
    · rw [hnode]
      exact List.prefix_append _ _
  | threw o _ _ _ _ hchildren => rw [hchildren]

/-- The controller gets a new child by a command only. -/
theorem Inv.ctrlChildren_same (h : Inv w) (he : e.Enabled w) (hne : ∀ cmd o, e ≠ .command cmd o)
    (hsucceeds : e.Succeeds) : (w.next e).ctrl.children = w.ctrl.children := by
  cases h.born_next he with
  | none _ hctrl => exact hctrl
  | direct id hcommand => exact absurd hcommand (hne _ _)
  | below _ _ _ _ _ _ _ _ _ hctrl => exact hctrl
  | orphan hfail => exact absurd hsucceeds hfail

theorem Inv.ctrlChildren_grow (h : Inv w) (he : e.Enabled w) (hsucceeds : e.Succeeds) :
    w.ctrl.children <+: (w.next e).ctrl.children := by
  cases h.born_next he with
  | none _ hctrl => rw [hctrl]
  | direct id _ _ _ _ hctrl =>
    rw [hctrl]
    exact List.prefix_append _ _
  | below _ _ _ _ _ _ _ _ _ hctrl => rw [hctrl]
  | orphan hfail => exact absurd hsucceeds hfail

/-- Handling a message of the parent puts replies behind what is in the link to the parent. -/
theorem Inv.up_grow_receiveDown (h : Inv w) (hp : p < w.count) (o : Outcome) (hq : q < w.count) :
    (w.proc q).up <+: ((NodeTree.receiveDown w p o).proc q).up := by
  have hreceived := h.received hp o
  have hserve : ∀ (w' : World) rest r m, (w'.proc q).up = (w.proc q).up →
      (w.proc q).up <+: ((w'.serve p rest r m).proc q).up := by
    intro w' rest r m hsame
    rw [← hsame, World.serve, update_proc]
    split_ifs with hqp
    · rw [hqp]
      exact List.prefix_append _ _
    · exact List.prefix_rfl
  generalize NodeTree.receiveDown w p o = w' at hreceived ⊢
  cases hreceived with
  | nothing => exact List.prefix_rfl
  | beat pkt rest =>
    obtain ⟨d, hd⟩ := (h.setHeartbeat p pkt.msg.addData).forward_frame p rest pkt q
    rw [hd]
    dsimp only
    rw [setNode_up]
  | other r rest =>
    obtain ⟨d, hd⟩ := h.forward_frame p rest ⟨r.msg, some r⟩ q
    rw [hd]
  | answered r rest => exact hserve _ _ _ _ (setNode_up _ _ _ _)
  | created r rest => exact hserve _ _ _ _ (attach_keeps w p q _ Process.up (fun _ _ => rfl) hq)
  | notForked r rest => rw [crash_up]
  | notBound r rest => rw [crash_up, fork_proc_of_lt w _ _ hq]

/-- **Only its parent takes a message from a link up.** -/
theorem Inv.up_next (h : Inv w) (he : e.Enabled w) (hreceive : e ≠ .receiveUp q)
    (hrelay : ∀ u, e ≠ .relayUp u q) (hq : q < w.count) :
    (w.proc q).up <+: ((w.next e).proc q).up := by
  cases e with
  | command cmd o =>
    show _ <+: ((NodeTree.handleCommand w o cmd).proc q).up
    rw [h.up_command cmd o hq]
  | receiveDown p o => exact h.up_grow_receiveDown he.1 o hq
  | receiveUp p =>
    have hqp : q ≠ p := fun heq => hreceive (heq ▸ rfl)
    show _ <+: ((NodeTree.receiveUp w p).proc q).up
    unfold NodeTree.receiveUp
    split
    · exact List.prefix_rfl
    · dsimp only
      rw [update_proc_of_ne _ _ _ _ hqp]
  | relayUp p c =>
    have hqc : q ≠ c := fun heq => hrelay p (heq ▸ rfl)
    show _ <+: ((NodeTree.relayUp w p c).proc q).up
    cases hup : (w.proc c).up with
    | nil =>
      unfold NodeTree.relayUp
      rw [hup]
    | cons pkt rest =>
      have hpc : p ≠ c := fun heq => h.self_notMem_children p (heq ▸ he.2.2)
      rw [Inv.relayUp_proc hup hpc, if_neg hqc]
      split_ifs with hqp
      · rw [hqp]
        exact List.prefix_append _ _
      · exact List.prefix_rfl
  | sendBeat p =>
    show _ <+: ((NodeTree.sendBeat w p).proc q).up
    unfold NodeTree.sendBeat World.sendUp
    dsimp only
    split_ifs
    · rw [update_update, update_proc]
      split_ifs with hqp
      · rw [hqp]
        exact List.prefix_append _ _
      · exact List.prefix_rfl
    · exact List.prefix_rfl
  | _ => exact List.prefix_rfl

end Others

/-! ## How far a process is from a place in its loop -/

/-- The turns until the message of the parent is received, by a process with `len` children. -/
def NodePlace.beforeParent (len : ℕ) : NodePlace → ℕ
  | .child i => (len - i) + 2
  | .beat => 1
  | .parent => 0

/-- The turns until the child at `i` is polled, at most. -/
def NodePlace.beforeChild (len i : ℕ) : NodePlace → ℕ
  | .child j => if j ≤ i then i - j else (len - j) + i + 3
  | .beat => i + 2
  | .parent => i + 1

/-- The turns of the controller until the child at `i` is polled, at most. -/
def ControllerPlace.beforeChild (len i : ℕ) : ControllerPlace → ℕ
  | .child j => if j ≤ i then i - j else (len - j) + i + 4
  | .pending => i + 3
  | .beats => i + 2
  | .input => i + 1

/-- The next place is closer. -/
theorem NodePlace.beforeParent_succ {len : ℕ} {place : NodePlace} (h : place.beforeParent len ≠ 0) :
    (place.succ len).beforeParent len < place.beforeParent len := by
  cases place with
  | child j =>
    rw [NodePlace.succ]
    split_ifs with hj
    · simp only [NodePlace.beforeParent]
      omega
    · simp only [NodePlace.beforeParent]
      omega
  | beat => exact Nat.zero_lt_one
  | parent => exact absurd rfl h

/-- The next place is closer.  There may be more children only after the message of the parent. -/
theorem NodePlace.beforeChild_succ {len len' i : ℕ} {place : NodePlace} (hi : i < len)
    (h : place.beforeChild len i ≠ 0) (hlen : place ≠ .parent → len' = len) :
    (place.succ len).beforeChild len' i < place.beforeChild len i := by
  cases place with
  | child j =>
    rw [hlen (by simp), NodePlace.succ]
    simp only [NodePlace.beforeChild] at h
    split_ifs with hj
    · simp only [NodePlace.beforeChild]
      split_ifs at h ⊢ <;> omega
    · simp only [NodePlace.beforeChild]
      split_ifs <;> omega
  | beat => exact Nat.lt_succ_self _
  | parent =>
    simp only [NodePlace.succ, NodePlace.beforeChild]
    rw [if_pos (Nat.zero_le i)]
    omega

/-- The next place is closer.  There may be more children only after the input. -/
theorem ControllerPlace.beforeChild_succ {len len' i : ℕ} {place : ControllerPlace} (hi : i < len)
    (h : place.beforeChild len i ≠ 0) (hlen : place ≠ .input → len' = len) :
    (place.succ len).beforeChild len' i < place.beforeChild len i := by
  cases place with
  | child j =>
    rw [hlen (by simp), ControllerPlace.succ]
    simp only [ControllerPlace.beforeChild] at h
    split_ifs with hj
    · simp only [ControllerPlace.beforeChild]
      split_ifs at h ⊢ <;> omega
    · simp only [ControllerPlace.beforeChild]
      split_ifs <;> omega
  | pending => exact Nat.lt_succ_self _
  | beats => exact Nat.lt_succ_self _
  | input =>
    simp only [ControllerPlace.succ, ControllerPlace.beforeChild]
    rw [if_pos (Nat.zero_le i)]
    omega

/-- The child at `i` is polled now. -/
theorem NodePlace.beforeChild_eq_zero {len i : ℕ} {place : NodePlace} :
    place.beforeChild len i = 0 ↔ place = .child i := by
  cases place with
  | child j =>
    rw [NodePlace.beforeChild, NodePlace.child.injEq]
    split_ifs with hj
    · omega
    · exact iff_of_false id (by omega)
  | beat => exact iff_of_false (Nat.succ_ne_zero _) NodePlace.noConfusion
  | parent => exact iff_of_false (Nat.succ_ne_zero _) NodePlace.noConfusion

/-- The child at `i` is polled now. -/
theorem ControllerPlace.beforeChild_eq_zero {len i : ℕ} {place : ControllerPlace} :
    place.beforeChild len i = 0 ↔ place = .child i := by
  cases place with
  | child j =>
    rw [ControllerPlace.beforeChild, ControllerPlace.child.injEq]
    split_ifs with hj
    · omega
    · exact iff_of_false id (by omega)
  | pending => exact iff_of_false (Nat.succ_ne_zero _) ControllerPlace.noConfusion
  | beats => exact iff_of_false (Nat.succ_ne_zero _) ControllerPlace.noConfusion
  | input => exact iff_of_false (Nat.succ_ne_zero _) ControllerPlace.noConfusion

/-! ## Executions in which nobody starves -/

/-- An infinite execution of the loops from the start, in which `create_process` succeeds, and the
controller and every process that was forked take another turn again and again. -/
structure Fair (ρ : InfiniteRun Running.Step) : Prop where
  start : ρ.state 0 = Running.start
  succeeds : ∀ n, (ρ.label n).Succeeds
  controller : Recurs fun n => (ρ.label n).IsController
  node : ∀ p n, p < (ρ.state n).world.count → Recurs fun m => (ρ.label m).IsNode p

namespace Fair

variable {ρ : InfiniteRun Running.Step} {n m p q c u v : ℕ} {P : World → Prop}

/-- What the step of a turn keeps, the turn keeps. -/
theorem keeps (h : Fair ρ) (hP : P (ρ.state n).world)
    (hstep : ∀ e, (ρ.state n).event (ρ.label n) = some e → e.Enabled (ρ.state n).world →
      e.Succeeds → P ((ρ.state n).world.next e)) : P (ρ.state (n + 1)).world :=
  (ρ.step_at n).keeps hP fun e he henabled =>
    hstep e he henabled (Running.event_succeeds (h.succeeds n) he)

/-- Everybody runs, and every request waits for its answer. -/
theorem accepting (h : Fair ρ) (n : ℕ) : Accepting (ρ.state n).world := by
  induction n with
  | zero =>
    rw [h.start]
    exact Accepting.initial
  | succ n ih => exact h.keeps ih fun e _ he hsucceeds => ih.next he hsucceeds

/-- What every step keeps holds from then on. -/
theorem preserves (h : Fair ρ) (hP : P (ρ.state n).world) (hle : n ≤ m)
    (hstep : ∀ w e, Accepting w → P w → e.Enabled w → e.Succeeds → P (w.next e)) :
    P (ρ.state m).world := by
  induction m, hle using Nat.le_induction with
  | base => exact hP
  | succ m _ ih =>
    exact h.keeps ih fun e _ he hsucceeds => hstep _ e (h.accepting m) ih he hsucceeds

/-- A process stays where it is, with its id. -/
theorem process_eq (h : Fair ρ) (hle : n ≤ m) (hp : p < (ρ.state n).world.count) :
    p < (ρ.state m).world.count ∧
      ((ρ.state m).world.proc p).path = ((ρ.state n).world.proc p).path ∧
      ((ρ.state m).world.proc p).node.id = ((ρ.state n).world.proc p).node.id := by
  apply h.preserves (P := fun w => p < w.count ∧
    (w.proc p).path = ((ρ.state n).world.proc p).path ∧
    (w.proc p).node.id = ((ρ.state n).world.proc p).node.id) ⟨hp, rfl, rfl⟩ hle
  rintro w e hw ⟨hlt, hpath, hid⟩ he -
  have hcount := hw.inv.count_le_next he
  exact ⟨by omega, ((hw.inv.keepsGoing he).path p hlt).trans hpath,
    (hw.inv.id_next he hlt).trans hid⟩

theorem label_of_isNode (h : Fair ρ) (hturn : (ρ.label n).IsNode p) :
    ρ.label n = .node p .created := by
  have hsucceeds := h.succeeds n
  generalize ρ.label n = t at hturn hsucceeds
  cases t with
  | node q o =>
    obtain rfl : q = p := hturn
    obtain rfl : o = .created := hsucceeds
    rfl
  | _ => exact hturn.elim

theorem label_of_isController (h : Fair ρ) (hturn : (ρ.label n).IsController) :
    ∃ input, ρ.label n = .controller input .created := by
  have hsucceeds := h.succeeds n
  generalize ρ.label n = t at hturn hsucceeds
  cases t with
  | controller input o =>
    obtain rfl : o = .created := hsucceeds
    exact ⟨input, rfl⟩
  | _ => exact hturn.elim

/-! ## Every link is polled -/

/-- **The turns of a process.**  What no step but `target` disturbs holds at a turn of the process
with rank zero, if the rank is lessened by the other turns, and they do not carry out `target`. -/
theorem exists_node_turn (h : Fair ρ) (hp : p < (ρ.state n).world.count) (hP : P (ρ.state n).world)
    (rank : ℕ → NodePlace → ℕ) (target : Event)
    (hkeep : ∀ w e, Accepting w → P w → e.Enabled w → e.Succeeds → p < w.count → e ≠ target →
      P (w.next e))
    (hothers : ∀ s t, P (Running.world s) → ¬ t.IsNode p → s.event t ≠ some target)
    (hmine : ∀ s, Accepting (Running.world s) → P s.world →
      rank (s.world.proc p).node.children.length (s.nodePlace p) ≠ 0 →
      s.event (.node p .created) ≠ some target ∧
      ∀ len, (s.nodePlace p ≠ .parent → len = (s.world.proc p).node.children.length) →
        rank len ((s.nodePlace p).succ (s.world.proc p).node.children.length) <
          rank (s.world.proc p).node.children.length (s.nodePlace p)) :
    ∃ m, n ≤ m ∧ P (ρ.state m).world ∧ p < (ρ.state m).world.count ∧
      ρ.label m = .node p .created ∧
      rank ((ρ.state m).world.proc p).node.children.length ((ρ.state m).nodePlace p) = 0 := by
  -- what `P` says is kept by every turn that is not `target`
  have hnext : ∀ k, p < (ρ.state k).world.count → P (ρ.state k).world →
      (ρ.state k).event (ρ.label k) ≠ some target →
      p < (ρ.state (k + 1)).world.count ∧ P (ρ.state (k + 1)).world := by
    intro k hlt hPk hne
    apply h.keeps (P := fun w => p < w.count ∧ P w) ⟨hlt, hPk⟩
    intro e hev he hsucceeds
    have hcount := (h.accepting k).inv.count_le_next he
    have hetarget : e ≠ target := fun heq => hne (heq ▸ hev)
    exact ⟨by omega, hkeep _ e (h.accepting k) hPk he hsucceeds hlt hetarget⟩
  -- the children of `p` stay the same between two looks at the parent
  have hchildren : ∀ k, p < (ρ.state k).world.count →
      (∀ e, (ρ.state k).event (ρ.label k) = some e → ∀ o, e ≠ .receiveDown p o) →
      ((ρ.state (k + 1)).world.proc p).node.children =
        ((ρ.state k).world.proc p).node.children := by
    intro k hlt hne
    apply h.keeps (P := fun w => (w.proc p).node.children =
      ((ρ.state k).world.proc p).node.children) rfl
    intro e hev he _
    exact (h.accepting k).inv.children_same he (hne e hev) hlt
  obtain ⟨m, hle, ⟨hlt, hPm⟩, hturn, hzero⟩ := (h.node p n hp).exists_turn
    (P := fun k => p < (ρ.state k).world.count ∧ P (ρ.state k).world)
    (fun k => rank ((ρ.state k).world.proc p).node.children.length
      ((ρ.state k).nodePlace p)) ⟨hp, hP⟩
    -- the turn of somebody else: the place of `p` stays
    (fun k _ hk hnot => by
      have hevent := hothers (ρ.state k) (ρ.label k) hk.2 hnot
      refine ⟨hnext k hk.1 hk.2 hevent, Nat.le_of_eq ?_⟩
      have hsame := hchildren k hk.1 fun e he => Running.event_ne_receiveDown hnot he
      obtain ⟨-, hstate⟩ := ρ.step_at k
      have hplace : (ρ.state (k + 1)).nodePlace p = (ρ.state k).nodePlace p := by
        rw [hstate]
        exact Running.nodePlace_next hnot _
      rw [hsame, hplace])
    -- a turn of `p`: the rank gets less
    (fun k _ hk hturn hrank => by
      have hlabel := h.label_of_isNode hturn
      obtain ⟨hevent, hless⟩ := hmine (ρ.state k) (h.accepting k) hk.2 hrank
      rw [← hlabel] at hevent
      refine ⟨hnext k hk.1 hk.2 hevent, ?_⟩
      obtain ⟨-, hstate⟩ := ρ.step_at k
      have hplace : (ρ.state (k + 1)).nodePlace p =
          ((ρ.state k).nodePlace p).succ ((ρ.state k).world.proc p).node.children.length := by
        rw [hstate, hlabel]
        exact Running.nodePlace_self _ _ _
      rw [hplace]
      apply hless
      intro hne
      rw [hchildren k hk.1 fun e he =>
        Running.event_ne_receiveDown_of_place hne (hlabel ▸ he)])
  exact ⟨m, hle, hPm, hlt, h.label_of_isNode hturn, hzero⟩

/-- **A process receives the next message of its parent**, and what no other step disturbs holds
until then. -/
theorem exists_receiveDown (h : Fair ρ) (hp : p < (ρ.state n).world.count)
    (hP : P (ρ.state n).world)
    (hkeep : ∀ w e, Accepting w → P w → e.Enabled w → e.Succeeds → p < w.count →
      e ≠ .receiveDown p .created → P (w.next e)) :
    ∃ m, n ≤ m ∧ P (ρ.state m).world ∧ p < (ρ.state m).world.count ∧
      (ρ.state (m + 1)).world = (ρ.state m).world.next (.receiveDown p .created) := by
  obtain ⟨m, hle, hPm, hlt, hlabel, hzero⟩ := h.exists_node_turn hp hP NodePlace.beforeParent
    (.receiveDown p .created) hkeep
    (fun s t _ hnot he => Running.event_ne_receiveDown hnot he _ rfl)
    (fun s _ _ hrank => by
      have hplace : s.nodePlace p ≠ .parent := fun heq => hrank (by rw [heq]; rfl)
      refine ⟨fun he => Running.event_ne_receiveDown_of_place hplace he _ rfl, fun len hlen => ?_⟩
      rw [hlen hplace]
      exact NodePlace.beforeParent_succ hrank)
  refine ⟨m, hle, hPm, hlt, ?_⟩
  -- At rank zero the process is at the message of its parent.
  have hplace : (ρ.state m).nodePlace p = .parent := by
    cases hplace : (ρ.state m).nodePlace p with
    | child i => rw [hplace] at hzero; exact absurd hzero (Nat.succ_ne_zero _)
    | beat => rw [hplace] at hzero; exact absurd hzero (Nat.succ_ne_zero _)
    | parent => rfl
  obtain ⟨-, hstate⟩ := ρ.step_at m
  have hevent : (ρ.state m).event (.node p .created) = some (.receiveDown p .created) := by
    simp [Running.event, hplace]
  rw [hstate, Running.world_next, hlabel, hevent]
  rfl

/-- What has a place in a list keeps it when the list grows at its end. -/
theorem getElem?_of_grown {l l' : List Node} (h : l <+: l') {i : ℕ} {x : Node}
    (hi : l[i]? = some x) : l'[i]? = some x := by
  obtain ⟨post, rfl⟩ := h
  rwa [List.getElem?_append_left (List.getElem?_eq_some_iff.mp hi).1]

/-- Where the place of a child is in a list of children, its process id is nowhere else. -/
theorem eq_of_pid {children : List Node} (hnd : (pids children).Nodup) {i j : ℕ} {x y : Node}
    (hi : children[i]? = some x) (hj : children[j]? = some y) (heq : x.pid = y.pid) : i = j := by
  have hi' : (pids children)[i]? = some x.pid := by rw [List.getElem?_map, hi]; rfl
  have hj' : (pids children)[j]? = some y.pid := by rw [List.getElem?_map, hj]; rfl
  have hlt : i < (pids children).length := (List.getElem?_eq_some_iff.mp hi').1
  exact (List.getElem?_inj hlt hnd).mp (by rw [hi', hj', heq])

/-- A process sends on a message of the child that it polls. -/
theorem nodePlace_of_relayUp {s : Running} (hinv : Inv s.world) {child : Node} {i : ℕ}
    (hi : (s.world.proc u).node.children[i]? = some child)
    (he : s.event (.node u .created) = some (.relayUp u child.pid)) :
    s.nodePlace u = .child i := by
  unfold Running.event at he
  cases hplace : s.nodePlace u with
  | child j =>
    simp only [hplace] at he
    obtain ⟨other, hother, heq⟩ := Option.map_eq_some_iff.mp he
    rw [eq_of_pid (hinv.tree.nodup u) hother hi (Event.relayUp.inj heq).2]
  | beat => simp [hplace] at he
  | parent => simp [hplace] at he

/-- The controller handles a message of the child that it polls. -/
theorem controllerPlace_of_receiveUp {s : Running} (hinv : Inv s.world) {child : Node} {i : ℕ}
    (hi : s.world.ctrl.children[i]? = some child) {input : Option Command}
    (he : s.event (.controller input .created) = some (.receiveUp child.pid)) :
    s.controllerPlace = .child i := by
  unfold Running.event at he
  cases hplace : s.controllerPlace with
  | child j =>
    simp only [hplace] at he
    obtain ⟨other, hother, heq⟩ := Option.map_eq_some_iff.mp he
    rw [eq_of_pid hinv.tree.nodupCtrl hother hi (Event.receiveUp.inj heq)]
  | pending => simp [hplace] at he
  | beats => simp [hplace] at he
  | input => simp [hplace] at he

/-- **A process sends on the next message of a child.** -/
theorem exists_relayUp (h : Fair ρ) (hu : u < (ρ.state n).world.count)
    (hc : c ∈ pids ((ρ.state n).world.proc u).node.children) (hP : P (ρ.state n).world)
    (hkeep : ∀ w e, Accepting w → P w → e.Enabled w → e.Succeeds → e ≠ .relayUp u c →
      P (w.next e)) :
    ∃ m, n ≤ m ∧ P (ρ.state m).world ∧
      (ρ.state (m + 1)).world = (ρ.state m).world.next (.relayUp u c) := by
  obtain ⟨child, hmem, rfl⟩ := List.mem_map.mp hc
  obtain ⟨i, hi⟩ := List.getElem?_of_mem hmem
  obtain ⟨m, hle, ⟨hPm, him⟩, hlt, hlabel, hzero⟩ := h.exists_node_turn
    (P := fun w => P w ∧ (w.proc u).node.children[i]? = some child) hu ⟨hP, hi⟩
    (fun len => NodePlace.beforeChild len i) (.relayUp u child.pid)
    (fun w e hw hPw he hsucceeds hlt hne => by
      refine ⟨hkeep w e hw hPw.1 he hsucceeds hne, ?_⟩
      exact getElem?_of_grown (hw.inv.children_grow he hlt) hPw.2)
    (fun s t _ hnot he => Running.event_ne_relayUp hnot he _ rfl)
    (fun s hw hPs hrank => by
      have hlen := (List.getElem?_eq_some_iff.mp hPs.2).1
      refine ⟨fun he => ?_, fun len => NodePlace.beforeChild_succ hlen hrank⟩
      exact hrank (NodePlace.beforeChild_eq_zero.mpr (nodePlace_of_relayUp hw.inv hPs.2 he)))
  refine ⟨m, hle, hPm, ?_⟩
  have hplace := NodePlace.beforeChild_eq_zero.mp hzero
  obtain ⟨-, hstate⟩ := ρ.step_at m
  have hevent : (ρ.state m).event (.node u .created) = some (.relayUp u child.pid) := by
    simp [Running.event, hplace, him]
  rw [hstate, Running.world_next, hlabel, hevent]
  rfl

/-- **The controller handles the next message of a child.** -/
theorem exists_receiveUp (h : Fair ρ) (hc : c ∈ pids (ρ.state n).world.ctrl.children)
    (hP : P (ρ.state n).world)
    (hkeep : ∀ w e, Accepting w → P w → e.Enabled w → e.Succeeds → e ≠ .receiveUp c →
      P (w.next e)) :
    ∃ m, n ≤ m ∧ P (ρ.state m).world ∧
      (ρ.state (m + 1)).world = (ρ.state m).world.next (.receiveUp c) := by
  obtain ⟨child, hmem, rfl⟩ := List.mem_map.mp hc
  obtain ⟨i, hi⟩ := List.getElem?_of_mem hmem
  -- The rank only counts the turns of the controller.
  have hnext : ∀ k, P (ρ.state k).world → (ρ.state k).world.ctrl.children[i]? = some child →
      (ρ.state k).event (ρ.label k) ≠ some (.receiveUp child.pid) →
      P (ρ.state (k + 1)).world ∧ (ρ.state (k + 1)).world.ctrl.children[i]? = some child := by
    intro k hPk hik hne
    apply h.keeps (P := fun w => P w ∧ w.ctrl.children[i]? = some child) ⟨hPk, hik⟩
    intro e hev he hsucceeds
    have hetarget : e ≠ .receiveUp child.pid := fun heq => hne (heq ▸ hev)
    refine ⟨hkeep _ e (h.accepting k) hPk he hsucceeds hetarget, ?_⟩
    exact getElem?_of_grown ((h.accepting k).inv.ctrlChildren_grow he hsucceeds) hik
  have hchildren : ∀ k, (∀ e, (ρ.state k).event (ρ.label k) = some e → ∀ cmd o,
      e ≠ .command cmd o) →
      (ρ.state (k + 1)).world.ctrl.children = (ρ.state k).world.ctrl.children := by
    intro k hne
    apply h.keeps (P := fun w => w.ctrl.children = (ρ.state k).world.ctrl.children) rfl
    intro e hev he hsucceeds
    exact (h.accepting k).inv.ctrlChildren_same he (hne e hev) hsucceeds
  obtain ⟨m, hle, ⟨hPm, him⟩, hturn, hzero⟩ := h.controller.exists_turn
    (P := fun k => P (ρ.state k).world ∧ (ρ.state k).world.ctrl.children[i]? = some child)
    (fun k => (ρ.state k).controllerPlace.beforeChild
      (ρ.state k).world.ctrl.children.length i) ⟨hP, hi⟩
    (fun k _ hk hnot => by
      refine ⟨hnext k hk.1 hk.2 fun he => ?_, Nat.le_of_eq ?_⟩
      · cases ht : ρ.label k with
        | controller => exact hnot (by rw [ht]; trivial)
        | _ =>
          rw [ht] at he
          cases Running.carriesOut he
      · have hsame := hchildren k fun e he => Running.event_ne_command hnot he
        obtain ⟨-, hstate⟩ := ρ.step_at k
        have hplace : (ρ.state (k + 1)).controllerPlace = (ρ.state k).controllerPlace := by
          rw [hstate]
          exact Running.controllerPlace_next hnot _
        rw [hsame, hplace])
    (fun k _ hk hturn hrank => by
      obtain ⟨input, hlabel⟩ := h.label_of_isController hturn
      have hlen := (List.getElem?_eq_some_iff.mp hk.2).1
      refine ⟨hnext k hk.1 hk.2 fun he => ?_, ?_⟩
      · rw [hlabel] at he
        exact hrank (ControllerPlace.beforeChild_eq_zero.mpr
          (controllerPlace_of_receiveUp (h.accepting k).inv hk.2 he))
      · obtain ⟨-, hstate⟩ := ρ.step_at k
        have hplace : (ρ.state (k + 1)).controllerPlace =
            (ρ.state k).controllerPlace.succ (ρ.state k).world.ctrl.children.length := by
          rw [hstate, hlabel]
          exact Running.controllerPlace_self _ _ _
        rw [hplace]
        apply ControllerPlace.beforeChild_succ hlen hrank
        intro hne
        rw [hchildren k fun e he => Running.event_ne_command_of_place hne (hlabel ▸ he)])
  refine ⟨m, hle, hPm, ?_⟩
  obtain ⟨input, hlabel⟩ := h.label_of_isController hturn
  have hplace := ControllerPlace.beforeChild_eq_zero.mp hzero
  obtain ⟨-, hstate⟩ := ρ.step_at m
  have hevent : (ρ.state m).event (.controller input .created) = some (.receiveUp child.pid) := by
    simp [Running.event, hplace, him]
  rw [hstate, Running.world_next, hlabel, hevent]
  rfl

end Fair

end NodeTree
