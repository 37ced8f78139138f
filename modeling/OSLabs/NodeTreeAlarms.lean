/-
# Which nodes are reported, and when

`check_beats` measures the silence of a node from the time at which it was heard of last, at which
a heartbeat setting was given, or at which it was reported last.  So the lines it prints are told by
the history of the controller: a node is reported exactly when it has been silent for more than four
heartbeats, once in a check, and the nodes in ascending order.
-/
import OSLabs.LastEvent
import OSLabs.NodeTreeWatch

namespace NodeTree

/-! ## The history of the controller -/

/-- The nodes that `check_beats` would report now. -/
def World.alarms (w : World) : List ℤ :=
  (w.ctrl.beatTracker.filter fun e =>
    decide (milliseconds w.clock e.2 > 4 * w.ctrl.heartbeat)).map Prod.fst

/-- The silence of node `i` is measured from this event on: a Create reply or a beat with its id is
handled, a heartbeat setting is given while it is watched, or it is reported. -/
def Restarts (i : ℤ) (w : World) : ControlEvent → Prop
  | .message m => (m.command = .create ∨ m.command = .heartBeat) ∧ m.id = i
  | .command (.heartbeat _) _ => i ∈ w.watched
  | .checkBeats => i ∈ w.alarms
  | _ => False

/-- The silence of node `i` has lasted since the event number `k`. -/
def SilentSince (i : ℤ) (es : List ControlEvent) (k : ℕ) : Prop :=
  History.LastAt World.control initial (Restarts i) es k

/-- The time of the event number `k`. -/
def timeAt (es : List ControlEvent) (k : ℕ) : ℤ := (History.stateAt World.control initial es k).clock

theorem foldl_control {w w' : World} {es : List ControlEvent} (h : Run ControlStep w es w') :
    es.foldl World.control w = w' := by
  induction h with
  | nil w => rfl
  | cons hst _ ih =>
    obtain ⟨-, -, rfl⟩ := hst
    exact ih

/-! ## What a step does to the times -/

/-- The keys of `beat_tracker` ascend. -/
def Ascending (l : List (ℤ × ℤ)) : Prop := (l.map Prod.fst).Pairwise (· < ·)

section Assign

variable {key value i t : ℤ} {l : List (ℤ × ℤ)}

theorem Ascending.assign (h : Ascending l) : Ascending (NodeTree.assign key value l) := by
  induction l with
  | nil => exact List.pairwise_singleton _ _
  | cons x l ih =>
    obtain ⟨k, v⟩ := x
    obtain ⟨hhead, htail⟩ := List.pairwise_cons.mp h
    unfold NodeTree.assign
    split_ifs with hlt heq
    · refine List.pairwise_cons.mpr ⟨?_, h⟩
      intro j hj
      rcases List.mem_cons.mp hj with rfl | hj
      · exact hlt
      · exact hlt.trans (hhead j hj)
    · subst heq
      exact List.pairwise_cons.mpr ⟨hhead, htail⟩
    · refine List.pairwise_cons.mpr ⟨?_, ih htail⟩
      intro j hj
      rcases (mem_assign key value l j).mp hj with rfl | hj
      · show k < j
        omega
      · exact hhead j hj

/-- A key has one entry. -/
theorem Ascending.unique (h : Ascending l) {v v' : ℤ} (hv : (i, v) ∈ l) (hv' : (i, v') ∈ l) :
    v = v' := by
  have hnodup : (l.map Prod.fst).Nodup := h.imp fun hlt => hlt.ne
  exact congrArg Prod.snd (List.inj_on_of_nodup_map hnodup hv hv' rfl)

/-- The entry that is written, and the others. -/
theorem Ascending.mem_assign (h : Ascending l) :
    (i, t) ∈ NodeTree.assign key value l ↔
      (i = key ∧ t = value) ∨ (i ≠ key ∧ (i, t) ∈ l) := by
  induction l with
  | nil => simp [NodeTree.assign]
  | cons x l ih =>
    obtain ⟨k, v⟩ := x
    obtain ⟨hhead, htail⟩ := List.pairwise_cons.mp h
    have hbehind : ∀ {j u : ℤ}, (j, u) ∈ l → k < j := fun hj => hhead _ (List.mem_map_of_mem hj)
    unfold NodeTree.assign
    split_ifs with hlt heq
    · -- The key is smaller than all that are there.
      rw [List.mem_cons, Prod.mk.injEq]
      constructor
      · rintro (hnew | hold)
        · exact Or.inl hnew
        · refine Or.inr ⟨?_, hold⟩
          rcases List.mem_cons.mp hold with heq | hold
          · rw [(Prod.mk.inj heq).1]
            omega
          · have := hbehind hold
            omega
      · exact Or.imp_right And.right
    · subst heq
      rw [List.mem_cons, List.mem_cons, Prod.mk.injEq, Prod.mk.injEq]
      constructor
      · rintro (hnew | hold)
        · exact Or.inl hnew
        · have := hbehind hold
          exact Or.inr ⟨by omega, Or.inr hold⟩
      · rintro (hnew | ⟨hne, ⟨heq, -⟩ | hold⟩)
        · exact Or.inl hnew
        · exact absurd heq hne
        · exact Or.inr hold
    · rw [List.mem_cons, List.mem_cons, ih htail, Prod.mk.injEq]
      constructor
      · rintro (⟨rfl, rfl⟩ | hnew | ⟨hne, hold⟩)
        · exact Or.inr ⟨fun he => heq he.symm, Or.inl ⟨rfl, rfl⟩⟩
        · exact Or.inl hnew
        · exact Or.inr ⟨hne, Or.inr hold⟩
      · rintro (hnew | ⟨hne, hhere | hold⟩)
        · exact Or.inr (Or.inl hnew)
        · exact Or.inl hhere
        · exact Or.inr (Or.inr ⟨hne, hold⟩)

end Assign

section Step

variable {w : World} {e : ControlEvent} {i t : ℤ}

/-- What a command does to `beat_tracker`. -/
theorem command_beatTracker (cmd : Command) (o : Outcome) :
    (handleCommand w o cmd).ctrl.beatTracker =
      match cmd with
      | .heartbeat _ => w.ctrl.beatTracker.map fun e => (e.1, w.clock)
      | _ => w.ctrl.beatTracker := by
  have hbroadcast : ∀ m, (broadcastMessage w m).ctrl.beatTracker = w.ctrl.beatTracker := by
    intro m
    obtain ⟨r, hr⟩ := broadcastMessage_ctrl w m
    rw [hr]
  cases cmd with
  | create childId parentId =>
    show (handleCreateCommand w childId parentId o).ctrl.beatTracker = _
    unfold handleCreateCommand
    split_ifs
    · rfl
    · cases o <;> rfl
    · exact hbroadcast _
    · rfl
  | exec id key val =>
    show (handleExecCommand w id key val).ctrl.beatTracker = _
    unfold handleExecCommand
    split_ifs
    · cases val <;> exact hbroadcast _
    · rfl
  | ping id =>
    show (handlePingCommand w id).ctrl.beatTracker = _
    unfold handlePingCommand
    split_ifs
    · exact hbroadcast _
    · rfl
  | heartbeat time =>
    show (handleHeartbeatCommand w time).ctrl.beatTracker = _
    unfold handleHeartbeatCommand
    rw [sendAll_ctrl]
    rfl
  | unknown => rfl

/-- What a message of a child does to `beat_tracker`. -/
theorem message_beatTracker (c : Controller) (now : ℤ) (m : Message) :
    (c.handleChildMessage now m).beatTracker =
      if m.command = .create ∨ m.command = .heartBeat then assign m.id now c.beatTracker
      else c.beatTracker := by
  unfold Controller.handleChildMessage
  cases m.command <;> rfl

/-- What a check of the beats does to `beat_tracker`. -/
theorem checkBeats_beatTracker : (w.control .checkBeats).ctrl.beatTracker =
    w.ctrl.beatTracker.map fun e =>
      (e.1, if milliseconds w.clock e.2 > 4 * w.ctrl.heartbeat then w.clock else e.2) := by
  show (w.ctrl.checkBeats w.clock).beatTracker = _
  unfold Controller.checkBeats
  simp only [decide_eq_true_eq]

theorem mem_alarms : i ∈ w.alarms ↔
    ∃ t, (i, t) ∈ w.ctrl.beatTracker ∧ milliseconds w.clock t > 4 * w.ctrl.heartbeat := by
  unfold World.alarms
  rw [List.mem_map]
  constructor
  · rintro ⟨⟨j, t⟩, hmem, rfl⟩
    rw [List.mem_filter, decide_eq_true_eq] at hmem
    exact ⟨t, hmem⟩
  · rintro ⟨t, hmem, hlate⟩
    exact ⟨(i, t), List.mem_filter.mpr ⟨hmem, decide_eq_true hlate⟩, rfl⟩

theorem mem_watched : i ∈ w.watched ↔ ∃ t, (i, t) ∈ w.ctrl.beatTracker := by
  unfold World.watched
  rw [List.mem_map]
  constructor
  · rintro ⟨⟨j, t⟩, hmem, rfl⟩
    exact ⟨t, hmem⟩
  · rintro ⟨t, hmem⟩
    exact ⟨(i, t), hmem, rfl⟩

/-- The keys keep their order. -/
theorem ascending_control (h : Ascending w.ctrl.beatTracker) :
    Ascending (w.control e).ctrl.beatTracker := by
  have hmap : ∀ f : ℤ × ℤ → ℤ,
      Ascending (w.ctrl.beatTracker.map fun e => (e.1, f e)) := by
    intro f
    unfold Ascending
    rw [List.map_map]
    exact h
  cases e with
  | tick now => exact h
  | command cmd o =>
    show Ascending (handleCommand w o cmd).ctrl.beatTracker
    rw [command_beatTracker]
    cases cmd <;> first | exact h | exact hmap _
  | message m =>
    show Ascending (w.ctrl.handleChildMessage w.clock m).beatTracker
    rw [message_beatTracker]
    split_ifs
    · exact h.assign
    · exact h
  | checkPending =>
    obtain ⟨output, pending, heq⟩ := Inv.checkPendingMessages_frame w.ctrl w.clock
    show Ascending (w.ctrl.checkPendingMessages w.clock).beatTracker
    rw [heq]
    exact h
  | checkBeats =>
    rw [checkBeats_beatTracker]
    exact hmap _

/-- A restarted entry has the present time, the others keep theirs. -/
theorem mem_map_restarted {l : List (ℤ × ℤ)} {now : ℤ} :
    (i, t) ∈ l.map (fun e => (e.1, now)) ↔ i ∈ l.map Prod.fst ∧ t = now := by
  rw [List.mem_map, List.mem_map]
  constructor
  · rintro ⟨x, hx, heq⟩
    obtain ⟨rfl, rfl⟩ := Prod.mk.inj heq
    exact ⟨⟨x, hx, rfl⟩, rfl⟩
  · rintro ⟨⟨x, hx, rfl⟩, rfl⟩
    exact ⟨x, hx, rfl⟩

/-- **What a step does to the times.** -/
theorem mem_beatTracker_control (h : Ascending w.ctrl.beatTracker) :
    (i, t) ∈ (w.control e).ctrl.beatTracker ↔
      (Restarts i w e ∧ t = w.clock) ∨ (¬ Restarts i w e ∧ (i, t) ∈ w.ctrl.beatTracker) := by
  -- An event that is no restart for anybody leaves the times as they are.
  have hsame : ¬ Restarts i w e → (w.control e).ctrl.beatTracker = w.ctrl.beatTracker →
      ((i, t) ∈ (w.control e).ctrl.beatTracker ↔
        (Restarts i w e ∧ t = w.clock) ∨ (¬ Restarts i w e ∧ (i, t) ∈ w.ctrl.beatTracker)) := by
    intro hno heq
    rw [heq]
    exact ⟨fun hmem => Or.inr ⟨hno, hmem⟩, fun hor =>
      hor.elim (fun hyes => absurd hyes.1 hno) And.right⟩
  cases e with
  | tick now => exact hsame id rfl
  | command cmd o =>
    have hcmd := command_beatTracker (w := w) cmd o
    cases cmd with
    | heartbeat time =>
      show (i, t) ∈ (handleCommand w o (.heartbeat time)).ctrl.beatTracker ↔ _
      rw [hcmd, mem_map_restarted]
      show i ∈ w.watched ∧ t = w.clock ↔ (i ∈ w.watched ∧ t = w.clock) ∨ (i ∉ w.watched ∧ _)
      constructor
      · exact Or.inl
      · rintro (hyes | ⟨hno, hmem⟩)
        · exact hyes
        · exact absurd (mem_watched.mpr ⟨t, hmem⟩) hno
    | create childId parentId => exact hsame id hcmd
    | exec id key val => exact hsame (fun hno => hno) hcmd
    | ping id => exact hsame (fun hno => hno) hcmd
    | unknown => exact hsame id hcmd
  | message m =>
    show (i, t) ∈ (w.ctrl.handleChildMessage w.clock m).beatTracker ↔
      (((m.command = .create ∨ m.command = .heartBeat) ∧ m.id = i) ∧ t = w.clock) ∨
        (¬ ((m.command = .create ∨ m.command = .heartBeat) ∧ m.id = i) ∧
          (i, t) ∈ w.ctrl.beatTracker)
    rw [message_beatTracker]
    split_ifs with hsign
    · rw [h.mem_assign]
      constructor
      · rintro (⟨rfl, ht⟩ | ⟨hne, hmem⟩)
        · exact Or.inl ⟨⟨hsign, rfl⟩, ht⟩
        · exact Or.inr ⟨fun hyes => hne hyes.2.symm, hmem⟩
      · rintro (⟨⟨-, rfl⟩, ht⟩ | ⟨hno, hmem⟩)
        · exact Or.inl ⟨rfl, ht⟩
        · exact Or.inr ⟨fun heq => hno ⟨hsign, heq.symm⟩, hmem⟩
    · constructor
      · exact fun hmem => Or.inr ⟨fun hyes => hsign hyes.1, hmem⟩
      · rintro (⟨⟨hyes, -⟩, -⟩ | ⟨-, hmem⟩)
        · exact absurd hyes hsign
        · exact hmem
  | checkPending =>
    obtain ⟨output, pending, heq⟩ := Inv.checkPendingMessages_frame w.ctrl w.clock
    refine hsame id ?_
    show (w.ctrl.checkPendingMessages w.clock).beatTracker = _
    rw [heq]
  | checkBeats =>
    show _ ↔ (i ∈ w.alarms ∧ t = w.clock) ∨ (i ∉ w.alarms ∧ _)
    rw [checkBeats_beatTracker, List.mem_map, mem_alarms]
    constructor
    · rintro ⟨⟨j, v⟩, hv, heq⟩
      obtain ⟨rfl, ht⟩ := Prod.mk.inj heq
      dsimp only at ht
      split_ifs at ht with hlate
      · exact Or.inl ⟨⟨v, hv, hlate⟩, ht.symm⟩
      · subst ht
        refine Or.inr ⟨?_, hv⟩
        rintro ⟨v', hv', hlate'⟩
        rw [h.unique hv' hv] at hlate'
        exact hlate hlate'
    · rintro (⟨⟨v, hv, hlate⟩, rfl⟩ | ⟨hno, hmem⟩)
      · exact ⟨(i, v), hv, by rw [if_pos hlate]⟩
      · exact ⟨(i, t), hmem, by rw [if_neg fun hlate => hno ⟨t, hmem, hlate⟩]⟩

end Step

/-! ## What the history tells -/

section Runs

variable {es : List ControlEvent} {w : World}

/-- **The times are those since which the nodes are silent.** -/
theorem times_of_run (h : Run ControlStep initial es w) :
    Ascending w.ctrl.beatTracker ∧
      ∀ i t, (i, t) ∈ w.ctrl.beatTracker ↔ ∃ k, SilentSince i es k ∧ timeAt es k = t := by
  apply h.history (I := fun es w => Ascending w.ctrl.beatTracker ∧
    ∀ i t, (i, t) ∈ w.ctrl.beatTracker ↔ ∃ k, SilentSince i es k ∧ timeAt es k = t)
  · refine ⟨List.Pairwise.nil, ?_⟩
    intro i t
    refine iff_of_false List.not_mem_nil ?_
    rintro ⟨k, hk, -⟩
    exact History.not_lastAt_nil hk
  · rintro es w e w' hrun ⟨hascending, htimes⟩ ⟨-, -, rfl⟩
    refine ⟨ascending_control hascending, ?_⟩
    intro i t
    have hsnoc : ∀ k, SilentSince i (es ++ [e]) k ↔
        (k = es.length ∧ Restarts i w e) ∨ (¬ Restarts i w e ∧ SilentSince i es k) := by
      intro k
      unfold SilentSince
      rw [History.lastAt_snoc, foldl_control hrun]
    have hnow : timeAt (es ++ [e]) es.length = w.clock := by
      unfold timeAt
      rw [History.stateAt_snoc le_rfl, History.stateAt_length, foldl_control hrun]
    have hbefore : ∀ k, SilentSince i es k → timeAt (es ++ [e]) k = timeAt es k := by
      intro k hk
      unfold timeAt
      rw [History.stateAt_snoc (History.lt_of_happensAt hk.1).le]
    rw [mem_beatTracker_control hascending, htimes]
    constructor
    · rintro (⟨hrestarts, rfl⟩ | ⟨hno, k, hk, rfl⟩)
      · exact ⟨es.length, (hsnoc _).mpr (Or.inl ⟨rfl, hrestarts⟩), hnow⟩
      · exact ⟨k, (hsnoc k).mpr (Or.inr ⟨hno, hk⟩), hbefore k hk⟩
    · rintro ⟨k, hk, rfl⟩
      rcases (hsnoc k).mp hk with ⟨rfl, hrestarts⟩ | ⟨hno, hk⟩
      · exact Or.inl ⟨hrestarts, hnow⟩
      · exact Or.inr ⟨hno, k, hk, (hbefore k hk).symm⟩

/-- **A silent node is reported, and no other.**  What a check of the beats prints after any history,
whatever the children sent: each node that has been silent for more than four heartbeats, once, in
ascending order. -/
theorem silent_nodes_are_reported (h : Run ControlStep initial es w) :
    ∃ ids : List ℤ, (w.control .checkBeats).ctrl.output =
        w.ctrl.output ++ ids.map Output.noBeat ∧
      ids.Pairwise (· < ·) ∧
      ∀ i, i ∈ ids ↔ ∃ k, SilentSince i es k ∧
        milliseconds w.clock (timeAt es k) > 4 * w.ctrl.heartbeat := by
  obtain ⟨hascending, htimes⟩ := times_of_run h
  refine ⟨w.alarms, ?_, hascending.sublist (List.filter_sublist.map Prod.fst), ?_⟩
  · unfold World.alarms
    rw [List.map_map]
    rfl
  · intro i
    rw [mem_alarms]
    constructor
    · rintro ⟨t, hmem, hlate⟩
      obtain ⟨k, hk, rfl⟩ := (htimes i t).mp hmem
      exact ⟨k, hk, hlate⟩
    · rintro ⟨k, hk, hlate⟩
      exact ⟨_, (htimes i _).mpr ⟨k, hk, rfl⟩, hlate⟩

/-- Node 1 beats once, and then a second goes by: it is reported. -/
theorem silent_nodes_are_reported_second :
    let es := startAndBeat ++ [.tick 1000000000]
    let w := es.foldl World.control initial
    ∃ ids : List ℤ, (w.control .checkBeats).ctrl.output = w.ctrl.output ++ ids.map Output.noBeat ∧
      ids = [1] ∧ ∀ i, i ∈ ids ↔ ∃ k, SilentSince i es k ∧
        milliseconds w.clock (timeAt es k) > 4 * w.ctrl.heartbeat := by
  intro es w
  have hrun : Run ControlStep initial es w :=
    .cons ⟨by decide, by decide, rfl⟩ (.cons ⟨by decide, by decide, rfl⟩
      (.cons ⟨by decide, by decide, rfl⟩ (.cons ⟨by decide, by decide, rfl⟩ (.nil _))))
  obtain ⟨ids, houtput, -, hids⟩ := silent_nodes_are_reported hrun
  refine ⟨ids, houtput, ?_, hids⟩
  have hprinted : (w.control .checkBeats).ctrl.output = w.ctrl.output ++ [.noBeat 1] := by decide
  have hmap := List.append_cancel_left (houtput.symm.trans hprinted)
  obtain ⟨i, rfl, hi⟩ := List.map_eq_singleton_iff.mp hmap
  rw [Output.noBeat.inj hi]

end Runs

end NodeTree
