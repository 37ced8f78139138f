/-
# Every request is answered

As long as no process starves, a copy of a request comes to the head of its link and moves on to the
next process of its path, and the reply moves up in the same way.  So every request for a node of the
tree is answered, and no request that does not expire is pending for ever.  The links lose nothing: it
is assumed that `zmq_msg_send`, whose result the program ignores, succeeds.
-/
import OSLabs.NodeTreePolling

namespace NodeTree

/-! ## Who takes a message from a link up -/

section Parent

variable {w : World} {u u' q : ℕ} {pkt : Packet} {rest : List Packet}

/-- A process has one parent. -/
theorem Inv.eq_parent (h : Inv w) (hu : (w.proc u).path ≠ [])
    (hpath : (w.proc q).path = (w.proc u).path ++ [q])
    (hc : q ∈ pids (w.proc u').node.children) : u' = u := by
  obtain ⟨-, hu', hpath'⟩ := h.tree.child u' q hc
  have heq : (w.proc u').path = (w.proc u).path :=
    List.append_cancel_right (hpath'.symm.trans hpath)
  obtain ⟨pre, hpre⟩ := h.tree.exists_path_eq hu
  obtain ⟨pre', hpre'⟩ := h.tree.exists_path_eq hu'
  rw [hpre, hpre'] at heq
  exact List.cons.inj (List.append_inj' heq rfl).2 |>.1

/-- A child of a process is no child of the controller. -/
theorem Inv.notMem_ctrlChildren (h : Inv w) (hu : (w.proc u).path ≠ [])
    (hpath : (w.proc q).path = (w.proc u).path ++ [q]) : q ∉ pids w.ctrl.children := by
  intro hc
  rw [(h.tree.ctrlChild q hc).2] at hpath
  have happend : [] ++ [q] = (w.proc u).path ++ [q] := hpath
  exact hu (List.append_cancel_right happend).symm

/-- A child of the controller is no child of a process. -/
theorem Inv.notMem_children (h : Inv w) (hpath : (w.proc q).path = [q]) (u : ℕ) :
    q ∉ pids (w.proc u).node.children := by
  intro hc
  obtain ⟨-, hu, hpath'⟩ := h.tree.child u q hc
  rw [hpath] at hpath'
  have happend : [] ++ [q] = (w.proc u).path ++ [q] := hpath'
  exact hu (List.append_cancel_right happend).symm

/-- The controller takes the first message of a link. -/
theorem receiveUp_takes (hup : (w.proc q).up = pkt :: rest) :
    ((w.next (.receiveUp q)).proc q).up = rest ∧
      ∀ r, pkt.req = some r → r ∈ (w.next (.receiveUp q)).answered.map Prod.fst := by
  have heq : w.next (.receiveUp q) = _ := receiveUp_of_cons hup
  rw [heq]
  constructor
  · dsimp only
    rw [update_proc_self]
  · intro r hreq
    rw [hreq]
    exact List.mem_map_of_mem (f := Prod.fst) (List.mem_append_right _ List.mem_cons_self)

/-- A process takes the first message of a link and puts it into its own. -/
theorem relayUp_takes (hup : (w.proc q).up = pkt :: rest) (hne : u ≠ q) :
    ((w.next (.relayUp u q)).proc q).up = rest ∧ pkt ∈ ((w.next (.relayUp u q)).proc u).up := by
  have hproc := Inv.relayUp_proc hup hne
  constructor
  · show ((NodeTree.relayUp w u q).proc q).up = rest
    rw [hproc, if_neg hne.symm, if_pos rfl]
  · show pkt ∈ ((NodeTree.relayUp w u q).proc u).up
    rw [hproc, if_pos rfl]
    exact List.mem_append_right _ List.mem_cons_self

end Parent

namespace Fair

variable {ρ : InfiniteRun Running.Step} {n m q u v : ℕ} {r : Request} {pkt : Packet}
  {front back : List Packet}

/-! ## Down to the node -/

/-- A message in a link down comes to its head, where it is received next. -/
theorem exists_head_down (h : Fair ρ) (hq : q < (ρ.state n).world.count)
    (hdown : ((ρ.state n).world.proc q).down = front ++ pkt :: back) :
    ∃ m, n ≤ m ∧ (∃ rest, ((ρ.state m).world.proc q).down = pkt :: rest) ∧
      (ρ.state (m + 1)).world = (ρ.state m).world.next (.receiveDown q .created) := by
  induction front generalizing n back with
  | nil =>
    obtain ⟨m, hle, hhead, -, hnext⟩ := h.exists_receiveDown hq
      (P := fun w => ∃ rest, (w.proc q).down = pkt :: rest) ⟨back, hdown⟩
      (fun w e hw ⟨rest, hrest⟩ he hsucceeds hlt hne => by
        obtain ⟨post, hpost⟩ := hw.inv.down_next he
          (fun o heq => hne (by subst heq; rw [show o = .created from hsucceeds])) hsucceeds hlt
        exact ⟨rest ++ post, by rw [← hpost, hrest]; rfl⟩)
    exact ⟨m, hle, hhead, hnext⟩
  | cons first front ih =>
    obtain ⟨m, hle, ⟨rest, hrest⟩, hlt, hnext⟩ := h.exists_receiveDown hq
      (P := fun w => ∃ rest, (w.proc q).down = first :: (front ++ pkt :: rest)) ⟨back, hdown⟩
      (fun w e hw ⟨rest, hrest⟩ he hsucceeds hlt hne => by
        obtain ⟨post, hpost⟩ := hw.inv.down_next he
          (fun o heq => hne (by subst heq; rw [show o = .created from hsucceeds])) hsucceeds hlt
        exact ⟨rest ++ post, by rw [← hpost, hrest]; simp⟩)
    -- The first message is taken, so that the message is closer to the head.
    have hdown' : ((ρ.state (m + 1)).world.proc q).down = front ++ pkt :: rest := by
      rw [hnext]
      show ((NodeTree.receiveDown _ q .created).proc q).down = _
      rw [((h.accepting m).inv.takesFirst hlt).self, hrest, List.tail_cons]
    obtain ⟨m', hle', hhead⟩ := ih (h.process_eq (by omega) hq).1 hdown'
    exact ⟨m', by omega, hhead⟩

/-- **A copy reaches its node**, which replies. -/
theorem exists_reply (h : Fair ρ) (hid : ((ρ.state n).world.proc v).node.id = r.msg.id)
    (hq : q ∈ ((ρ.state n).world.proc v).path)
    (hcopy : ⟨r.msg, some r⟩ ∈ ((ρ.state n).world.proc q).down) :
    ∃ m, n ≤ m ∧ ReplyUnderWay (ρ.state m).world r := by
  -- The process ids ascend along the path.
  induction hd : v - q using Nat.strong_induction_on generalizing n q with
  | _ d ih =>
    have hinv := (h.accepting n).inv
    have hv : ((ρ.state n).world.proc v).path ≠ [] := List.ne_nil_of_mem hq
    have hlt := hinv.path_lt hv
    have hqlt := hinv.path_lt (hinv.tree.path_prefix_path hv hq).1
    obtain ⟨front, back, hdown⟩ := List.append_of_mem hcopy
    obtain ⟨m, hle, ⟨rest, hhead⟩, hnext⟩ := h.exists_head_down hqlt hdown
    obtain ⟨hlt', hpath', hid'⟩ := h.process_eq hle hlt
    obtain ⟨-, hpath'', hid''⟩ := h.process_eq (show n ≤ m + 1 by omega) hlt
    have hq' : q ∈ ((ρ.state m).world.proc v).path := by rwa [hpath']
    have hmoves := (h.accepting m).inv.head_moves hhead (hid'.trans hid) hq'
    rcases hmoves with ⟨msg, hmsg⟩ | ⟨pre, c, post, hpath, hcopy'⟩
    · refine ⟨m + 1, by omega, q, msg, ?_⟩
      rw [hnext]
      exact hmsg
    · have hinv' := (h.accepting m).inv
      have hc : c ∈ ((ρ.state m).world.proc v).path := by
        rw [hpath]
        exact List.mem_append_right _ (List.mem_cons_of_mem _ List.mem_cons_self)
      have hasc := hinv'.tree.path_pairwise v
      rw [hpath] at hasc
      have hqc : q < c := (List.pairwise_cons.mp (List.pairwise_append.mp hasc).2.1).1 c
        List.mem_cons_self
      have hcv := (hinv'.tree.path_prefix_path (List.ne_nil_of_mem hc) hc).2.1
      have hcopy'' : ⟨r.msg, some r⟩ ∈ ((ρ.state (m + 1)).world.proc c).down := by
        rw [hnext]
        exact hcopy'
      obtain ⟨m', hle', hreply⟩ := ih (v - c) (by omega) (hid''.trans hid)
        (by rw [hpath'', ← hpath']; exact hc) hcopy'' rfl
      exact ⟨m', by omega, hreply⟩

/-! ## Up to the controller -/

/-- **The first message of a link up is taken**, and what is behind it in the link stays: the
controller takes it, or the parent. -/
theorem exists_takes_up (h : Fair ρ) (hq : ((ρ.state n).world.proc q).path ≠ [])
    (hup : front <+: ((ρ.state n).world.proc q).up) (hne : front ≠ []) :
    ∃ m, n ≤ m ∧ front.tail <+: ((ρ.state m).world.proc q).up ∧
      ((∀ r, front.head?.bind Packet.req = some r → r ∈ (ρ.state m).world.answered.map Prod.fst) ∨
        ∃ u < q, ∀ pkt, front.head? = some pkt → pkt ∈ ((ρ.state m).world.proc u).up) := by
  have hinv := (h.accepting n).inv
  have hqlt := hinv.path_lt hq
  obtain ⟨first, tail, rfl⟩ := List.exists_cons_of_ne_nil hne
  obtain ⟨-, ⟨hroot, hchild⟩ | ⟨u, huq, hu, hpath, hchild⟩⟩ := hinv.tree.parent q hq
  · -- below the controller, which takes it itself
    obtain ⟨m, hle, ⟨-, -, post, hpost⟩, hnext⟩ := h.exists_receiveUp hchild
      (P := fun w => q < w.count ∧ (w.proc q).path = [q] ∧ first :: tail <+: (w.proc q).up)
      ⟨hqlt, hroot, hup⟩
      (fun w e hw ⟨hlt, hsame, hpre⟩ he _ hne => by
        have hcount := hw.inv.count_le_next he
        refine ⟨by omega, ((hw.inv.keepsGoing he).path q hlt).trans hsame, ?_⟩
        refine hpre.trans (hw.inv.up_next he hne (fun u heq => ?_) hlt)
        subst heq
        exact hw.inv.notMem_children hsame u he.2.2)
    obtain ⟨hrest, hanswered⟩ := receiveUp_takes hpost.symm
    rw [← hnext] at hrest hanswered
    exact ⟨m + 1, by omega, ⟨post, hrest.symm⟩, Or.inl hanswered⟩
  · -- below a process, which sends it on to its own link
    obtain ⟨m, hle, ⟨-, -, post, hpost⟩, hnext⟩ := h.exists_relayUp (hinv.path_lt hu) hchild
      (P := fun w => (q < w.count ∧ u < w.count) ∧ ((w.proc u).path ≠ [] ∧
        (w.proc q).path = (w.proc u).path ++ [q]) ∧ first :: tail <+: (w.proc q).up)
      ⟨⟨hqlt, hinv.path_lt hu⟩, ⟨hu, hpath⟩, hup⟩
      (fun w e hw ⟨⟨hlt, hult⟩, ⟨hu, hsame⟩, hpre⟩ he _ hne => by
        have hcount := hw.inv.count_le_next he
        have hkeeps := (hw.inv.keepsGoing he).path
        refine ⟨⟨by omega, by omega⟩, ?_, ?_⟩
        · rw [hkeeps u hult, hkeeps q hlt]
          exact ⟨hu, hsame⟩
        · refine hpre.trans (hw.inv.up_next he (fun heq => ?_) (fun u' heq => ?_) hlt)
          · subst heq
            exact hw.inv.notMem_ctrlChildren hu hsame he.2
          · subst heq
            obtain rfl := hw.inv.eq_parent hu hsame he.2.2
            exact hne rfl)
    obtain ⟨hrest, hmem⟩ := relayUp_takes hpost.symm (Nat.ne_of_lt huq)
    rw [← hnext] at hrest hmem
    exact ⟨m + 1, by omega, ⟨post, hrest.symm⟩, Or.inr ⟨u, huq, fun pkt hpkt =>
      Option.some_inj.mp hpkt ▸ hmem⟩⟩

/-- **A reply reaches the controller**, which processes it. -/
theorem exists_answered (h : Fair ρ) {msg : Message}
    (hreply : ⟨msg, some r⟩ ∈ ((ρ.state n).world.proc q).up) :
    ∃ m, n ≤ m ∧ r ∈ (ρ.state m).world.answered.map Prod.fst := by
  -- A parent was forked before its child.
  induction q using Nat.strong_induction_on generalizing n with
  | _ q ih =>
    have hq := (h.accepting n).inv.path_of_reply hreply
    obtain ⟨front, back, hup⟩ := List.append_of_mem hreply
    have hpre : front ++ [⟨msg, some r⟩] <+: ((ρ.state n).world.proc q).up :=
      ⟨back, by rw [hup]; simp⟩
    clear hup hreply
    -- The messages in front of it are taken one after the other.
    induction front generalizing n with
    | nil =>
      obtain ⟨m, hle, -, hdone | ⟨u, huq, hmem⟩⟩ := h.exists_takes_up hq hpre (by simp)
      · exact ⟨m, hle, hdone r rfl⟩
      · obtain ⟨m', hle', hanswered⟩ := ih u huq (hmem _ rfl)
        exact ⟨m', by omega, hanswered⟩
    | cons first front ih' =>
      obtain ⟨m, hle, htail, -⟩ := h.exists_takes_up hq hpre (by simp)
      have hq' : ((ρ.state m).world.proc q).path ≠ [] := by
        rwa [(h.process_eq hle ((h.accepting n).inv.path_lt hq)).2.1]
      obtain ⟨m', hle', hanswered⟩ := ih' hq' htail
      exact ⟨m', by omega, hanswered⟩

/-- **What waits for an answer gets it.** -/
theorem answers (h : Fair ρ) (ha : Awaited (ρ.state n).world r) :
    ∃ m, n ≤ m ∧ r ∈ (ρ.state m).world.answered.map Prod.fst := by
  cases ha with
  | down hcopy =>
    obtain ⟨v, hid, q, hq, hmem⟩ := hcopy
    obtain ⟨m, hle, q', msg, hreply⟩ := h.exists_reply hid hq hmem
    obtain ⟨m', hle', hanswered⟩ := h.exists_answered hreply
    exact ⟨m', by omega, hanswered⟩
  | up hreply =>
    obtain ⟨q, msg, hmem⟩ := hreply
    exact h.exists_answered hmem
  | done hdone => exact ⟨n, le_rfl, hdone⟩

/-- What was answered stays answered. -/
theorem answered_mono (h : Fair ρ) (hle : n ≤ m)
    (hr : r ∈ (ρ.state n).world.answered.map Prod.fst) :
    r ∈ (ρ.state m).world.answered.map Prod.fst := by
  apply h.preserves (P := fun w => r ∈ w.answered.map Prod.fst) hr hle
  intro w e hw hdone he _
  cases hw.inv.pendingChange he with
  | same _ _ hanswered => rwa [hanswered]
  | issued _ _ _ _ hanswered => rwa [hanswered]
  | checked _ _ _ hanswered => rwa [hanswered]
  | received _ _ _ _ _ _ _ hanswered =>
    rw [hanswered, List.map_append]
    exact List.mem_append_left _ hdone

end Fair

/-- What is pending was sent. -/
theorem Inv.pending_subset {w : World} {e : Event} (h : Inv w) (he : e.Enabled w)
    (hsub : w.ctrl.pendingMessages ⊆ w.issued) :
    (w.next e).ctrl.pendingMessages ⊆ (w.next e).issued := by
  cases h.pendingChange he with
  | same hpending hissued => rwa [hpending, hissued]
  | issued r _ hpending hissued =>
    rw [hpending, hissued]
    exact List.append_subset.mpr
      ⟨List.subset_append_of_subset_left _ hsub, List.subset_append_right _ _⟩
  | received _ pkt _ _ _ hpending hissued =>
    rw [hpending, hissued, settle]
    refine List.Subset.trans ?_ hsub
    split
    · exact List.eraseP_subset
    · exact List.Subset.refl _
  | checked _ hpending hissued =>
    rw [hpending, hissued]
    exact List.Subset.trans (List.filter_subset_self _) hsub

/-! ## Response -/

/-- No turn finds a pending request that has expired. -/
def Timely (ρ : InfiniteRun Running.Step) : Prop :=
  ∀ n e, (ρ.state n).event (ρ.label n) = some e → NoTimeout (ρ.state n).world e

section Response

variable {ρ : InfiniteRun Running.Step} {n : ℕ} {r : Request}

/-- Without timeouts the unanswered requests are pending. -/
theorem Fair.settled (h : Fair ρ) (htimely : Timely ρ)
    (honce : ∀ n, (ρ.state n).world.accepted.Nodup) (n : ℕ) : Settled (ρ.state n).world := by
  induction n with
  | zero =>
    rw [h.start]
    exact Settled.initial
  | succ n ih =>
    obtain ⟨hready, hstate⟩ := ρ.step_at n
    have honce' := honce (n + 1)
    rw [hstate, Running.world_next] at honce' ⊢
    cases he : (ρ.state n).event (ρ.label n) with
    | none => exact ih
    | some e =>
      rw [he] at honce'
      exact ih.next (h.accepting n).inv (Running.event_enabled hready he)
        (Running.event_succeeds (h.succeeds n) he) (htimely n e he) honce'

/-- **Every request is answered.**  In every execution of the loops over links that lose nothing, in which
`create_process` succeeds and neither the controller nor a computing process starves, every request
that is not for the id of the controller has its reply processed at some time. -/
theorem every_request_is_answered (h : Fair ρ) (hr : r ∈ (ρ.state n).world.issued)
    (hid : r.msg.id ≠ -1) :
    ∃ m, n ≤ m ∧ r ∈ (ρ.state m).world.answered.map Prod.fst :=
  h.answers ((h.accepting n).awaited r hr hid)

/-- **No request is pending for ever.**  If moreover nothing expires and no id is accepted twice, every
pending request leaves the pending ones at some time, and for good. -/
theorem no_request_is_pending_for_ever (h : Fair ρ) (htimely : Timely ρ)
    (honce : ∀ n, (ρ.state n).world.accepted.Nodup)
    (hr : r ∈ (ρ.state n).world.ctrl.pendingMessages) (hid : r.msg.id ≠ -1) :
    ∃ m, n ≤ m ∧ ∀ k, m ≤ k → r ∉ (ρ.state k).world.ctrl.pendingMessages := by
  have hissued : r ∈ (ρ.state n).world.issued := by
    rw [(h.settled htimely honce n).pending] at hr
    exact (List.mem_filter.mp hr).1
  obtain ⟨m, hle, hanswered⟩ := h.answers ((h.accepting n).awaited r hissued hid)
  refine ⟨m, hle, fun k hk hpending => ?_⟩
  rw [(h.settled htimely honce k).pending, List.mem_filter, decide_eq_true_eq] at hpending
  exact hpending.2 (h.answered_mono hk hanswered)

end Response

/-! ## An execution with a ping -/

/-- The turns in which the controller creates the node 1 and sends it a ping; afterwards the controller
and the node take turns. -/
def pingTurn (n : ℕ) : Turn :=
  if n = 3 then .controller (some (.create 1 (-1))) .created
  else if n = 8 then .controller (some (.ping 1)) .created
  else if n < 9 ∨ n % 2 = 0 then .controller none .created
  else .node 0 .created

/-- The states of the execution. -/
def pingState (n : ℕ) : Running := (List.range n).foldl (fun s k => s.next (pingTurn k)) .start

theorem pingState_succ (n : ℕ) : pingState (n + 1) = (pingState n).next (pingTurn n) := by
  unfold pingState
  rw [List.range_succ, List.foldl_append]
  rfl

theorem pingTurn_succeeds (n : ℕ) : (pingTurn n).Succeeds := by
  unfold pingTurn
  split_ifs <;> rfl

/-- Whoever takes a turn has been started. -/
theorem pingTurn_ready {n : ℕ} (hacc : Accepting (pingState n).world)
    (hcount : 9 ≤ n → 0 < (pingState n).world.count) : (pingState n).Ready (pingTurn n) := by
  unfold pingTurn
  split_ifs with h₃ h₈ hlt
  · exact hacc.all.ctrl
  · exact hacc.all.ctrl
  · exact hacc.all.ctrl
  · exact ⟨hcount (by omega), hacc.all.proc 0⟩

/-- The request of the execution. -/
def pingRequest : Request := ⟨0, .of 0 .ping 1 0⟩

/-- What holds once the ping was sent. -/
structure Pinged (w : World) : Prop where
  count : w.count = 1
  issued : w.issued = [pingRequest]
  children : w.ctrl.children = [⟨1, 0⟩]
  clock : w.clock = 0

theorem accepting_pingState (n : ℕ) :
    Accepting (pingState n).world ∧ (9 ≤ n → Pinged (pingState n).world) := by
  induction n with
  | zero => exact ⟨Accepting.initial, fun hle => absurd hle (by decide)⟩
  | succ n ih =>
    obtain ⟨hacc, hpinged⟩ := ih
    have hready := pingTurn_ready hacc fun hle => by rw [(hpinged hle).count]; exact Nat.zero_lt_one
    have hstep : Running.Step (pingState n) (pingTurn n) (pingState (n + 1)) :=
      ⟨hready, pingState_succ n⟩
    refine ⟨hstep.keeps hacc fun e he henabled =>
      hacc.next henabled (Running.event_succeeds (pingTurn_succeeds n) he), fun hle => ?_⟩
    rcases Nat.lt_or_ge n 9 with hlt | hge
    · obtain rfl : n = 8 := by omega
      exact ⟨by decide, by decide, by decide, by decide⟩
    · -- Neither a command nor a tick is among the turns from now on.
      apply hstep.keeps (hpinged hge)
      intro e he henabled
      have hsucceeds := Running.event_succeeds (pingTurn_succeeds n) he
      have hother : (∀ cmd o, e ≠ .command cmd o) ∧ ∀ now, e ≠ .tick now := by
        have hturn : pingTurn n = .controller none .created ∨ pingTurn n = .node 0 .created := by
          unfold pingTurn
          split_ifs
          · omega
          · omega
          · exact Or.inl rfl
          · exact Or.inr rfl
        rcases hturn with hturn | hturn
        · rw [hturn] at he
          cases Running.carriesOut he <;> simp
        · rw [hturn] at he
          cases Running.carriesOut he <;> simp
      have hp := hpinged hge
      refine ⟨?_, ?_, ?_, (clock_next _ hother.2).trans hp.clock⟩
      · cases hacc.inv.born_next henabled with
        | none hcount => rw [hcount, hp.count]
        | direct id hcommand => exact absurd hcommand (hother.1 _ _)
        | below q r rest _ hfirst _ hcmd =>
          have hr := hfirst.issued
          rw [hp.issued, List.mem_singleton] at hr
          rw [hr] at hcmd
          exact absurd hcmd (by decide)
        | orphan hfail => exact absurd hsucceeds hfail
      · cases hacc.inv.pendingChange henabled with
        | same _ hissued => rw [hissued, hp.issued]
        | issued r htag _ hissued =>
          obtain ⟨cmd, o, hcmd, -, -⟩ := hacc.inv.issued_next (r := r) henabled
            (by rw [hissued]; simp) fun hmem => absurd (hacc.inv.tag_lt hmem) (by omega)
          exact absurd hcmd (hother.1 cmd o)
        | received _ _ _ _ _ _ hissued => rw [hissued, hp.issued]
        | checked _ _ hissued => rw [hissued, hp.issued]
      · rw [hacc.inv.ctrlChildren_same henabled hother.1 hsucceeds, hp.children]

/-- The execution. -/
def pingExecution : InfiniteRun Running.Step where
  state := pingState
  label := pingTurn
  step_at n := by
    refine ⟨pingTurn_ready (accepting_pingState n).1 fun hle => ?_, pingState_succ n⟩
    rw [((accepting_pingState n).2 hle).count]
    exact Nat.zero_lt_one

/-- Nobody starves in it. -/
theorem fair_pingExecution : Fair pingExecution := by
  refine ⟨rfl, pingTurn_succeeds, fun n => ⟨2 * (n + 5), by omega, ?_⟩, fun p n hp m => ?_⟩
  · have hturn : pingTurn (2 * (n + 5)) = .controller none .created := by
      unfold pingTurn
      rw [if_neg (by omega), if_neg (by omega), if_pos (by omega)]
    show (pingTurn (2 * (n + 5))).IsController
    rw [hturn]
    trivial
  · have hzero : p = 0 := by
      have hcount : (pingState n).world.count ≤ 1 := by
        rcases Nat.lt_or_ge n 9 with hlt | hge
        · have hall : ∀ n < 9, (pingState n).world.count ≤ 1 := by decide
          exact hall n hlt
        · exact Nat.le_of_eq ((accepting_pingState n).2 hge).count
      have hp' : p < (pingState n).world.count := hp
      omega
    subst hzero
    have hturn : pingTurn (2 * (m + 5) + 1) = .node 0 .created := by
      unfold pingTurn
      rw [if_neg (by omega), if_neg (by omega), if_neg (by omega)]
    refine ⟨2 * (m + 5) + 1, by omega, ?_⟩
    show (pingTurn (2 * (m + 5) + 1)).IsNode 0
    rw [hturn]
    rfl

/-- Only one id is accepted in it. -/
theorem accepted_pingExecution (n : ℕ) : (pingExecution.state n).world.accepted.Nodup := by
  rcases Nat.lt_or_ge n 9 with hlt | hge
  · have hall : ∀ n < 9, (pingState n).world.accepted.Nodup := by decide
    exact hall n hlt
  · have hp := (accepting_pingState n).2 hge
    show (pingState n).world.accepted.Nodup
    rw [World.accepted, hp.children, hp.issued]
    decide

/-- Nothing expires in it. -/
theorem timely_pingExecution : Timely pingExecution := by
  have hsub : ∀ n, (pingExecution.state n).world.ctrl.pendingMessages ⊆
      (pingExecution.state n).world.issued := by
    intro n
    apply fair_pingExecution.preserves
      (P := fun w => w.ctrl.pendingMessages ⊆ w.issued) (n := 0) _ (Nat.zero_le n)
    · intro w e hw hsub he _
      exact hw.inv.pending_subset he hsub
    · exact List.Subset.refl _
  intro n e he
  cases e with
  | checkPending =>
    intro r hr
    rcases Nat.lt_or_ge n 9 with hlt | hge
    · have hall : ∀ n < 9, (pingState n).world.ctrl.pendingMessages = [] := by decide
      rw [show (pingExecution.state n).world.ctrl.pendingMessages = [] from hall n hlt] at hr
      exact absurd hr List.not_mem_nil
    · have hp := (accepting_pingState n).2 hge
      have hmem := hsub n hr
      rw [show (pingExecution.state n).world.issued = [pingRequest] from hp.issued,
        List.mem_singleton] at hmem
      rw [show (pingExecution.state n).world.clock = 0 from hp.clock, hmem]
      decide
  | _ => trivial

/-- The ping is answered. -/
theorem every_request_is_answered_ping :
    ∃ m, 9 ≤ m ∧ pingRequest ∈ (pingExecution.state m).world.answered.map Prod.fst :=
  every_request_is_answered fair_pingExecution
    (by rw [show (pingExecution.state 9).world.issued = [pingRequest] from by decide]; simp)
    (by decide)

/-- The ping is pending at first, and not for ever. -/
theorem no_request_is_pending_for_ever_ping :
    pingRequest ∈ (pingExecution.state 9).world.ctrl.pendingMessages ∧
      ∃ m, 9 ≤ m ∧ ∀ k, m ≤ k →
        pingRequest ∉ (pingExecution.state k).world.ctrl.pendingMessages :=
  have hpending : pingRequest ∈ (pingExecution.state 9).world.ctrl.pendingMessages := by decide
  ⟨hpending, no_request_is_pending_for_ever fair_pingExecution timely_pingExecution
    accepted_pingExecution hpending (by decide)⟩

end NodeTree
