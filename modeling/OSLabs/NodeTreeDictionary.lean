/-
# One dictionary per node

The replies to the lookups are those of one map per node that is written and read in the
order of the commands, however the messages of different nodes overtake each other.
-/
import OSLabs.NodeTreeRecords

namespace NodeTree

section Order

variable {w : World} {v : ℕ}

/-- The processed replies of a node are its first replies. -/
theorem Fifo.answered_prefix_served (h : Fifo w v) :
    w.answeredBy (w.proc v).node.id <+: (w.proc v).served := by
  rw [h.replies]
  exact List.prefix_append _ _

/-- A node acts on its requests in the order of the broadcasts. -/
theorem Fifo.served_prefix_issued (h : Fifo w v) :
    (w.proc v).served.map Prod.fst <+: w.issuedTo (w.proc v).node.id := by
  rw [h.requests, List.append_assoc]
  exact List.prefix_append _ _

/-- A processed reply came from the process that its request names. -/
theorem Inv.answered_served (h : Inv w) {x : Request × Message} (hx : x ∈ w.answered) :
    ∃ v, (w.proc v).path ≠ [] ∧ x.1.msg.id = (w.proc v).node.id ∧ x ∈ (w.proc v).served := by
  obtain ⟨v, hv⟩ := h.packets.answered x hx
  refine ⟨v, fun hnil => ?_, (h.packets.served v x hv).target, hv⟩
  rw [(h.packets.idle v hnil).2.1] at hv
  exact absurd hv List.not_mem_nil

/-- Replies for one target are processed in the order of its requests. -/
theorem Inv.answeredBy_prefix_issuedTo (h : Inv w) (hnd : w.ids.Nodup) (t : ℤ) :
    (w.answeredBy t).map Prod.fst <+: w.issuedTo t := by
  by_cases hnone : w.answeredBy t = []
  · rw [hnone]
    exact List.nil_prefix
  · obtain ⟨x, hx⟩ := List.exists_mem_of_ne_nil _ hnone
    obtain ⟨hmem, ht⟩ := List.mem_filter.mp hx
    obtain ⟨v, hv, hid, -⟩ := h.answered_served hmem
    obtain rfl : (w.proc v).node.id = t := hid.symm.trans (of_decide_eq_true ht)
    have hf := h.fifo hnd v hv
    exact (hf.answered_prefix_served.map Prod.fst).trans hf.served_prefix_issued

/-- The reply to a lookup tells the last value that was added before it. -/
theorem Inv.lookup_answered (h : Inv w) (hf : ∀ v, Faithful (w.proc v)) (hnd : w.ids.Nodup)
    {x : Request × Message} (hx : x ∈ w.answered) (hcmd : x.1.msg.command = .execFnd) :
    ∃ pre post, w.issued = pre ++ x.1 :: post ∧
      IsLookup x.1.msg.id x.1.msg.val (lastAdd x.1.msg.id x.1.msg.val pre) x.2 := by
  obtain ⟨v, hv, hid, hserved⟩ := h.answered_served hx
  obtain ⟨a, b, hsplit⟩ := List.append_of_mem hserved
  have hlookup := (hf v).lookups a x b hsplit hcmd
  obtain ⟨c, hc⟩ := (h.fifo hnd v hv).served_prefix_issued
  rw [hsplit, List.map_append, List.map_cons, List.append_assoc, List.cons_append] at hc
  obtain ⟨pre, post, hissued, hpre⟩ := exists_split_of_filter hc.symm
  refine ⟨pre, post, hissued, ?_⟩
  rw [hid]
  -- Requests for other nodes do not write in this dictionary.
  have hlast : lastAdd (w.proc v).node.id x.1.msg.val (a.map Prod.fst) =
      lastAdd (w.proc v).node.id x.1.msg.val pre := by
    rw [← hpre]
    apply lastWrite.filter_eq
    intro r hr
    simp only [Request.writes, decide_eq_true_eq] at hr ⊢
    exact hr.2.1
  rwa [hlast] at hlookup

end Order

/-- **The tree is one map per node.**  In every run over processes with distinct ids, the
replies for a target are processed in the order in which its requests were broadcast, and
the reply to a lookup carries the value of the last `ExecAdd` for the same node and key that
was broadcast before it, or says that there is none. -/
theorem dictionary_is_one_map_per_node {es : List Event} {w : World} (h : Run Step initial es w)
    (hdistinct : w.ids.Nodup) :
    (∀ t, (w.answeredBy t).map Prod.fst <+: w.issuedTo t) ∧
    ∀ x ∈ w.answered, x.1.msg.command = .execFnd → ∃ pre post, w.issued = pre ++ x.1 :: post ∧
      IsLookup x.1.msg.id x.1.msg.val (lastAdd x.1.msg.id x.1.msg.val pre) x.2 := by
  obtain ⟨hinv, hf⟩ := run_invariant h
  exact ⟨hinv.answeredBy_prefix_issuedTo hdistinct,
    fun x hx hcmd => hinv.lookup_answered hf hdistinct hx hcmd⟩

/-- Node 1 below the controller and node 2 below node 1; two adds and a lookup on each. -/
def twoNodesLookup : List Event :=
  [.command (.create 1 (-1)) .created, .command (.create 2 1) .created,
    .receiveDown 0 .created, .receiveUp 0,
    .command (.exec 2 [97] (some 5)) .created, .command (.exec 1 [97] (some 7)) .created,
    .command (.exec 2 [97] none) .created, .command (.exec 1 [98] none) .created,
    .receiveDown 0 .created, .receiveDown 0 .created, .receiveUp 0, .receiveDown 0 .created,
    .receiveDown 0 .created, .receiveDown 1 .created, .receiveDown 1 .created, .relayUp 0 1,
    .receiveUp 0, .relayUp 0 1, .receiveUp 0, .receiveUp 0]

theorem dictionary_is_one_map_per_node_two_nodes :
    let w := twoNodesLookup.foldl World.next initial
    w.answered.length = 5 ∧
    (∀ t, (w.answeredBy t).map Prod.fst <+: w.issuedTo t) ∧
    ∀ x ∈ w.answered, x.1.msg.command = .execFnd → ∃ pre post, w.issued = pre ++ x.1 :: post ∧
      IsLookup x.1.msg.id x.1.msg.val (lastAdd x.1.msg.id x.1.msg.val pre) x.2 :=
  have hrun : Possible (fun _ _ => True) initial twoNodesLookup := by decide
  ⟨by decide, dictionary_is_one_map_per_node hrun.stepRun (by decide)⟩

end NodeTree
