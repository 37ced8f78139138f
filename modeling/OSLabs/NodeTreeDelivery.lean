/-
# Every request is acted on once

When `create_process` succeeds, a request is acted on by the process it names, once, and
answered once; every other copy of it is only sent on.
-/
import OSLabs.NodeTreeDictionary

namespace NodeTree

/-! ## Runs in which every process starts -/

/-- `create_process` succeeds, if it is called. -/
def Event.Succeeds : Event → Prop
  | .command _ o => o = .created
  | .receiveDown _ o => o = .created
  | _ => True

instance decidableSucceeds : (e : Event) → Decidable e.Succeeds
  | .command _ o => inferInstanceAs (Decidable (o = .created))
  | .receiveDown _ o => inferInstanceAs (Decidable (o = .created))
  | .tick _ | .receiveUp _ | .checkPending | .checkBeats | .relayUp _ _ | .sendBeat _ =>
    inferInstanceAs (Decidable True)

/-- A step in which `create_process` succeeds, if it is called. -/
def SuccessStep (w : World) (e : Event) (w' : World) : Prop := Step w e w' ∧ e.Succeeds

/-- No process throws in such a run. -/
theorem crashed_eq_none_of_success {w : World} {es : List Event}
    (h : Run SuccessStep initial es w) (v : ℕ) : (w.proc v).crashed = none := by
  have hall := h.preserves (I := fun w => Inv w ∧ ∀ v, (w.proc v).crashed = none) ?_
    ⟨Inv.initial, fun v => rfl⟩
  · exact hall.2 v
  · rintro w e w' ⟨hinv, hnone⟩ ⟨⟨he, rfl⟩, hsucceeds⟩
    refine ⟨hinv.next he, fun v => ?_⟩
    cases hinv.change_next he v with
    | same hs => rw [hs.crashed, hnone]
    | fresh _ _ _ _ hcrashed => exact hcrashed
    | acted r m ha => rw [ha.crashed, hnone]
    | threw o hevent ho =>
      subst hevent
      exact absurd hsucceeds ho

/-! ## One request -/

/-- A copy of the request, or a reply to it, is in some link. -/
def InFlight (w : World) (r : Request) : Prop :=
  ∃ q, ∃ pkt ∈ (w.proc q).down ++ (w.proc q).up, pkt.req = some r

/-- The process `v` is the one that the request is for, and acts on it and answers it once. -/
structure RoutedOnce (w : World) (r : Request) (v : ℕ) : Prop where
  target : (w.proc v).node.id = r.msg.id
  onlyThere : ∀ u, u ≠ v → r ∉ (w.proc u).served.map Prod.fst
  atMostOnce : ((w.proc v).served.map Prod.fst).count r ≤ 1
  answeredAtMostOnce : (w.answered.map Prod.fst).count r ≤ 1
  settled : ¬ InFlight w r →
    ((w.proc v).served.map Prod.fst).count r = 1 ∧ (w.answered.map Prod.fst).count r = 1

/-- Replies to a request are among the replies of its target. -/
theorem count_answered (w : World) (r : Request) :
    (w.answered.map Prod.fst).count r = ((w.answeredBy r.msg.id).map Prod.fst).count r := by
  have hfilter : (w.answeredBy r.msg.id).map Prod.fst =
      (w.answered.map Prod.fst).filter fun q => q.msg.id = r.msg.id := by
    unfold World.answeredBy
    rw [List.filter_map]
    rfl
  rw [hfilter, List.count_filter]
  exact decide_eq_true rfl

section Once

variable {w : World} {v : ℕ} {r : Request}

/-- Without a copy or a reply in flight, nothing about the request is under way. -/
theorem notMem_inFlight (hflight : ¬ InFlight w r) (path : List ℕ) (t : ℤ) :
    r ∉ inFlight path (fun q => (w.proc q).requests t) ∧
      ∀ m, (r, m) ∉ inFlight path fun q => (w.proc q).replies t := by
  constructor
  · intro hmem
    obtain ⟨q, -, hq⟩ := inFlight.mem_iff.mp hmem
    obtain ⟨pkt, hpkt, hreq, -⟩ := Process.mem_requests.mp hq
    exact hflight ⟨q, pkt, List.mem_append_left _ hpkt, hreq⟩
  · intro m hmem
    obtain ⟨q, -, hq⟩ := inFlight.mem_iff.mp hmem
    exact hflight ⟨q, _, List.mem_append_right _ (Process.mem_replies.mp hq).1, rfl⟩

/-- **Exactly once**: of a request for a process of the tree. -/
theorem Inv.routedOnce (h : Inv w) (hnd : w.ids.Nodup) (hcrashed : ∀ v, (w.proc v).crashed = none)
    (hr : r ∈ w.issued) (hv : (w.proc v).path ≠ []) (hid : (w.proc v).node.id = r.msg.id) :
    RoutedOnce w r v := by
  have hf := h.fifo hnd v hv
  have hnodup : ((w.proc v).served.map Prod.fst).Nodup :=
    (h.packets.issued_nodup.filter _).sublist hf.served_prefix_issued.sublist
  have hanswered : (w.answeredBy r.msg.id).map Prod.fst <+: (w.proc v).served.map Prod.fst :=
    hid ▸ hf.answered_prefix_served.map Prod.fst
  have honce := List.nodup_iff_count_le_one.mp hnodup r
  have hanswered_le : (w.answered.map Prod.fst).count r ≤ 1 := by
    rw [count_answered]
    exact (hanswered.sublist.count_le r).trans honce
  refine ⟨hid, fun u hu hmem => hu ?_, honce, hanswered_le, fun hflight => ?_⟩
  · obtain ⟨x, hx, rfl⟩ := List.mem_map.mp hmem
    have hupath : (w.proc u).path ≠ [] := fun hnil => by
      rw [(h.packets.idle u hnil).2.1] at hx
      exact absurd hx List.not_mem_nil
    have htarget := (h.packets.served u x hx).target
    exact ids_inj hnd (h.path_lt hupath) (h.path_lt hv) (htarget.symm.trans hid.symm)
  · obtain ⟨hdown, hup⟩ := notMem_inFlight hflight (w.proc v).path (w.proc v).node.id
    -- The request was broadcast, and neither the process threw at it nor is it under way.
    have hserved : r ∈ (w.proc v).served.map Prod.fst := by
      have hmem : r ∈ w.issuedTo (w.proc v).node.id :=
        List.mem_filter.mpr ⟨hr, decide_eq_true hid.symm⟩
      rw [hf.requests, hcrashed v] at hmem
      rcases List.mem_append.mp hmem with hmem | hmem
      · simpa using hmem
      · have hrev := (notMem_inFlight hflight (w.proc v).path.reverse (w.proc v).node.id).1
        exact absurd hmem hrev
    have hreply : r ∈ (w.answeredBy r.msg.id).map Prod.fst := by
      obtain ⟨⟨r', m⟩, hx, rfl⟩ := List.mem_map.mp hserved
      rw [hf.replies] at hx
      rcases List.mem_append.mp hx with hx | hx
      · exact hid ▸ List.mem_map_of_mem hx
      · exact absurd hx (hup m)
    have hpos := List.count_pos_iff.mpr hserved
    have hpos' := List.count_pos_iff.mpr hreply
    rw [← count_answered] at hpos'
    exact ⟨by omega, by omega⟩

end Once

/-! ## One copy -/

/-- The step of the process `p` with the copy `pkt` of a request: the process that the request
names acts on it and replies, and no other process changes; every other process only sends
the copy on. -/
structure HandledAsRouted (w : World) (p : ℕ) (r : Request) (w' : World) : Prop where
  other : r.msg.id ≠ (w.proc p).node.id → ∀ q, w'.proc q =
    if q ∈ pids (w.proc p).node.children then
      { w.proc q with down := (w.proc q).down ++ [⟨r.msg, some r⟩] }
    else if q = p then { w.proc p with down := (w.proc p).down.tail } else w.proc q
  self : r.msg.id = (w.proc p).node.id →
    (∃ m, (w'.proc p).served = (w.proc p).served ++ [(r, m)] ∧
      (w'.proc p).up = (w.proc p).up ++ [⟨m, some r⟩]) ∧
    ∀ q < w.count, q ≠ p → w'.proc q = w.proc q

theorem Inv.handledAsRouted {w : World} {p : ℕ} {r : Request} {m : Message} {rest : List Packet}
    (h : Inv w) (hp : p < w.count) (hdown : (w.proc p).down = ⟨m, some r⟩ :: rest) :
    HandledAsRouted w p r (w.next (.receiveDown p .created)) := by
  have hmem : ⟨m, some r⟩ ∈ (w.proc p).down := by rw [hdown]; exact List.mem_cons_self
  obtain ⟨hr, rfl⟩ := h.mem_issued hmem
  have hreq := h.packets.request r hr
  constructor
  · intro hne q
    show (NodeTree.receiveDown w p .created).proc q = _
    rw [receiveDown_other hdown hreq hne, h.forward_eq, hdown]
    rfl
  · intro hid
    show (∃ m, ((NodeTree.receiveDown w p .created).proc p).served = _ ∧
      ((NodeTree.receiveDown w p .created).proc p).up = _) ∧
        ∀ q < w.count, q ≠ p → (NodeTree.receiveDown w p .created).proc q = _
    by_cases hcmd : r.msg.command = .create
    · rw [receiveDown_create hp hdown hid hcmd]
      have hproc := attach_proc w p r.msg.addData hp
      have hself := hproc p
      rw [if_pos rfl] at hself
      refine ⟨⟨.of w.clock .create r.msg.addData w.count, ?_, ?_⟩, fun q hq hqp => ?_⟩
      · dsimp only
        rw [World.serve, update_proc_self, hself]
      · dsimp only
        rw [World.serve, update_proc_self, hself]
      · dsimp only
        rw [World.serve, update_proc_of_ne _ _ _ _ hqp, hproc, if_neg hqp,
          if_neg (Nat.ne_of_lt hq)]
    · rw [receiveDown_self hdown hreq hid hcmd]
      refine ⟨⟨(w.proc p).node.answer w.clock r.msg, ?_, ?_⟩, fun q _ hqp => ?_⟩
      · rw [World.serve, update_proc_self, World.setNode, update_proc_self]
      · rw [World.serve, update_proc_self, World.setNode, update_proc_self]
      · rw [World.serve, update_proc_of_ne _ _ _ _ hqp, World.setNode,
          update_proc_of_ne _ _ _ _ hqp]

/-- **Exactly-once routing.**  In every run over processes with distinct ids in which
`create_process` succeeds, each request for a process of the tree is acted on by that process
only and at most once, and answered at most once; both exactly once when no copy of it and no
reply to it is in flight.  The dictionary and the children of a process are those of the
requests that it acted on, and a process that a copy is not for only sends it on. -/
theorem requests_are_routed_exactly_once {es : List Event} {w : World}
    (h : Run SuccessStep initial es w) (hdistinct : w.ids.Nodup) :
    (∀ r ∈ w.issued, r.msg.id ≠ -1 → ∃ v < w.count, RoutedOnce w r v) ∧
    (∀ v, Faithful (w.proc v)) ∧
    ∀ p rest m r, p < w.count → (w.proc p).down = ⟨m, some r⟩ :: rest →
      HandledAsRouted w p r (w.next (.receiveDown p .created)) := by
  obtain ⟨hinv, hf⟩ := run_invariant (h.mono fun _ _ _ hstep => hstep.1)
  refine ⟨fun r hr hroot => ?_, hf, fun p rest m r hp hdown => hinv.handledAsRouted hp hdown⟩
  obtain ⟨v, hv, hid⟩ := (hinv.packets.request r hr).target.resolve_left hroot
  exact ⟨v, hinv.path_lt hv,
    hinv.routedOnce hdistinct (crashed_eq_none_of_success h) hr hv hid⟩

theorem requests_are_routed_exactly_once_two_nodes :
    let w := twoNodesLookup.foldl World.next initial
    w.issued.length = 5 ∧
    (∀ r ∈ w.issued, r.msg.id ≠ -1 → ∃ v < w.count, RoutedOnce w r v) ∧
    (∀ v, Faithful (w.proc v)) ∧
    ∀ p rest m r, p < w.count → (w.proc p).down = ⟨m, some r⟩ :: rest →
      HandledAsRouted w p r (w.next (.receiveDown p .created)) :=
  have hrun : Possible (fun _ e => e.Succeeds) initial twoNodesLookup := by decide
  ⟨by decide, requests_are_routed_exactly_once hrun.run (by decide)⟩

end NodeTree
