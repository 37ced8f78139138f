/-
# What the processes did

A step changes the dictionary, the children and the records of a process only if that
process takes a request for itself from its link.  So its dictionary and its children are
those that its records tell.
-/
import OSLabs.NodeTreeRuns
import OSLabs.LastEvent

namespace NodeTree

/-! ## What a step does to one process -/

/-- The process has the same id, dictionary, children and records. -/
structure SameRecord (q q' : Process) : Prop where
  id : q'.node.id = q.node.id
  dictionary : q'.node.dictionary = q.node.dictionary
  children : q'.node.children = q.node.children
  served : q'.served = q.served
  crashed : q'.crashed = q.crashed

/-- The process `v` took a request for itself and replied with `m`. -/
structure Acted (w : World) (e : Event) (v : ℕ) (q' : Process) (r : Request) (m : Message) :
    Prop where
  event : ∃ o, e = .receiveDown v o
  first : ∃ rest, (w.proc v).down = ⟨r.msg, some r⟩ :: rest
  issued : r ∈ w.issued
  target : r.msg.id = (w.proc v).node.id
  served : q'.served = (w.proc v).served ++ [(r, m)]
  crashed : q'.crashed = (w.proc v).crashed
  node : (r.msg.command ≠ .create ∧ q'.node = (w.proc v).node.act r.msg ∧
      m = (w.proc v).node.answer w.clock r.msg) ∨
    (r.msg.command = .create ∧ m = .of w.clock .create r.msg.addData w.count ∧
      q'.node = { (w.proc v).node with
        children := (w.proc v).node.children ++ [⟨r.msg.addData, w.count⟩] })

/-- **What a step can do to the process `v`**, which is `q'` afterwards. -/
inductive Change (w : World) (e : Event) (v : ℕ) (q' : Process) : Prop
  | same (h : SameRecord (w.proc v) q')
  | fresh (hv : v = w.count) (hdictionary : q'.node.dictionary = fun _ => none)
      (hchildren : q'.node.children = []) (hserved : q'.served = []) (hcrashed : q'.crashed = none)
  | acted (r : Request) (m : Message) (h : Acted w e v q' r m)
  | threw (o : Outcome) (he : e = .receiveDown v o) (ho : o ≠ .created)
      (hid : q'.node.id = (w.proc v).node.id)
      (hdictionary : q'.node.dictionary = (w.proc v).node.dictionary)
      (hchildren : q'.node.children = (w.proc v).node.children)
      (hserved : q'.served = (w.proc v).served)

theorem SameRecord.refl (q : Process) : SameRecord q q := ⟨rfl, rfl, rfl, rfl, rfl⟩

theorem SameRecord.trans {q q' q'' : Process} (h : SameRecord q q') (h' : SameRecord q' q'') :
    SameRecord q q'' :=
  ⟨h'.id.trans h.id, h'.dictionary.trans h.dictionary, h'.children.trans h.children,
    h'.served.trans h.served, h'.crashed.trans h.crashed⟩

namespace Inv

variable {w : World} {p : ℕ}

/-- What goes up changes no record. -/
theorem sameRecord_of_onlyUp {w' : World} (h : OnlyUp w w') (v : ℕ) :
    SameRecord (w.proc v) (w'.proc v) := by
  obtain ⟨u, t, hv⟩ := h.proc v
  rw [hv]
  exact ⟨rfl, rfl, rfl, rfl, rfl⟩

/-- A broadcast changes no record. -/
theorem sameRecord_broadcast (h : Inv w) (m : Message) (v : ℕ) :
    SameRecord (w.proc v) ((broadcastMessage w m).proc v) := by
  rw [h.broadcastMessage_eq]
  dsimp only
  split_ifs
  · exact ⟨rfl, rfl, rfl, rfl, rfl⟩
  · exact SameRecord.refl _

/-- A new process starts without records, and the others stay as they are. -/
theorem change_fork (e : Event) (id : ℤ) (path : List ℕ) (v : ℕ) :
    Change w e v ((w.fork id path).proc v) := by
  rw [fork_proc]
  split_ifs with hv
  · exact .fresh hv rfl rfl rfl rfl
  · exact .same (SameRecord.refl _)

theorem change_command (h : Inv w) (cmd : Command) (o : Outcome) (v : ℕ) :
    Change w (.command cmd o) v ((NodeTree.handleCommand w o cmd).proc v) := by
  have hcmd := h.commanded o cmd
  generalize NodeTree.handleCommand w o cmd = w' at hcmd ⊢
  rcases hcmd with line | ⟨m, -, -⟩ | ⟨childId, -, -, -⟩ | ⟨childId, -, -, -⟩ |
    ⟨childId, -, -, -⟩ | time
  · exact .same (SameRecord.refl _)
  · exact .same (h.sameRecord_broadcast m v)
  · exact change_fork _ _ _ v
  · exact .same (SameRecord.refl _)
  · exact change_fork _ _ _ v
  · obtain ⟨d, hd⟩ := h.handleHeartbeatCommand_frame time v
    rw [hd]
    exact .same ⟨rfl, rfl, rfl, rfl, rfl⟩

theorem sameRecord_setNode (f : ComputingNode → ComputingNode)
    (hf : ∀ n, (f n).id = n.id ∧ (f n).dictionary = n.dictionary ∧ (f n).children = n.children)
    (v : ℕ) : SameRecord (w.proc v) ((w.setNode p f).proc v) := by
  unfold World.setNode
  rw [update_proc]
  split_ifs with hv
  · subst hv
    exact ⟨(hf _).1, (hf _).2.1, (hf _).2.2, rfl, rfl⟩
  · exact SameRecord.refl _

theorem sameRecord_forward (h : Inv w) (rest : List Packet) (pkt : Packet) (v : ℕ) :
    SameRecord (w.proc v) ((w.forward p rest pkt).proc v) := by
  obtain ⟨d, hd⟩ := h.forward_frame p rest pkt v
  rw [hd]
  exact ⟨rfl, rfl, rfl, rfl, rfl⟩

theorem change_receiveDown (h : Inv w) (hp : p < w.count) (o : Outcome) (v : ℕ) :
    Change w (.receiveDown p o) v ((NodeTree.receiveDown w p o).proc v) := by
  have hreceived := h.received hp o
  generalize NodeTree.receiveDown w p o = w' at hreceived ⊢
  cases hreceived with
  | nothing => exact .same (SameRecord.refl _)
  | beat pkt rest hdown hnone =>
    have hset := sameRecord_setNode (w := w) (p := p)
      (fun n => { n with heartbeat := pkt.msg.addData }) (fun n => ⟨rfl, rfl, rfl⟩) v
    exact .same (hset.trans ((h.setHeartbeat p _).sameRecord_forward rest pkt v))
  | other r rest hfirst hid => exact .same (h.sameRecord_forward rest _ v)
  | answered r rest hfirst hid hcmd =>
    unfold World.serve World.setNode
    rw [update_update, update_proc]
    split_ifs with hv
    · subst hv
      exact .acted r _ ⟨⟨o, rfl⟩, ⟨rest, hfirst.down⟩, hfirst.issued, hid, rfl, rfl,
        Or.inl ⟨hcmd, rfl, rfl⟩⟩
    · exact .same (SameRecord.refl _)
  | created r rest hfirst hid hcmd =>
    have hproc := attach_proc w p r.msg.addData hp
    unfold World.serve
    rw [update_proc]
    split_ifs with hv
    · subst hv
      have hself := hproc v
      rw [if_pos rfl] at hself
      rw [hself]
      exact .acted r _ ⟨⟨_, rfl⟩, ⟨rest, hfirst.down⟩, hfirst.issued, hid, rfl, rfl,
        Or.inr ⟨hcmd, rfl, rfl⟩⟩
    · rw [hproc, if_neg hv]
      -- a process that was not there before starts without a record
      split_ifs with hvc
      · exact .fresh hvc rfl rfl rfl rfl
      · exact .same (SameRecord.refl _)
  | notForked r rest hfirst hid hcmd ho =>
    unfold World.crash
    rw [update_proc]
    split_ifs with hv
    · subst hv
      exact .threw o rfl (by rw [ho]; decide) rfl rfl rfl rfl
    · exact .same (SameRecord.refl _)
  | notBound r rest hfirst hid hcmd ho =>
    unfold World.crash
    rw [update_proc]
    split_ifs with hv
    · subst hv
      rw [fork_proc_of_lt w _ _ hp]
      exact .threw o rfl (by rw [ho]; decide) rfl rfl rfl rfl
    · exact change_fork _ _ _ v

/-- **Every step changes each process in one of the four ways.** -/
theorem change_next (h : Inv w) {e : Event} (he : e.Enabled w) (v : ℕ) :
    Change w e v ((w.next e).proc v) := by
  cases e with
  | tick now => exact .same (SameRecord.refl _)
  | command cmd o => exact h.change_command cmd o v
  | receiveUp p => exact .same (sameRecord_of_onlyUp (receiveUp_onlyUp w p) v)
  | checkPending => exact .same (SameRecord.refl _)
  | checkBeats => exact .same (SameRecord.refl _)
  | receiveDown p o => exact h.change_receiveDown he.1 o v
  | relayUp p c => exact .same (sameRecord_of_onlyUp (relayUp_onlyUp w p c) v)
  | sendBeat p => exact .same (sameRecord_of_onlyUp (sendBeat_onlyUp w p) v)

end Inv

/-! ## The records tell the dictionary and the children -/

/-- The request writes the value of the key in the dictionary of the node `t`. -/
def Request.writes (t : ℤ) (key : List UInt8) (r : Request) : Bool :=
  r.msg.command = .execAdd ∧ r.msg.id = t ∧ r.msg.val = key

/-- The value of the last `ExecAdd` for the key of the node. -/
def lastAdd (t : ℤ) (key : List UInt8) (log : List Request) : Option ℤ :=
  lastWrite (Request.writes t key) (fun r => r.msg.addData) log

/-- The reply to the lookup of a key that has the given value. -/
def IsLookup (t : ℤ) (key : List UInt8) (value : Option ℤ) (m : Message) : Prop :=
  match value with
  | some x => m.command = .execFnd ∧ m.id = t ∧ m.val = key ∧ m.addData = x
  | none => m.command = .execErr ∧ m.id = t ∧ m.val = key

/-- **The dictionary, the children and the replies of a process are those of its records.** -/
structure Faithful (q : Process) : Prop where
  dictionary : ∀ key, q.node.dictionary key = lastAdd q.node.id key (q.served.map Prod.fst)
  children : q.node.children.map Node.id =
    ((q.served.map Prod.fst).filter fun r => r.msg.command = .create).map fun r => r.msg.addData
  lookups : ∀ a x b, q.served = a ++ x :: b → x.1.msg.command = .execFnd →
    IsLookup q.node.id x.1.msg.val (lastAdd q.node.id x.1.msg.val (a.map Prod.fst)) x.2

namespace Faithful

variable {w : World} {e : Event} {v : ℕ} {q q' : Process} {r : Request} {m : Message}

theorem congr (h : Faithful q) (hid : q'.node.id = q.node.id)
    (hdictionary : q'.node.dictionary = q.node.dictionary)
    (hchildren : q'.node.children = q.node.children) (hserved : q'.served = q.served) :
    Faithful q' := by
  constructor
  · rw [hid, hdictionary, hserved]
    exact h.dictionary
  · rw [hchildren, hserved]
    exact h.children
  · rw [hid, hserved]
    exact h.lookups

/-- The dictionary after a request holds the last values. -/
theorem dictionary_act (h : Faithful q) (hid : r.msg.id = q.node.id) (key : List UInt8) :
    (q.node.act r.msg).dictionary key =
      lastAdd q.node.id key (q.served.map Prod.fst ++ [r]) := by
  unfold ComputingNode.act lastAdd
  have hold := h.dictionary key
  by_cases hadd : r.msg.command = .execAdd
  · rw [hadd]
    dsimp only
    by_cases hkey : r.msg.val = key
    · rw [lastWrite.append_of_pos (by simp [Request.writes, hadd, hid, hkey]), hkey,
        Function.update_self]
    · rw [lastWrite.append_of_neg (by simp [Request.writes, hkey]),
        Function.update_of_ne (Ne.symm hkey)]
      exact hold
  · rw [lastWrite.append_of_neg (by simp [Request.writes, hadd])]
    split
    · next h => exact absurd h hadd
    · exact hold

/-- The answer to a lookup is what the dictionary holds. -/
theorem isLookup_answer (n : ComputingNode) (now : ℤ) (hcmd : m.command = .execFnd)
    (hval : truncate m.val = m.val) :
    IsLookup n.id m.val (n.dictionary m.val) (n.answer now m) := by
  unfold ComputingNode.answer
  rw [hcmd]
  cases hx : n.dictionary m.val with
  | none => exact ⟨rfl, rfl, hval⟩
  | some x => exact ⟨rfl, rfl, hval, rfl⟩

/-- An entry of a log with one more entry is an old one or the new one. -/
theorem split_concat {α : Type*} {l a b : List α} {x y : α} (h : l ++ [y] = a ++ x :: b) :
    (∃ b', l = a ++ x :: b') ∨ (a = l ∧ x = y) := by
  rcases List.eq_nil_or_concat b with rfl | ⟨b', z, rfl⟩
  · obtain ⟨rfl, heq⟩ := List.append_inj' h rfl
    exact Or.inr ⟨rfl, (List.cons.inj heq).1.symm⟩
  · refine Or.inl ⟨b', ?_⟩
    rw [List.concat_eq_append, ← List.cons_append, ← List.append_assoc] at h
    exact (List.append_inj' h rfl).1

/-- **Acting** on a request keeps the records true. -/
theorem acted (h : Inv w) (hf : Faithful (w.proc v)) (ha : Acted w e v q' r m) : Faithful q' := by
  have hserved := ha.served
  have hval := (h.packets.request r ha.issued).val
  -- the lookups before this one are as they were, the new one sees the dictionary of now
  have hold : ∀ t, t = (w.proc v).node.id → ∀ a x b, (w.proc v).served ++ [(r, m)] = a ++ x :: b →
      (r.msg.command = .execFnd → m = (w.proc v).node.answer w.clock r.msg) →
      x.1.msg.command = .execFnd →
      IsLookup t x.1.msg.val (lastAdd t x.1.msg.val (a.map Prod.fst)) x.2 := by
    rintro t rfl a x b hsplit hm hcmd
    rcases split_concat hsplit with ⟨b', hb'⟩ | ⟨rfl, rfl⟩
    · exact hf.lookups a x b' hb' hcmd
    · rw [← hf.dictionary, hm hcmd]
      exact isLookup_answer _ _ hcmd hval
  rcases ha.node with ⟨hcmd, hnode, hm⟩ | ⟨hcmd, hm, hnode⟩
  · have hkeeps := Inv.act_keeps (w.proc v).node r.msg
    constructor
    · intro key
      rw [hserved, hnode, hkeeps.1, List.map_append]
      exact hf.dictionary_act ha.target key
    · rw [hserved, hnode, hkeeps.2, List.map_append, List.filter_append, List.map_append,
        hf.children]
      simp [hcmd]
    · rw [hserved, hnode, hkeeps.1]
      exact fun a x b hsplit => hold _ rfl a x b hsplit fun _ => hm
  · -- a create leaves the dictionary alone
    constructor
    · intro key
      rw [hserved, hnode, List.map_append]
      show (w.proc v).node.dictionary key = _
      rw [hf.dictionary key]
      unfold lastAdd
      rw [List.map_singleton, lastWrite.append_of_neg (by simp [Request.writes, hcmd])]
    · rw [hserved, hnode]
      show ((w.proc v).node.children ++ [_]).map Node.id = _
      rw [List.map_append, hf.children, List.map_append, List.filter_append, List.map_append]
      simp [hcmd]
    · rw [hserved, hnode]
      refine fun a x b hsplit => hold _ rfl a x b hsplit fun hfnd => ?_
      rw [hcmd] at hfnd
      exact absurd hfnd (by decide)

/-- Whatever a step does to a process keeps its records true. -/
theorem change (h : Inv w) (hf : Faithful (w.proc v)) (hc : Change w e v q') : Faithful q' := by
  cases hc with
  | same hs => exact hf.congr hs.id hs.dictionary hs.children hs.served
  | fresh _ hdictionary hchildren hserved _ =>
    refine ⟨fun key => ?_, ?_, fun a x b hsplit => ?_⟩
    · rw [hdictionary, hserved]
      rfl
    · rw [hchildren, hserved]
      rfl
    · rw [hserved] at hsplit
      exact absurd hsplit.symm (by simp)
  | acted r m ha => exact acted h hf ha
  | threw o _ _ hid hdictionary hchildren hserved =>
    exact hf.congr hid hdictionary hchildren hserved

end Faithful

/-! ## Runs -/

/-- The events can happen one after the other, and each satisfies `P`. -/
def Possible (P : World → Event → Prop) : World → List Event → Prop
  | _, [] => True
  | w, e :: es => (e.Enabled w ∧ P w e) ∧ Possible P (w.next e) es

instance decidablePossible (P : World → Event → Prop) [∀ w e, Decidable (P w e)] :
    (w : World) → (es : List Event) → Decidable (Possible P w es)
  | _, [] => inferInstanceAs (Decidable True)
  | w, e :: es =>
    have := decidablePossible P (w.next e) es
    inferInstanceAs (Decidable ((e.Enabled w ∧ P w e) ∧ Possible P (w.next e) es))

section Runs

variable {w : World} {es : List Event} {P : World → Event → Prop}

/-- Possible events make a run. -/
theorem Possible.run (h : Possible P w es) :
    Run (fun w e w' => Step w e w' ∧ P w e) w es (es.foldl World.next w) := by
  induction es generalizing w with
  | nil => exact .nil w
  | cons e es ih => exact .cons ⟨⟨h.1.1, rfl⟩, h.1.2⟩ (ih h.2)

theorem Possible.stepRun (h : Possible P w es) : Run Step w es (es.foldl World.next w) :=
  h.run.mono fun _ _ _ hstep => hstep.1

/-- **Every run keeps the invariant and true records.** -/
theorem run_invariant (h : Run Step initial es w) : Inv w ∧ ∀ v, Faithful (w.proc v) := by
  refine h.preserves (I := fun w => Inv w ∧ ∀ v, Faithful (w.proc v)) ?_ ⟨Inv.initial, fun v => ?_⟩
  · rintro w e w' ⟨hinv, hf⟩ ⟨he, rfl⟩
    exact ⟨hinv.next he, fun v => Faithful.change hinv (hf v) (hinv.change_next he v)⟩
  · exact ⟨fun key => rfl, rfl, fun a x b hsplit => absurd hsplit.symm (by simp [initial])⟩

end Runs

end NodeTree
