/-
# The handles of a node

`Node` and `create_node` of `Labs/Lab5/src/nodes.cpp` and `include/nodes.h`: a `Node` object owns a
context and a socket of the message library.  The calls of the library may succeed or fail; the
logs record which handles were given back, in order.
-/
import OSLabs.LabelledRuns
import OSLabs.OneOwner

namespace NodeHandles

/-! ## `Node` -/

/-- `Node`.  Contexts and sockets are numbered as the library makes them. -/
structure Node where
  id : ℤ := -1
  pid : ℤ := -1
  context : Option ℕ := none
  socket : Option ℕ := none
  address : String := ""
  deriving DecidableEq, Repr

/-- Which calls of the library succeed: `zmq_ctx_new`, `zmq_socket`, and `zmq_connect` or
`zmq_bind`. -/
structure Calls where
  ctxNew : Bool
  socket : Bool
  attach : Bool
  deriving DecidableEq, Repr

/-- What the library made, what was given back, and the `Node` objects. -/
structure Heap where
  contexts : ℕ := 0
  sockets : ℕ := 0
  destroyed : List ℕ := []
  closed : List ℕ := []
  node : ℕ → Option Node := fun _ => none

namespace Heap

variable (h : Heap)

/-- `zmq_ctx_new`. -/
def zmqCtxNew : ℕ × Heap := (h.contexts, { h with contexts := h.contexts + 1 })

/-- `zmq_socket`. -/
def zmqSocket : ℕ × Heap := (h.sockets, { h with sockets := h.sockets + 1 })

/-- `zmq_ctx_destroy`. -/
def zmqCtxDestroy (context : ℕ) : Heap := { h with destroyed := h.destroyed ++ [context] }

/-- `zmq_close`. -/
def zmqClose (socket : ℕ) : Heap := { h with closed := h.closed ++ [socket] }

/-- `~Node`. -/
def destruct (n : Node) : Heap :=
  let h := match n.socket with
    | some socket => h.zmqClose socket
    | none => h
  match n.context with
  | some context => h.zmqCtxDestroy context
  | none => h

/-- `create_node`: the new node, or the text of the exception, which destroys the local object. -/
def createNode (id pid : ℤ) (isChild : Bool) (calls : Calls) : Heap × Except String Node :=
  let node : Node := { id := id, pid := pid }
  if !calls.ctxNew then (h.destruct node, .error "Failed to create ZMQ context")
  else
    let (context, h) := h.zmqCtxNew
    let node := { node with context := some context }
    if !calls.socket then
      let h := h.zmqCtxDestroy context
      (h.destruct node, .error "Failed to create ZMQ socket")
    else
      let (socket, h) := h.zmqSocket
      let node := { node with socket := some socket, address := s!"tcp://127.0.0.1:{5555 + id}" }
      if !calls.attach then
        (h.destruct node,
          .error ("Failed to " ++ (if isChild then "connect" else "bind") ++ " ZMQ socket"))
      else (h, .ok node)

/-- A move takes the handles and the address of the other object. -/
def moveFrom (o : ℕ) (other : Node) : Heap :=
  { h with
    node := Function.update h.node o (some { other with context := none, socket := none, address := "" }) }

/-- The move constructor: the new object `this` from `o`. -/
def moveConstruct (this o : ℕ) : Heap :=
  match h.node o with
  | none => h
  | some other =>
    let h := h.moveFrom o other
    { h with node := Function.update h.node this (some other) }

/-- The move assignment of the object `o` to `this`. -/
def moveAssign (this o : ℕ) : Heap :=
  if this = o then h
  else
    match h.node this, h.node o with
    | some n, some other =>
      let h := h.destruct n
      let h := h.moveFrom o other
      { h with node := Function.update h.node this (some other) }
    | _, _ => h

/-- The object `o` is destroyed. -/
def destroy (o : ℕ) : Heap :=
  match h.node o with
  | none => h
  | some n => { h.destruct n with node := Function.update h.node o none }

/-- `create_node`, with the object `o` for its result. -/
def create (o : ℕ) (id pid : ℤ) (isChild : Bool) (calls : Calls) : Heap :=
  match h.createNode id pid isChild calls with
  | (h, .ok node) => { h with node := Function.update h.node o (some node) }
  | (h, .error _) => h

end Heap

/-! ## Steps -/

/-- What happens to the `Node` objects. -/
inductive Event where
  | create (o : ℕ) (id pid : ℤ) (isChild : Bool) (calls : Calls)
  | moveConstruct (this o : ℕ)
  | moveAssign (this o : ℕ)
  | destroy (o : ℕ)
  deriving DecidableEq, Repr

/-- New objects are where none is, and the others are there. -/
def Event.Enabled (h : Heap) : Event → Prop
  | .create o _ _ _ _ => h.node o = none
  | .moveConstruct this o => h.node this = none ∧ h.node o ≠ none
  | .moveAssign this o => h.node this ≠ none ∧ h.node o ≠ none
  | .destroy o => h.node o ≠ none

/-- The heap after a step. -/
def Heap.next (h : Heap) : Event → Heap
  | .create o id pid isChild calls => h.create o id pid isChild calls
  | .moveConstruct this o => h.moveConstruct this o
  | .moveAssign this o => h.moveAssign this o
  | .destroy o => h.destroy o

/-- A step on the `Node` objects. -/
def Step (h : Heap) (e : Event) (h' : Heap) : Prop := e.Enabled h ∧ h' = h.next e

/-- The event is a `create_node` that throws. -/
def Event.Throws : Event → Prop
  | .create _ _ _ _ calls => ¬ (calls.ctxNew ∧ calls.socket ∧ calls.attach)
  | _ => False

/-- The event is a `create_node` that gets a context and no socket. -/
def Event.SocketFails : Event → Prop
  | .create _ _ _ _ calls => calls.ctxNew ∧ ¬ calls.socket
  | _ => False

/-! ## The two kinds of handles -/

/-- The kinds of handles. -/
inductive Kind where
  | context
  | socket
  deriving DecidableEq, Repr

/-- The handle of a kind that a node holds. -/
def Node.handle (n : Node) : Kind → Option ℕ
  | .context => n.context
  | .socket => n.socket

/-- The handles of a kind, and the objects that hold them. -/
def Heap.ledger (h : Heap) : Kind → OneOwner ℕ
  | .context => ⟨h.contexts, h.destroyed, fun o => (h.node o).bind (·.handle .context)⟩
  | .socket => ⟨h.sockets, h.closed, fun o => (h.node o).bind (·.handle .socket)⟩

/-- **Every handle is released exactly once** along the events: none twice, all of them when no
object is left, and those of a `create_node` that throws before it is left. -/
structure ExactlyOnce (es : List Event) (h : Heap) : Prop where
  once : ∀ k, (h.ledger k).released.Nodup
  all : (∀ o, h.node o = none) → ∀ k, ∀ c < (h.ledger k).made, c ∈ (h.ledger k).released
  thrown : ∀ before e rest h₁ h₂, es = before ++ e :: rest → Run Step {} before h₁ → Step h₁ e h₂ →
    e.Throws → ∀ k c, (h₁.ledger k).made ≤ c → c < (h₂.ledger k).made → c ∈ (h₂.ledger k).released

section Ledger

variable {h h' : Heap} {k : Kind} {n other : Node} {o this : ℕ} {e : Event}

theorem held_ledger (h : Heap) (k : Kind) : (h.ledger k).held = fun o => (h.node o).bind (·.handle k) := by
  cases k <;> rfl

/-- The library's handles stay, and one object changes. -/
theorem ledger_update (h : Heap) (k : Kind) (o : ℕ) (m : Option Node) :
    ({ h with node := Function.update h.node o m }).ledger k =
      { h.ledger k with held := Function.update (h.ledger k).held o (m.bind (·.handle k)) } := by
  have hheld : ∀ k : Kind, (fun p => (Function.update h.node o m p).bind (·.handle k)) =
      Function.update (fun p => (h.node p).bind (·.handle k)) o (m.bind (·.handle k)) := by
    intro k
    funext p
    exact Function.apply_update (fun _ m => Option.bind m (·.handle k)) h.node o m p
  cases k with
  | context => exact congrArg (OneOwner.mk h.contexts h.destroyed) (hheld .context)
  | socket => exact congrArg (OneOwner.mk h.sockets h.closed) (hheld .socket)

/-- `~Node` gives the handles of the node back. -/
theorem ledger_destruct (h : Heap) (n : Node) (k : Kind) : (h.destruct n).ledger k =
    { h.ledger k with released := (h.ledger k).released ++ (n.handle k).toList } := by
  obtain ⟨id, pid, context, socket, address⟩ := n
  cases k <;> cases context <;> cases socket <;> simp [Heap.destruct, Heap.zmqClose,
    Heap.zmqCtxDestroy, Heap.ledger, Node.handle]

theorem node_destruct (h : Heap) (n : Node) : (h.destruct n).node = h.node := by
  obtain ⟨id, pid, context, socket, address⟩ := n
  cases context <;> cases socket <;> rfl

theorem held_eq (hn : h.node o = some n) : (h.ledger k).held o = n.handle k := by
  rw [held_ledger]
  show (h.node o).bind _ = _
  rw [hn, Option.bind_some]

theorem held_none (hn : h.node o = none) : (h.ledger k).held o = none := by
  rw [held_ledger]
  show (h.node o).bind _ = _
  rw [hn, Option.bind_none]

/-- The node holds nothing after a move from it. -/
theorem ledger_moveFrom (h : Heap) (o : ℕ) (other : Node) (k : Kind) :
    (h.moveFrom o other).ledger k =
      { h.ledger k with held := Function.update (h.ledger k).held o none } := by
  rw [Heap.moveFrom, ledger_update]
  cases k <;> rfl

/-! ## What the operations are -/

/-- **A destruction** releases. -/
theorem ledger_destroy (hn : h.node o = some n) :
    (h.destroy o).ledger k = (h.ledger k).release o := by
  have hdestroy : h.destroy o = { h.destruct n with node := Function.update (h.destruct n).node o none } := by
    rw [Heap.destroy, hn, node_destruct]
  rw [hdestroy, ledger_update, ledger_destruct, OneOwner.release, held_eq hn]
  rfl

/-- **A move construction** hands over. -/
theorem ledger_moveConstruct (hn : h.node o = some other) :
    (h.moveConstruct this o).ledger k = (h.ledger k).handOver o this := by
  have hmove : h.moveConstruct this o = { h.moveFrom o other with
      node := Function.update (h.moveFrom o other).node this (some other) } := by
    rw [Heap.moveConstruct, hn]
  rw [hmove, ledger_update, ledger_moveFrom, OneOwner.handOver, held_eq hn]
  rfl

/-- **A move assignment** of another object releases and hands over. -/
theorem ledger_moveAssign (hne : this ≠ o) (hn : h.node this = some n) (ho : h.node o = some other) :
    (h.moveAssign this o).ledger k = ((h.ledger k).release this).handOver o this := by
  have hassign : h.moveAssign this o = { (h.destruct n).moveFrom o other with
      node := Function.update ((h.destruct n).moveFrom o other).node this (some other) } := by
    rw [Heap.moveAssign, if_neg hne, hn, ho]
  have hheld : Function.update (Function.update (h.ledger k).held this none) o none =
      Function.update (Function.update (h.ledger k).held o none) this none :=
    Function.update_comm hne _ _ _
  rw [hassign, ledger_update, ledger_moveFrom, ledger_destruct, OneOwner.handOver, OneOwner.release,
    held_eq hn]
  dsimp only
  rw [hheld, Function.update_idem, Function.update_of_ne (Ne.symm hne), held_eq ho]
  rfl

section Create

variable {id pid : ℤ} {isChild : Bool} {calls : Calls}

/-- Without a context nothing was made. -/
theorem create_of_noContext (hcontext : calls.ctxNew = false) :
    h.create o id pid isChild calls = h := by
  rw [Heap.create, Heap.createNode, hcontext]
  rfl

/-- **Without a socket** the context is destroyed twice. -/
theorem create_of_noSocket (hcontext : calls.ctxNew = true) (hsocket : calls.socket = false) :
    h.create o id pid isChild calls =
      { h with contexts := h.contexts + 1, destroyed := h.destroyed ++ [h.contexts, h.contexts] } := by
  have hboth : (h.destroyed ++ [h.contexts]) ++ [h.contexts] =
      h.destroyed ++ [h.contexts, h.contexts] := List.append_assoc _ _ _
  rw [Heap.create, Heap.createNode, hcontext, hsocket, ← hboth]
  rfl

/-- **A socket that cannot be attached** is made and released, and so is the context. -/
theorem ledger_create_unattached (hnone : h.node o = none) (hcontext : calls.ctxNew = true)
    (hsocket : calls.socket = true) (hattach : calls.attach = false) :
    (h.create o id pid isChild calls).ledger k = ((h.ledger k).make o).release o := by
  have hback : Function.update (Function.update (h.ledger k).held o (some (h.ledger k).made)) o none =
      (h.ledger k).held := by
    rw [Function.update_idem, ← held_none hnone (k := k), Function.update_eq_self]
  rw [Heap.create, Heap.createNode, hcontext, hsocket, hattach, OneOwner.release, OneOwner.make]
  dsimp only
  rw [hback, Function.update_self]
  cases k <;> rfl

/-- **A node that is created** holds a new context and a new socket. -/
theorem ledger_create (hcontext : calls.ctxNew = true) (hsocket : calls.socket = true)
    (hattach : calls.attach = true) :
    (h.create o id pid isChild calls).ledger k = (h.ledger k).make o := by
  let made : Heap := { h with contexts := h.contexts + 1, sockets := h.sockets + 1 }
  let node : Node := ⟨id, pid, some h.contexts, some h.sockets, s!"tcp://127.0.0.1:{5555 + id}"⟩
  have hcreate : h.create o id pid isChild calls =
      { made with node := Function.update made.node o (some node) } := by
    rw [Heap.create, Heap.createNode, hcontext, hsocket, hattach]
    rfl
  rw [hcreate, ledger_update]
  cases k <;> rfl

end Create

/-! ## Every step -/

/-- **Every step** moves handles, if no `create_node` is left without a socket. -/
theorem moves_next (he : e.Enabled h) (hgood : ¬ e.SocketFails) (k : Kind) :
    Relation.ReflTransGen OneOwner.Moves (h.ledger k) ((h.next e).ledger k) := by
  cases e with
  | create o id pid isChild calls =>
    show Relation.ReflTransGen _ _ ((h.create o id pid isChild calls).ledger k)
    have hmake := Relation.ReflTransGen.single (OneOwner.Moves.make (held_none he (k := k)))
    cases hcontext : calls.ctxNew with
    | false => rw [create_of_noContext hcontext]
    | true =>
      have hsocket : calls.socket = true := by
        by_contra hsocket
        exact hgood ⟨hcontext, hsocket⟩
      cases hattach : calls.attach with
      | false =>
        rw [ledger_create_unattached he hcontext hsocket hattach]
        exact hmake.tail (.release o)
      | true =>
        rw [ledger_create hcontext hsocket hattach]
        exact hmake
  | moveConstruct this o =>
    obtain ⟨hnone, ho⟩ := he
    obtain ⟨other, ho⟩ := Option.ne_none_iff_exists'.mp ho
    have hne : o ≠ this := by
      rintro rfl
      rw [ho] at hnone
      cases hnone
    show Relation.ReflTransGen _ _ ((h.moveConstruct this o).ledger k)
    rw [ledger_moveConstruct ho]
    exact .single (.handOver (held_none hnone) hne)
  | moveAssign this o =>
    obtain ⟨hthis, ho⟩ := he
    obtain ⟨n, hthis⟩ := Option.ne_none_iff_exists'.mp hthis
    obtain ⟨other, ho⟩ := Option.ne_none_iff_exists'.mp ho
    show Relation.ReflTransGen _ _ ((h.moveAssign this o).ledger k)
    by_cases hne : this = o
    · rw [Heap.moveAssign, if_pos hne]
    · -- The object lets go of its own handles first.
      have hfree : ((h.ledger k).release this).held this = none := Function.update_self _ _ _
      rw [ledger_moveAssign hne hthis ho]
      exact (Relation.ReflTransGen.single (.release this)).tail (.handOver hfree (Ne.symm hne))
  | destroy o =>
    obtain ⟨n, ho⟩ := Option.ne_none_iff_exists'.mp he
    show Relation.ReflTransGen _ _ ((h.destroy o).ledger k)
    rw [ledger_destroy ho]
    exact .single (.release o)

/-- The context of a `create_node` without a socket is in the log twice. -/
theorem destroyed_of_socketFails (hfails : e.SocketFails) :
    ((h.next e).ledger .context).released =
      (h.ledger .context).released ++ [h.contexts, h.contexts] := by
  cases e with
  | create o id pid isChild calls =>
    show ((h.create o id pid isChild calls).ledger .context).released = _
    rw [create_of_noSocket hfails.1 (Bool.not_eq_true _ ▸ hfails.2)]
    rfl
  | moveConstruct this o => exact hfails.elim
  | moveAssign this o => exact hfails.elim
  | destroy o => exact hfails.elim

/-- A destroyed context stays destroyed. -/
theorem destroyed_grows (he : e.Enabled h) :
    (h.ledger .context).released <+: ((h.next e).ledger .context).released := by
  by_cases hfails : e.SocketFails
  · rw [destroyed_of_socketFails hfails]
    exact List.prefix_append _ _
  · exact OneOwner.released_moves (moves_next he hfails .context)

/-- A `create_node` that throws has released what it made. -/
theorem released_of_throws (he : e.Enabled h) (hthrows : e.Throws) (hgood : ¬ e.SocketFails) {c : ℕ}
    (hold : (h.ledger k).made ≤ c) (hnew : c < ((h.next e).ledger k).made) :
    c ∈ ((h.next e).ledger k).released := by
  cases e with
  | create o id pid isChild calls =>
    have hnext : h.next (.create o id pid isChild calls) = h.create o id pid isChild calls := rfl
    rw [hnext] at hnew ⊢
    cases hcontext : calls.ctxNew with
    | false =>
      rw [create_of_noContext hcontext] at hnew
      exact absurd hnew (not_lt.mpr hold)
    | true =>
      have hsocket : calls.socket = true := by
        by_contra hsocket
        exact hgood ⟨hcontext, hsocket⟩
      have hattach : calls.attach = false := by
        by_contra hattach
        exact hthrows ⟨hcontext, hsocket, Bool.not_eq_false _ ▸ hattach⟩
      rw [ledger_create_unattached he hcontext hsocket hattach] at hnew ⊢
      have hlast : c = (h.ledger k).made := le_antisymm (Nat.le_of_lt_succ hnew) hold
      rw [OneOwner.released_release, OneOwner.held_make, Function.update_self, hlast]
      exact List.mem_append_right _ (List.mem_singleton_self _)
  | moveConstruct this o => exact hthrows.elim
  | moveAssign this o => exact hthrows.elim
  | destroy o => exact hthrows.elim

end Ledger

/-! ## Every run -/

section Runs

variable {h h' : Heap} {es : List Event}

theorem exact_run (hrun : Run Step {} es h) (hgood : ∀ e ∈ es, ¬ e.SocketFails) (k : Kind) :
    (h.ledger k).Exact := by
  have hall := hrun.history (I := fun es h => (∀ e ∈ es, ¬ e.SocketFails) →
    (h.ledger k).Exact) ?_ ?_
  · exact hall hgood
  · intro _
    cases k <;> exact OneOwner.exact_empty
  · rintro es h e h' _ ih ⟨he, rfl⟩ hgood
    have hbefore := ih fun e he => hgood e (List.mem_append_left _ he)
    have hlast := hgood e (List.mem_append_right _ (List.mem_singleton_self e))
    exact hbefore.moves (moves_next he hlast k)

theorem destroyed_grows_run (hrun : Run Step h es h') :
    (h.ledger .context).released <+: (h'.ledger .context).released := by
  apply hrun.preserves (I := fun h' => (h.ledger .context).released <+: (h'.ledger .context).released) _
    List.prefix_rfl
  rintro h₁ e h₂ hgrows ⟨he, rfl⟩
  exact hgrows.trans (destroyed_grows he)

/-- **Every handle is released exactly once** if and only if no `create_node` gets a context and no
socket. -/
theorem handles_released_once_iff (hrun : Run Step {} es h) :
    ExactlyOnce es h ↔ ∀ e ∈ es, ¬ e.SocketFails := by
  constructor
  · intro honce e hmem hfails
    obtain ⟨before, rest, rfl⟩ := List.append_of_mem hmem
    obtain ⟨h₁, -, hrest⟩ := hrun.exists_of_append
    cases hrest with
    | cons hstep hrest =>
      obtain ⟨he, rfl⟩ := hstep
      -- The context is in the log twice, and stays there.
      have hnodup := (honce.once .context).sublist (destroyed_grows_run hrest).sublist
      rw [destroyed_of_socketFails hfails] at hnodup
      have htwice : ¬ [h₁.contexts, h₁.contexts].Nodup := by simp
      exact htwice (hnodup.sublist (List.sublist_append_right _ _))
  · intro hgood
    have hexact := exact_run hrun hgood
    constructor
    · exact fun k => (hexact k).once
    · intro hnone k c hc
      exact (hexact k).all_released (fun o => held_none (hnone o)) hc
    · rintro before e rest h₁ h₂ rfl _ ⟨he, rfl⟩ hthrows k c hold hnew
      have hmem : e ∈ before ++ e :: rest := List.mem_append_right _ List.mem_cons_self
      exact released_of_throws he hthrows (hgood e hmem) hold hnew

end Runs

/-- A node is created, moved and assigned to itself, and both objects are destroyed. -/
def moved : List Event :=
  [.create 0 1 5 false ⟨true, true, true⟩, .moveConstruct 1 0, .moveAssign 1 1, .destroy 0, .destroy 1]

theorem handles_released_once_iff_moved : ∃ h, Run Step {} moved h ∧ ExactlyOnce moved h := by
  have hrun : Run Step {} moved (moved.foldl Heap.next {}) := by
    refine .cons ⟨rfl, rfl⟩ (.cons ⟨⟨rfl, ?_⟩, rfl⟩ (.cons ⟨⟨?_, ?_⟩, rfl⟩ (.cons ⟨?_, rfl⟩
      (.cons ⟨?_, rfl⟩ (.nil _)))))
    all_goals exact Option.some_ne_none _
  refine ⟨_, hrun, (handles_released_once_iff hrun).mpr ?_⟩
  intro e he
  simp only [moved, List.mem_cons, List.not_mem_nil, or_false] at he
  rcases he with rfl | rfl | rfl | rfl | rfl
  · exact fun hfails => hfails.2 rfl
  all_goals exact id

/-- **A context without a socket** is destroyed twice. -/
theorem context_without_socket_destroyed_twice :
    ¬ ∀ es h, Run Step {} es h → ExactlyOnce es h := by
  intro hall
  have hrun : Run Step {} [.create 0 1 5 false ⟨true, false, true⟩] _ := .single ⟨rfl, rfl⟩
  have hnodup := (hall _ _ hrun).once .context
  have htwice : ¬ [0, 0].Nodup := by decide
  exact htwice hnodup

end NodeHandles
