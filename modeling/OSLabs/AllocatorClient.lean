/-
# Allocators and their clients

What a memory allocator owes its client, stated for any allocator.  A client
holds a list of live allocations; it may ask for memory, give back null or a
pointer it holds, and write into the bytes it was given.  `SafeHeap.Step` is the
abstract allocator: it may refuse any request, and what it hands out lies in its
region and overlaps nothing live.  A concrete allocator whose reachable client
states are safe refines it.
-/
import OSLabs.LabelledRuns

/-! ## Allocations -/

/-- One allocation held by a client: the pointer, and the number of bytes asked for. -/
structure Allocation where
  ptr : ℕ
  size : ℕ
  deriving DecidableEq, Repr

namespace Allocation

/-- The byte ranges `[p, p + n)` of two allocations do not meet. -/
def Apart (a b : Allocation) : Prop :=
  a.ptr + a.size ≤ b.ptr ∨ b.ptr + b.size ≤ a.ptr

instance (a b : Allocation) : Decidable (Apart a b) :=
  inferInstanceAs (Decidable (_ ∨ _))

/-- The byte `x` belongs to the allocation. -/
def Covers (a : Allocation) (x : ℕ) : Prop :=
  a.ptr ≤ x ∧ x < a.ptr + a.size

/-- The range of an allocation lies in `[lo, hi)`. -/
def Within (lo hi : ℕ) (a : Allocation) : Prop :=
  lo ≤ a.ptr ∧ a.ptr + a.size ≤ hi

end Allocation

/-- After one of the allocations with distinct pointers is dropped, the pointers left are
the others. -/
theorem mem_map_ptr_erase {live : List Allocation} {x : Allocation}
    (hnd : (live.map Allocation.ptr).Nodup) (hx : x ∈ live) (p : ℕ) :
    p ∈ (live.erase x).map Allocation.ptr ↔ p ∈ live.map Allocation.ptr ∧ p ≠ x.ptr := by
  have hperm : (live.map Allocation.ptr).Perm (x.ptr :: (live.erase x).map Allocation.ptr) :=
    (List.perm_cons_erase hx).map Allocation.ptr
  have hnd' := hperm.nodup_iff.mp hnd
  rw [hperm.mem_iff, List.mem_cons]
  constructor
  · intro hp
    exact ⟨Or.inr hp, fun he => (List.nodup_cons.mp hnd').1 (he ▸ hp)⟩
  · rintro ⟨rfl | hp, hne⟩
    · exact absurd rfl hne
    · exact hp

/-- Pointers that are distinct stay distinct when an allocation is dropped. -/
theorem nodup_map_ptr_erase {live : List Allocation} (x : Allocation)
    (hnd : (live.map Allocation.ptr).Nodup) : ((live.erase x).map Allocation.ptr).Nodup :=
  hnd.sublist (List.erase_sublist.map Allocation.ptr)

/-- What a client does: a call with its argument, or a write of one byte. -/
inductive HeapEvent where
  | alloc (size : ℕ)
  | free (ptr : ℕ)
  | write (addr : ℕ) (byte : UInt8)
  deriving DecidableEq, Repr

/-- A call of the allocator, not a write. -/
def HeapEvent.isCall : HeapEvent → Bool
  | .write _ _ => false
  | _ => true

/-! ## The abstract allocator -/

/-- All live allocations lie in `[lo, hi)`, and no two of them overlap. -/
structure SafeHeap (lo hi : ℕ) (live : List Allocation) : Prop where
  within : ∀ a ∈ live, a.Within lo hi
  apart : live.Pairwise Allocation.Apart

namespace SafeHeap

variable {lo hi : ℕ} {live live' : List Allocation}

/-- The abstract allocator.  A request may be refused; a granted one lies in the
region and meets no live allocation. -/
inductive Step (lo hi : ℕ) : List Allocation → HeapEvent → List Allocation → Prop
  | refuse (live : List Allocation) (n : ℕ) : Step lo hi live (.alloc n) live
  | grant (live : List Allocation) (p n : ℕ) :
      Allocation.Within lo hi ⟨p, n⟩ → (∀ a ∈ live, Allocation.Apart ⟨p, n⟩ a) →
      Step lo hi live (.alloc n) (⟨p, n⟩ :: live)
  | freeNull (live : List Allocation) : Step lo hi live (.free 0) live
  | free (live : List Allocation) (a : Allocation) :
      a ∈ live → Step lo hi live (.free a.ptr) (live.erase a)
  | write (live : List Allocation) (a : Allocation) (x : ℕ) (v : UInt8) :
      a ∈ live → a.Covers x → Step lo hi live (.write x v) live

/-- No allocation is live at first. -/
theorem nil : SafeHeap lo hi [] :=
  ⟨fun _ h => absurd h List.not_mem_nil, List.Pairwise.nil⟩

/-- Every step of the abstract allocator keeps the heap safe. -/
theorem step {e : HeapEvent} (hs : SafeHeap lo hi live) (h : Step lo hi live e live') :
    SafeHeap lo hi live' := by
  cases h with
  | refuse n => exact hs
  | grant p n hin hapart =>
      refine ⟨fun a ha => ?_, List.pairwise_cons.mpr ⟨hapart, hs.apart⟩⟩
      rcases List.mem_cons.mp ha with rfl | ha
      · exact hin
      · exact hs.within a ha
  | freeNull => exact hs
  | free a ha =>
      exact ⟨fun b hb => hs.within b (List.mem_of_mem_erase hb),
        hs.apart.sublist List.erase_sublist⟩
  | write a x v ha hx => exact hs

/-- **The abstract allocator is safe along every run.** -/
theorem run {es : List HeapEvent} (h : Run (Step lo hi) live es live')
    (hs : SafeHeap lo hi live) : SafeHeap lo hi live' :=
  h.preserves (fun _ _ _ hI hst => hI.step hst) hs

end SafeHeap

/-! ## Concrete allocators -/

/-- A region that `mmap` may return for `len` bytes: page-aligned, not null and not
wrapping around the address space; a request for no bytes fails. -/
structure IsMapping (memory len : ℕ) : Prop where
  len_pos : 0 < len
  ne_null : 0 < memory
  aligned : 4096 ∣ memory
  no_wrap : memory + len ≤ 2 ^ 64

/-- The operations of an allocator over a state `σ`.  A call that never returns is
`none`; the null pointer is `0`. -/
structure Allocator (σ : Type) where
  alloc : σ → ℕ → Option (ℕ × σ)
  free : σ → ℕ → Option σ
  store : σ → ℕ → UInt8 → σ

/-- An allocator together with what its client holds. -/
structure Client (σ : Type) where
  heap : σ
  live : List Allocation

namespace Client

variable {σ : Type} {A : Allocator σ} {sizeOk : ℕ → Prop} {c c' : Client σ}

/-- What a client of `A` may do: ask for `n` bytes with `sizeOk n`, free null or a
live pointer, write a byte it holds. -/
inductive Step (A : Allocator σ) (sizeOk : ℕ → Prop) :
    Client σ → HeapEvent → Client σ → Prop
  | allocNull {c : Client σ} {n : ℕ} {heap' : σ} :
      sizeOk n → A.alloc c.heap n = some (0, heap') →
      Step A sizeOk c (.alloc n) ⟨heap', c.live⟩
  | allocSome {c : Client σ} {n p : ℕ} {heap' : σ} :
      sizeOk n → p ≠ 0 → A.alloc c.heap n = some (p, heap') →
      Step A sizeOk c (.alloc n) ⟨heap', ⟨p, n⟩ :: c.live⟩
  | freeNull {c : Client σ} {heap' : σ} :
      A.free c.heap 0 = some heap' → Step A sizeOk c (.free 0) ⟨heap', c.live⟩
  | freeLive {c : Client σ} {a : Allocation} {heap' : σ} :
      a ∈ c.live → A.free c.heap a.ptr = some heap' →
      Step A sizeOk c (.free a.ptr) ⟨heap', c.live.erase a⟩
  | write {c : Client σ} {a : Allocation} {x : ℕ} {v : UInt8} :
      a ∈ c.live → a.Covers x →
      Step A sizeOk c (.write x v) ⟨A.store c.heap x v, c.live⟩

/-- A client that may ask for fewer sizes takes fewer steps. -/
theorem Step.mono {sizeOk' : ℕ → Prop} (hsize : ∀ n, sizeOk n → sizeOk' n) {e : HeapEvent}
    (h : Step A sizeOk c e c') : Step A sizeOk' c e c' := by
  cases h with
  | allocNull hn halloc => exact .allocNull (hsize _ hn) halloc
  | allocSome hn hp halloc => exact .allocSome (hsize _ hn) hp halloc
  | freeNull hfree => exact .freeNull hfree
  | freeLive ha hfree => exact .freeLive ha hfree
  | write ha hx => exact .write ha hx

/-- A client step into a safe state is a step of the abstract allocator. -/
theorem Step.refines {lo hi : ℕ} {e : HeapEvent} (h : Step A sizeOk c e c')
    (hs : SafeHeap lo hi c'.live) : SafeHeap.Step lo hi c.live e c'.live := by
  cases h with
  | allocNull hn halloc => exact .refuse _ _
  | allocSome hn hp halloc =>
      refine .grant _ _ _ (hs.within _ List.mem_cons_self) fun a ha => ?_
      exact (List.pairwise_cons.mp hs.apart).1 a ha
  | freeNull hfree => exact .freeNull _
  | freeLive ha hfree => exact .free _ _ ha
  | write ha hx => exact .write _ _ _ _ ha hx

/-- **Refinement.**  If an invariant of the client makes its live allocations safe,
every run of the concrete allocator is a run of the abstract one. -/
theorem refines_safeHeap {lo hi : ℕ} {I : Client σ → Prop}
    (hstep : ∀ c e c', I c → Step A sizeOk c e c' → I c')
    (hsafe : ∀ c, I c → SafeHeap lo hi c.live)
    {es : List HeapEvent} (h : Run (Step A sizeOk) c es c') (hc : I c) :
    Run (SafeHeap.Step lo hi) c.live es c'.live := by
  obtain ⟨live, hrun, hI, rfl⟩ := h.simulate
    (R := fun d live => I d ∧ live = d.live) (a := c.live)
    (fun d e d' live hR hst => by
      obtain ⟨hI, rfl⟩ := hR
      have hI' := hstep d e d' hI hst
      exact ⟨d'.live, hst.refines (hsafe d' hI'), hI', rfl⟩)
    ⟨hc, rfl⟩
  exact hrun

/-! ## What a client is told -/

/-- What the client is told in a step: the pointer that `alloc` returns. -/
def answer (A : Allocator σ) (c : Client σ) : HeapEvent → Option ℕ
  | .alloc n => (A.alloc c.heap n).map Prod.fst
  | _ => none

/-- A step of the client together with what it is told. -/
def Told (A : Allocator σ) (sizeOk : ℕ → Prop) (c : Client σ) (l : HeapEvent × Option ℕ)
    (c' : Client σ) : Prop :=
  Step A sizeOk c l.1 c' ∧ l.2 = answer A c l.1

/-- The client after a request that was answered. -/
theorem Step.alloc_inv {n p : ℕ} {heap' : σ} (h : Step A sizeOk c (.alloc n) c')
    (halloc : A.alloc c.heap n = some (p, heap')) :
    sizeOk n ∧ c' = ⟨heap', if p = 0 then c.live else ⟨p, n⟩ :: c.live⟩ := by
  cases h with
  | allocNull hn hcall =>
      rw [halloc] at hcall
      cases hcall
      exact ⟨hn, rfl⟩
  | allocSome hn hp hcall =>
      rw [halloc] at hcall
      cases hcall
      exact ⟨hn, by rw [if_neg hp]⟩

/-- The client after a pointer was given back. -/
theorem Step.free_inv {p : ℕ} (h : Step A sizeOk c (.free p) c') :
    (p = 0 ∧ A.free c.heap 0 = some c'.heap ∧ c'.live = c.live) ∨
      ∃ a ∈ c.live, a.ptr = p ∧ A.free c.heap p = some c'.heap ∧ c'.live = c.live.erase a := by
  cases h with
  | freeNull hfree => exact Or.inl ⟨rfl, hfree, rfl⟩
  | freeLive ha hfree => exact Or.inr ⟨_, ha, rfl, hfree, rfl⟩

/-- The client after a write. -/
theorem Step.write_inv {x : ℕ} {v : UInt8} (h : Step A sizeOk c (.write x v) c') :
    ∃ a ∈ c.live, a.Covers x ∧ c' = ⟨A.store c.heap x v, c.live⟩ := by
  cases h with
  | write ha hx => exact ⟨_, ha, hx, rfl⟩

/-- The steps of a run with answers. -/
theorem run_of_told {log : List (HeapEvent × Option ℕ)} (h : Run (Told A sizeOk) c log c') :
    Run (Step A sizeOk) c (log.map Prod.fst) c' := by
  induction h with
  | nil c => exact .nil c
  | cons hst _ ih => exact .cons hst.1 ih

/-- The calls of a history, with what the client was told. -/
def calls (ls : List (HeapEvent × Option ℕ)) : List (HeapEvent × Option ℕ) :=
  ls.filter fun l => l.1.isCall

/-- **Two-client rule.**  Two histories with the same calls are told the same, if a relation between
the clients is kept by the writes of each side and by a call of both, which then are told the
same. -/
theorem Told.twin {R : Client σ → Client σ → Prop}
    (hleft : ∀ c d e c', R c d → e.isCall = false → Step A sizeOk c e c' → R c' d)
    (hright : ∀ c d e d', R c d → e.isCall = false → Step A sizeOk d e d' → R c d')
    (hcall : ∀ c d e c' d', R c d → e.isCall = true → Step A sizeOk c e c' → Step A sizeOk d e d' →
      answer A c e = answer A d e ∧ R c' d')
    {d d' : Client σ} {ls ms : List (HeapEvent × Option ℕ)} (h : Run (Told A sizeOk) c ls c')
    (h' : Run (Told A sizeOk) d ms d')
    (hsame : (calls ls).map Prod.fst = (calls ms).map Prod.fst) (hR : R c d) :
    calls ls = calls ms ∧ R c' d' := by
  have hboth : ∀ s t l m s' t', R s t → l.1.isCall = true → l.1 = m.1 → Told A sizeOk s l s' →
      Told A sizeOk t m t' → l = m ∧ R s' t' := by
    rintro s t ⟨e, r⟩ ⟨e', r'⟩ s' t' ht hl hlook ⟨hst, hr⟩ ⟨hst', hr'⟩
    dsimp only at hlook hst hr hst' hr' hl
    subst hlook
    obtain ⟨hanswer, hnext⟩ := hcall _ _ _ _ _ ht hl hst hst'
    exact ⟨by rw [hr, hr', hanswer], hnext⟩
  exact h.twin (R := R) (fun s t l s' ht hl hst => hleft _ _ _ _ ht hl hst.1)
    (fun s t l t' ht hl hst => hright _ _ _ _ ht hl hst.1) hboth h' hsame hR

/-! ## Playing a history -/

section Play

variable [DecidablePred sizeOk]

/-- What the client is told and what it is after an event; there is nothing after an event that it
may not cause, or after a call that does not return. -/
def serve (A : Allocator σ) (sizeOk : ℕ → Prop) [DecidablePred sizeOk] (c : Client σ) :
    HeapEvent → Option (Option ℕ × Client σ)
  | .alloc n =>
    if sizeOk n then
      (A.alloc c.heap n).map fun r =>
        (some r.1, ⟨r.2, if r.1 = 0 then c.live else ⟨r.1, n⟩ :: c.live⟩)
    else none
  | .free p =>
    if p = 0 then (A.free c.heap 0).map fun heap' => (none, ⟨heap', c.live⟩)
    else
      (c.live.find? fun a => a.ptr = p).bind fun a =>
        (A.free c.heap a.ptr).map fun heap' => (none, ⟨heap', c.live.erase a⟩)
  | .write x v =>
    (c.live.find? fun a => a.ptr ≤ x ∧ x < a.ptr + a.size).map fun _ =>
      (none, ⟨A.store c.heap x v, c.live⟩)

/-- The events one after the other, with what the client is told in each. -/
def play (A : Allocator σ) (sizeOk : ℕ → Prop) [DecidablePred sizeOk] :
    Client σ → List HeapEvent → Option (List (HeapEvent × Option ℕ) × Client σ)
  | c, [] => some ([], c)
  | c, e :: es =>
    (serve A sizeOk c e).bind fun r =>
      (play A sizeOk r.2 es).map fun rest => ((e, r.1) :: rest.1, rest.2)

/-- What is served is a step. -/
theorem told_of_serve {e : HeapEvent} {r : Option ℕ} (h : serve A sizeOk c e = some (r, c')) :
    Told A sizeOk c (e, r) c' := by
  cases e with
  | alloc n =>
      obtain ⟨hn, h⟩ := Option.ite_none_right_eq_some.mp h
      obtain ⟨⟨p, heap'⟩, halloc, heq⟩ := Option.map_eq_some_iff.mp h
      obtain ⟨rfl, rfl⟩ := Prod.mk.inj heq
      refine ⟨?_, (congrArg (Option.map Prod.fst) halloc).symm⟩
      by_cases hp : p = 0
      · subst hp
        exact .allocNull hn halloc
      · rw [if_neg hp]
        exact .allocSome hn hp halloc
  | free p =>
      rw [serve] at h
      by_cases hp : p = 0
      · rw [if_pos hp] at h
        obtain ⟨heap', hfree, heq⟩ := Option.map_eq_some_iff.mp h
        obtain ⟨rfl, rfl⟩ := Prod.mk.inj heq
        subst hp
        exact ⟨.freeNull hfree, rfl⟩
      · rw [if_neg hp] at h
        obtain ⟨a, hfind, h⟩ := Option.bind_eq_some_iff.mp h
        obtain ⟨heap', hfree, heq⟩ := Option.map_eq_some_iff.mp h
        obtain ⟨rfl, rfl⟩ := Prod.mk.inj heq
        obtain rfl : a.ptr = p := by simpa using List.find?_some hfind
        exact ⟨.freeLive (List.mem_of_find?_eq_some hfind) hfree, rfl⟩
  | write x v =>
      obtain ⟨a, hfind, heq⟩ := Option.map_eq_some_iff.mp h
      obtain ⟨rfl, rfl⟩ := Prod.mk.inj heq
      have hcovers : a.Covers x := by simpa [Allocation.Covers] using List.find?_some hfind
      exact ⟨.write (List.mem_of_find?_eq_some hfind) hcovers, rfl⟩

/-- **What is played is a run.** -/
theorem run_of_play {es : List HeapEvent} {log : List (HeapEvent × Option ℕ)}
    (h : play A sizeOk c es = some (log, c')) : Run (Told A sizeOk) c log c' := by
  induction es generalizing c log with
  | nil =>
      obtain ⟨rfl, rfl⟩ := Prod.mk.inj (Option.some.inj h)
      exact .nil _
  | cons e es ih =>
      obtain ⟨⟨r, d⟩, hserve, h⟩ := Option.bind_eq_some_iff.mp h
      obtain ⟨⟨rest, d'⟩, hplay, heq⟩ := Option.map_eq_some_iff.mp h
      obtain ⟨rfl, rfl⟩ := Prod.mk.inj heq
      exact .cons (told_of_serve hserve) (ih hplay)

/-- What one sees of the client after a history that starts with what a constructor leaves. -/
theorem exists_run_of_play {α : Type*} {init : Option σ} {es : List HeapEvent}
    {log : List (HeapEvent × Option ℕ)} {view : Client σ → α} {v : α}
    (h : (init.bind fun heap =>
      (play A sizeOk ⟨heap, []⟩ es).map (Prod.map id view)) = some (log, v)) :
    ∃ heap c, init = some heap ∧ Run (Told A sizeOk) ⟨heap, []⟩ log c ∧ view c = v := by
  obtain ⟨heap, hinit, h⟩ := Option.bind_eq_some_iff.mp h
  obtain ⟨⟨log', c⟩, hplay, heq⟩ := Option.map_eq_some_iff.mp h
  obtain ⟨rfl, hview⟩ := Prod.mk.inj heq
  exact ⟨heap, c, hinit, run_of_play hplay, hview⟩

end Play

end Client
