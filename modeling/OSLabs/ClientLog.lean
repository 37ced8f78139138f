/-
# Logs of allocator calls

The log of a client lists its calls with what it was told, the oldest first.  A log by itself says
what is live after each call, how much was live at most, and whether every pointer was given back
once.  `Holds` is a client that keeps its own list of what it holds: it is kept by every call, so
that the list of the client and the log agree.
-/
import OSLabs.AllocatorClient

variable {σ : Type}

/-! ## Capacity -/

namespace Allocation

/-- The bytes of the allocations together. -/
def total (live : List Allocation) : ℕ := (live.map size).sum

@[simp] theorem total_nil : total [] = 0 := rfl

@[simp] theorem total_cons (a : Allocation) (live : List Allocation) :
    total (a :: live) = a.size + total live := rfl

theorem total_perm {live live' : List Allocation} (h : live.Perm live') :
    total live = total live' := (h.map size).sum_eq

/-- Among allocations with different pointers the first with the pointer of `a` is `a`. -/
theorem eraseP_ptr {live : List Allocation} {a : Allocation} (hnd : (live.map ptr).Nodup)
    (ha : a ∈ live) : (live.eraseP fun b => b.ptr = a.ptr) = live.erase a := by
  induction live with
  | nil => cases ha
  | cons b live ih =>
      obtain ⟨hnot, hnd⟩ := List.nodup_cons.mp hnd
      by_cases hba : b = a
      · rw [hba, List.eraseP_cons_of_pos (by simp), List.erase_cons_head]
      · have ha' : a ∈ live := (List.mem_cons.mp ha).resolve_left (Ne.symm hba)
        have hptr : b.ptr ≠ a.ptr := fun heq => hnot (heq ▸ List.mem_map_of_mem ha')
        rw [List.eraseP_cons_of_neg (by simpa using hptr), ih hnd ha',
          List.erase_cons_tail (by simpa using hba)]

/-- The bytes that the allocations cover. -/
def covered (live : List Allocation) : Finset ℕ :=
  live.foldr (fun a s => Finset.Ico a.ptr (a.ptr + a.size) ∪ s) ∅

theorem mem_covered {live : List Allocation} {x : ℕ} : x ∈ covered live ↔ ∃ a ∈ live, a.Covers x := by
  induction live with
  | nil => simp [covered]
  | cons a live ih =>
      show x ∈ Finset.Ico a.ptr (a.ptr + a.size) ∪ covered live ↔ _
      rw [Finset.mem_union, Finset.mem_Ico, ih]
      simp only [List.mem_cons, exists_eq_or_imp]
      rfl

/-- Allocations that do not overlap cover as many bytes as they have together. -/
theorem card_covered {live : List Allocation} (h : live.Pairwise Apart) :
    (covered live).card = total live := by
  induction live with
  | nil => rfl
  | cons a live ih =>
      obtain ⟨hapart, hrest⟩ := List.pairwise_cons.mp h
      have hdisj : Disjoint (Finset.Ico a.ptr (a.ptr + a.size)) (covered live) := by
        rw [Finset.disjoint_left]
        intro x hx hx'
        obtain ⟨b, hb, hlow, hhigh⟩ := mem_covered.mp hx'
        rw [Finset.mem_Ico] at hx
        rcases hapart b hb with hab | hba
        · omega
        · omega
      show (Finset.Ico a.ptr (a.ptr + a.size) ∪ covered live).card = _
      rw [Finset.card_union_of_disjoint hdisj, ih hrest, Nat.card_Ico, total_cons,
        Nat.add_sub_cancel_left]

end Allocation

open Allocation

/-- **The live allocations fit in the region.** -/
theorem SafeHeap.total_le {lo hi : ℕ} {live : List Allocation} (h : SafeHeap lo hi live) :
    total live ≤ hi - lo := by
  have hsub : covered live ⊆ Finset.Ico lo hi := by
    intro x hx
    obtain ⟨a, ha, hlow, hhigh⟩ := mem_covered.mp hx
    obtain ⟨h₁, h₂⟩ := h.within a ha
    rw [Finset.mem_Ico]
    omega
  calc
    total live = (covered live).card := (card_covered h.apart).symm
    _ ≤ (Finset.Ico lo hi).card := Finset.card_le_card hsub
    _ = hi - lo := Nat.card_Ico lo hi

/-- Live allocations of at least one byte have different pointers. -/
theorem SafeHeap.nodup_ptr {lo hi : ℕ} {live : List Allocation} (h : SafeHeap lo hi live)
    (hpos : ∀ a ∈ live, 0 < a.size) : (live.map ptr).Nodup := by
  refine List.pairwise_map.mpr (h.apart.imp_of_mem fun {a b} ha hb hapart => ?_)
  have hapos := hpos a ha
  have hbpos := hpos b hb
  rcases hapart with hab | hba
  · omega
  · omega

/-! ## Reading a log -/

/-- The calls of a client and what it was told. -/
abbrev CallLog : Type := List (HeapEvent × Option ℕ)

namespace CallLog

/-- What is live after one more call. -/
def liveStep (live : List Allocation) : HeapEvent × Option ℕ → List Allocation
  | (.alloc n, some p) => if p = 0 then live else ⟨p, n⟩ :: live
  | (.free p, _) => live.eraseP fun a => a.ptr = p
  | _ => live

/-- What is live after all calls. -/
def liveAfter (log : CallLog) : List Allocation := log.foldl liveStep []

/-- The pointers that were returned, without null. -/
def returned (log : CallLog) : List ℕ :=
  log.filterMap fun
    | (.alloc _, some p) => if p = 0 then none else some p
    | _ => none

/-- The pointers that were given back. -/
def freed (log : CallLog) : List ℕ :=
  log.filterMap fun
    | (.free p, _) => some p
    | _ => none

/-- The sizes that were asked for, with the answers. -/
def requests (log : CallLog) : List (ℕ × ℕ) :=
  log.filterMap fun
    | (.alloc size, some p) => some (size, p)
    | _ => none

/-- Each pointer that is given back is live at that moment. -/
def FreesLive (log : CallLog) : Prop :=
  ∀ pre p r post, log = pre ++ (.free p, r) :: post → p ∈ (liveAfter pre).map ptr

/-- The most that was live at one time is `m`. -/
structure IsPeak (m : ℕ) (log : CallLog) : Prop where
  bound : ∀ pre, pre <+: log → total (liveAfter pre) ≤ m
  attained : ∃ pre, pre <+: log ∧ total (liveAfter pre) = m

variable {log : CallLog} {m : ℕ} {c : HeapEvent × Option ℕ}

theorem liveAfter_snoc : liveAfter (log ++ [c]) = liveStep (liveAfter log) c := by
  rw [liveAfter, List.foldl_append]
  rfl

theorem requests_append (log : CallLog) (x : HeapEvent × Option ℕ) :
    requests (log ++ [x]) = requests log ++ requests [x] := List.filterMap_append

theorem requests_alloc (size p : ℕ) : requests [(.alloc size, some p)] = [(size, p)] := rfl

/-- Nothing was live before the first call. -/
theorem isPeak_nil : IsPeak 0 [] := by
  constructor
  · intro pre hpre
    rw [List.prefix_nil.mp hpre]
    exact le_rfl
  · exact ⟨[], List.prefix_rfl, rfl⟩

/-- A call raises the peak to what is live after it. -/
theorem IsPeak.snoc (h : IsPeak m log) :
    IsPeak (max m (total (liveAfter (log ++ [c])))) (log ++ [c]) := by
  constructor
  · intro pre hpre
    rcases List.prefix_concat_iff.mp hpre with rfl | hpre
    · exact le_max_right _ _
    · exact (h.bound pre hpre).trans (le_max_left _ _)
  · rcases le_total (total (liveAfter (log ++ [c]))) m with hle | hle
    · obtain ⟨pre, hpre, hm⟩ := h.attained
      exact ⟨pre, hpre.trans (List.prefix_append _ _), by rw [hm, max_eq_left hle]⟩
    · exact ⟨log ++ [c], List.prefix_rfl, (max_eq_right hle).symm⟩

/-- A call after which no more is live does not raise the peak. -/
theorem IsPeak.snoc_of_le (h : IsPeak m log)
    (hle : total (liveAfter (log ++ [c])) ≤ total (liveAfter log)) : IsPeak m (log ++ [c]) := by
  have hm : total (liveAfter (log ++ [c])) ≤ m := hle.trans (h.bound log List.prefix_rfl)
  have hpeak := h.snoc (c := c)
  rwa [max_eq_left hm] at hpeak

/-- The log keeps to the live pointers if the pointer that one more call frees is live. -/
theorem FreesLive.snoc (h : FreesLive log)
    (hc : ∀ p r, c = (.free p, r) → p ∈ (liveAfter log).map ptr) : FreesLive (log ++ [c]) := by
  intro pre p r post heq
  -- The release in question is the new call, or one of the old log.
  rcases List.eq_nil_or_concat' post with rfl | ⟨post, d, rfl⟩
  · obtain ⟨rfl, hlast⟩ := List.append_inj' heq rfl
    exact hc p r (List.cons.inj hlast).1
  · rw [← List.cons_append, ← List.append_assoc] at heq
    exact h pre p r post (List.append_inj' heq rfl).1

end CallLog

/-! ## Allocators that serve -/

/-- From the state `heap` on, whatever a client does, its live allocations are safe in `[lo, hi)`
and every call returns. -/
structure Serves (A : Allocator σ) (sizeOk : ℕ → Prop) (lo hi : ℕ) (heap : σ) : Prop where
  safe : ∀ es c, Run (Client.Step A sizeOk) ⟨heap, []⟩ es c → SafeHeap lo hi c.live
  allocReturns : ∀ es c n, Run (Client.Step A sizeOk) ⟨heap, []⟩ es c → sizeOk n →
    (A.alloc c.heap n).isSome
  freeReturns : ∀ es c, Run (Client.Step A sizeOk) ⟨heap, []⟩ es c → ∀ a ∈ c.live,
    (A.free c.heap a.ptr).isSome

namespace Serves

variable {A : Allocator σ} {sizeOk : ℕ → Prop} {lo hi : ℕ} {heap heap' : σ}

/-- An invariant of the client makes an allocator serve. -/
theorem of_invariant {I : Client σ → Prop} (hinit : I ⟨heap, []⟩)
    (hstep : ∀ c e c', I c → Client.Step A sizeOk c e c' → I c')
    (hsafe : ∀ c, I c → SafeHeap lo hi c.live)
    (halloc : ∀ c n, I c → sizeOk n → (A.alloc c.heap n).isSome)
    (hfree : ∀ c, I c → ∀ a ∈ c.live, (A.free c.heap a.ptr).isSome) :
    Serves A sizeOk lo hi heap := by
  have hI : ∀ es c, Run (Client.Step A sizeOk) ⟨heap, []⟩ es c → I c := by
    intro es c h
    exact h.preserves hstep hinit
  constructor
  · intro es c h
    exact hsafe c (hI es c h)
  · intro es c n h hn
    exact halloc c n (hI es c h) hn
  · intro es c h
    exact hfree c (hI es c h)

/-- An allocator serves a client that asks for fewer sizes, and in a larger region. -/
theorem mono {sizeOk' : ℕ → Prop} {hi' : ℕ} (h : Serves A sizeOk' lo hi heap)
    (hsize : ∀ n, sizeOk n → sizeOk' n) (hle : hi ≤ hi') : Serves A sizeOk lo hi' heap := by
  have hrun : ∀ es c, Run (Client.Step A sizeOk) ⟨heap, []⟩ es c →
      Run (Client.Step A sizeOk') ⟨heap, []⟩ es c := by
    intro es c hr
    exact hr.mono fun _ _ _ hst => hst.mono hsize
  constructor
  · intro es c hr
    have hsafe := h.safe es c (hrun es c hr)
    exact ⟨fun a ha => ⟨(hsafe.within a ha).1, (hsafe.within a ha).2.trans hle⟩, hsafe.apart⟩
  · intro es c n hr hn
    exact h.allocReturns es c n (hrun es c hr) (hsize n hn)
  · intro es c hr
    exact h.freeReturns es c (hrun es c hr)

/-- An allocator that got everything back serves again. -/
theorem of_run (h : Serves A sizeOk lo hi heap) {es : List HeapEvent}
    (hrun : Run (Client.Step A sizeOk) ⟨heap, []⟩ es ⟨heap', []⟩) :
    Serves A sizeOk lo hi heap' := by
  constructor
  · intro es' c hc
    exact h.safe _ c (hrun.append hc)
  · intro es' c n hc hn
    exact h.allocReturns _ c n (hrun.append hc) hn
  · intro es' c hc
    exact h.freeReturns _ c (hrun.append hc)

end Serves

/-- What the log says is live is what the client holds, if its pointers are distinct and not
null. -/
theorem Client.live_eq_liveAfter {A : Allocator σ} {sizeOk : ℕ → Prop} {I : Client σ → Prop}
    (hstep : ∀ c e c', I c → Client.Step A sizeOk c e c' → I c')
    (hnodup : ∀ c, I c → (c.live.map ptr).Nodup) (hnull : ∀ c, I c → 0 ∉ c.live.map ptr)
    {heap : σ} {log : CallLog} {c : Client σ} (h : Run (Client.Told A sizeOk) ⟨heap, []⟩ log c)
    (hI : I ⟨heap, []⟩) : c.live = CallLog.liveAfter log := by
  apply h.history (I := fun log c => c.live = CallLog.liveAfter log) rfl
  rintro log c ⟨e, r⟩ c' hrun hlive ⟨hst, hanswer⟩
  have hc : I c := (Client.run_of_told hrun).preserves hstep hI
  rw [CallLog.liveAfter_snoc, ← hlive]
  dsimp only at hst hanswer
  cases hst with
  | allocNull hn halloc =>
      have hr : r = some 0 := by rw [hanswer, answer, halloc, Option.map_some]
      rw [hr, CallLog.liveStep, if_pos rfl]
  | @allocSome n p _ hn hp halloc =>
      have hr : r = some p := by rw [hanswer, answer, halloc, Option.map_some]
      rw [hr, CallLog.liveStep, if_neg hp]
  | freeNull hfree =>
      -- No live allocation is at null.
      have hnone : c.live.eraseP (fun a => a.ptr = 0) = c.live := by
        apply List.eraseP_of_forall_not
        intro a ha heq
        exact hnull c hc (of_decide_eq_true heq ▸ List.mem_map_of_mem ha)
      exact hnone.symm
  | freeLive ha hfree => exact (eraseP_ptr (hnodup c hc) ha).symm
  | write ha hx => rfl

/-! ## Clients that hold a list -/

open CallLog

/-- A client that holds `held`: its log is a run that ends in `heap`, and what the log says is live
is what it holds. -/
structure Holds (A : Allocator σ) (sizeOk : ℕ → Prop) (heap₀ : σ) (log : CallLog) (heap : σ)
    (held : List Allocation) : Prop where
  run : Run (Client.Told A sizeOk) ⟨heap₀, []⟩ log ⟨heap, liveAfter log⟩
  perm : (liveAfter log).Perm held
  sizes : ∀ a ∈ held, sizeOk a.size
  frees : FreesLive log
  returned : (returned log).Perm (freed log ++ held.map ptr)

namespace Holds

variable {A : Allocator σ} {sizeOk : ℕ → Prop} {lo hi : ℕ} {heap₀ heap heap' : σ} {log : CallLog}
  {held held' : List Allocation}

/-- A client that has made no call. -/
theorem nil : Holds A sizeOk heap₀ [] heap₀ [] :=
  ⟨.nil _, .nil, fun _ ha => absurd ha List.not_mem_nil,
    fun pre _ _ _ heq => absurd heq (by cases pre <;> simp), .nil⟩

/-- The order of the list does not matter. -/
theorem of_perm (h : Holds A sizeOk heap₀ log heap held) (hperm : held.Perm held') :
    Holds A sizeOk heap₀ log heap held' :=
  ⟨h.run, h.perm.trans hperm, fun a ha => h.sizes a (hperm.mem_iff.mpr ha), h.frees,
    h.returned.trans ((hperm.map ptr).append_left _)⟩

/-- What the client holds is safe. -/
theorem safeHeap (h : Holds A sizeOk heap₀ log heap held) (hA : Serves A sizeOk lo hi heap₀) :
    SafeHeap lo hi (liveAfter log) :=
  hA.safe _ _ (Client.run_of_told h.run)

/-- **What the client holds fits in the region.** -/
theorem total_le (h : Holds A sizeOk heap₀ log heap held) (hA : Serves A sizeOk lo hi heap₀) :
    total held ≤ hi - lo := by
  rw [← total_perm h.perm]
  exact (h.safeHeap hA).total_le

/-- A call after which the client holds `held'` raises the peak to that. -/
theorem isPeak_max {m : ℕ} {c : HeapEvent × Option ℕ}
    (h : Holds A sizeOk heap₀ (log ++ [c]) heap held) (hm : IsPeak m log) :
    IsPeak (max m (total held)) (log ++ [c]) := by
  rw [← total_perm h.perm]
  exact hm.snoc

/-- A call that leaves the client with no more than it held keeps the peak. -/
theorem isPeak_of_le {m : ℕ} {c : HeapEvent × Option ℕ}
    (h : Holds A sizeOk heap₀ log heap held) (h' : Holds A sizeOk heap₀ (log ++ [c]) heap' held')
    (hle : total held' ≤ total held) (hm : IsPeak m log) : IsPeak m (log ++ [c]) := by
  rw [← total_perm h'.perm, ← total_perm h.perm] at hle
  exact hm.snoc_of_le hle

/-- **A request**: it returns, and the client holds what it is given. -/
theorem alloc (h : Holds A sizeOk heap₀ log heap held) (hA : Serves A sizeOk lo hi heap₀) {n : ℕ}
    (hn : sizeOk n) : ∃ p heap', A.alloc heap n = some (p, heap') ∧
      (p = 0 → Holds A sizeOk heap₀ (log ++ [(.alloc n, some p)]) heap' held) ∧
      (p ≠ 0 → Holds A sizeOk heap₀ (log ++ [(.alloc n, some p)]) heap' (⟨p, n⟩ :: held)) := by
  obtain ⟨⟨p, heap'⟩, halloc⟩ :=
    Option.isSome_iff_exists.mp (hA.allocReturns _ _ n (Client.run_of_told h.run) hn)
  have hanswer : some p = Client.answer A ⟨heap, liveAfter log⟩ (.alloc n) := by
    rw [Client.answer, halloc]
    rfl
  have hfrees : FreesLive (log ++ [(.alloc n, some p)]) := h.frees.snoc fun q r heq => by cases heq
  refine ⟨p, heap', halloc, ?_, ?_⟩
  · -- A null answer changes nothing but the log.
    intro hp
    have hlive : liveAfter (log ++ [(.alloc n, some p)]) = liveAfter log := by
      rw [liveAfter_snoc, liveStep, if_pos hp]
    refine ⟨?_, hlive ▸ h.perm, h.sizes, hfrees, ?_⟩
    · rw [hlive]
      exact h.run.snoc ⟨.allocNull hn (hp ▸ halloc), hanswer⟩
    · simpa [CallLog.returned, freed, hp] using h.returned
  · intro hp
    have hlive : liveAfter (log ++ [(.alloc n, some p)]) = ⟨p, n⟩ :: liveAfter log := by
      rw [liveAfter_snoc, liveStep, if_neg hp]
    refine ⟨?_, hlive ▸ h.perm.cons _, ?_, hfrees, ?_⟩
    · rw [hlive]
      exact h.run.snoc ⟨.allocSome hn hp halloc, hanswer⟩
    · intro a ha
      rcases List.mem_cons.mp ha with rfl | ha
      · exact hn
      · exact h.sizes a ha
    · have hmid := (List.perm_append_singleton p (CallLog.returned log)).trans (h.returned.cons p)
      have hswap := hmid.trans List.perm_middle.symm
      simpa [CallLog.returned, freed, hp] using hswap

/-- **A release**: it returns, and the client no longer holds the allocation. -/
theorem free (h : Holds A sizeOk heap₀ log heap held) (hA : Serves A sizeOk lo hi heap₀)
    (hpos : ∀ n, sizeOk n → 0 < n) {a : Allocation} (ha : a ∈ held) :
    ∃ heap', A.free heap a.ptr = some heap' ∧
      Holds A sizeOk heap₀ (log ++ [(.free a.ptr, none)]) heap' (held.erase a) := by
  have hmem : a ∈ liveAfter log := h.perm.mem_iff.mpr ha
  obtain ⟨heap', hfree⟩ :=
    Option.isSome_iff_exists.mp (hA.freeReturns _ _ (Client.run_of_told h.run) a hmem)
  -- Without empty allocations no two share a pointer, so the call takes away `a` and nothing else.
  have hnd := (h.safeHeap hA).nodup_ptr fun b hb => hpos _ (h.sizes b (h.perm.mem_iff.mp hb))
  have hlive : liveAfter (log ++ [(.free a.ptr, none)]) = (liveAfter log).erase a := by
    rw [liveAfter_snoc, liveStep, eraseP_ptr hnd hmem]
  refine ⟨heap', hfree, ?_, ?_, fun b hb => h.sizes b (List.mem_of_mem_erase hb), ?_, ?_⟩
  · rw [hlive]
    exact h.run.snoc ⟨.freeLive hmem hfree, rfl⟩
  · rw [hlive]
    exact h.perm.erase a
  · apply h.frees.snoc
    intro p r heq
    cases heq
    exact List.mem_map_of_mem hmem
  · have hperm : (held.map ptr).Perm (a.ptr :: (held.erase a).map ptr) :=
      (List.perm_cons_erase ha).map ptr
    have hreturned := h.returned.trans (hperm.append_left (freed log))
    simpa [CallLog.returned, freed] using hreturned

end Holds
