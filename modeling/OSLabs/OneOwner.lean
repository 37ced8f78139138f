/-
# Handles with one owner

Handles of one kind, numbered as they are made: which were released, and who holds which.  A ledger
is `Exact` when every handle made has one owner or was released once.  Making a handle, releasing
the handle of an owner and handing it over are its `Moves`; they keep it exact.  Nothing here
mentions a program.
-/
import Mathlib

/-- The handles made so far, those that were released, and who holds which. -/
structure OneOwner (ω : Type*) where
  made : ℕ
  released : List ℕ
  held : ω → Option ℕ

namespace OneOwner

variable {ω : Type*} [DecidableEq ω]

/-- A new handle for the owner `o`. -/
def make (l : OneOwner ω) (o : ω) : OneOwner ω :=
  ⟨l.made + 1, l.released, Function.update l.held o (some l.made)⟩

/-- The owner `o` releases its handle, if it has one. -/
def release (l : OneOwner ω) (o : ω) : OneOwner ω :=
  ⟨l.made, l.released ++ (l.held o).toList, Function.update l.held o none⟩

/-- The owner `o` hands its handle over to `o'`. -/
def handOver (l : OneOwner ω) (o o' : ω) : OneOwner ω :=
  ⟨l.made, l.released, Function.update (Function.update l.held o none) o' (l.held o)⟩

/-- What may be done with handles. -/
inductive Moves (l : OneOwner ω) : OneOwner ω → Prop
  | make {o : ω} (ho : l.held o = none) : Moves l (l.make o)
  | release (o : ω) : Moves l (l.release o)
  | handOver {o o' : ω} (ho' : l.held o' = none) (hne : o ≠ o') : Moves l (l.handOver o o')

/-- Every handle has one owner, or was released once. -/
structure Exact (l : OneOwner ω) : Prop where
  once : l.released.Nodup
  released_lt : ∀ c ∈ l.released, c < l.made
  held_lt : ∀ o c, l.held o = some c → c < l.made
  kept : ∀ o c, l.held o = some c → c ∉ l.released
  owner : ∀ o o' c, l.held o = some c → l.held o' = some c → o = o'
  covered : ∀ c < l.made, c ∈ l.released ∨ ∃ o, l.held o = some c

variable {l l' : OneOwner ω} {o o' : ω}

@[simp] theorem held_make : (l.make o).held = Function.update l.held o (some l.made) := rfl

@[simp] theorem held_release : (l.release o).held = Function.update l.held o none := rfl

@[simp] theorem released_release : (l.release o).released = l.released ++ (l.held o).toList := rfl

@[simp] theorem held_handOver : (l.handOver o o').held =
    Function.update (Function.update l.held o none) o' (l.held o) := rfl

omit [DecidableEq ω] in
/-- Nothing is made yet. -/
theorem exact_empty : Exact (⟨0, [], fun _ => none⟩ : OneOwner ω) := by
  constructor
  · exact List.nodup_nil
  · intro c hc
    cases hc
  · intro o c hc
    cases hc
  · intro o c hc
    cases hc
  · intro o o' c hc
    cases hc
  · intro c hc
    exact absurd hc (Nat.not_lt_zero c)

/-- **Make.** -/
theorem Exact.make (h : l.Exact) (ho : l.held o = none) : (l.make o).Exact := by
  -- what an owner holds is the new copy or one it held before
  have hheld : ∀ p c, (l.make o).held p = some c → (p = o ∧ c = l.made) ∨ (p ≠ o ∧ l.held p = some c) := by
    intro p c hp
    by_cases hpo : p = o
    · subst hpo
      rw [held_make, Function.update_self] at hp
      exact .inl ⟨rfl, (Option.some_inj.mp hp).symm⟩
    · rw [held_make, Function.update_of_ne hpo] at hp
      exact .inr ⟨hpo, hp⟩
  constructor
  · exact h.once
  · intro c hc
    exact Nat.lt_succ_of_lt (h.released_lt c hc)
  · intro p c hp
    rcases hheld p c hp with ⟨-, rfl⟩ | ⟨-, hp⟩
    · exact Nat.lt_succ_self _
    · exact Nat.lt_succ_of_lt (h.held_lt p c hp)
  · intro p c hp hc
    rcases hheld p c hp with ⟨-, rfl⟩ | ⟨-, hp⟩
    · exact absurd (h.released_lt _ hc) (Nat.lt_irrefl _)
    · exact h.kept p c hp hc
  · intro p p' c hp hp'
    rcases hheld p c hp with ⟨rfl, rfl⟩ | ⟨-, hp⟩
    · rcases hheld p' _ hp' with ⟨rfl, -⟩ | ⟨-, hp'⟩
      · rfl
      · exact absurd (h.held_lt p' _ hp') (Nat.lt_irrefl _)
    · rcases hheld p' c hp' with ⟨-, rfl⟩ | ⟨-, hp'⟩
      · exact absurd (h.held_lt p _ hp) (Nat.lt_irrefl _)
      · exact h.owner p p' c hp hp'
  · -- the copies made: the new one has its owner, the others as before
    intro c hc
    rcases Nat.lt_succ_iff_lt_or_eq.mp hc with hc | rfl
    · rcases h.covered c hc with hrel | ⟨p, hp⟩
      · exact .inl hrel
      · have hpo : p ≠ o := by
          rintro rfl
          rw [ho] at hp
          cases hp
        exact .inr ⟨p, (Function.update_of_ne hpo _ _).trans hp⟩
    · exact .inr ⟨o, Function.update_self _ _ _⟩

/-- **Release.** -/
theorem Exact.release (h : l.Exact) (o : ω) : (l.release o).Exact := by
  have hheld : ∀ p c, (l.release o).held p = some c → p ≠ o ∧ l.held p = some c := by
    intro p c hp
    by_cases hpo : p = o
    · subst hpo
      rw [held_release, Function.update_self] at hp
      cases hp
    · rw [held_release, Function.update_of_ne hpo] at hp
      exact ⟨hpo, hp⟩
  have hreleased : ∀ c, c ∈ (l.release o).released ↔ c ∈ l.released ∨ l.held o = some c := by
    intro c
    rw [released_release, List.mem_append, Option.mem_toList]
  constructor
  · apply h.once.append
    · cases l.held o with
      | none => exact List.nodup_nil
      | some c => exact List.nodup_singleton c
    · intro c hc hc'
      rw [Option.mem_toList] at hc'
      exact h.kept o c hc' hc
  · intro c hc
    rcases (hreleased c).mp hc with hc | hc
    · exact h.released_lt c hc
    · exact h.held_lt o c hc
  · intro p c hp
    exact h.held_lt p c (hheld p c hp).2
  · intro p c hp hc
    obtain ⟨hpo, hp⟩ := hheld p c hp
    rcases (hreleased c).mp hc with hc | hc
    · exact h.kept p c hp hc
    · exact hpo (h.owner p o c hp hc)
  · intro p p' c hp hp'
    exact h.owner p p' c (hheld p c hp).2 (hheld p' c hp').2
  · intro c hc
    rcases h.covered c hc with hrel | ⟨p, hp⟩
    · exact .inl ((hreleased c).mpr (.inl hrel))
    · by_cases hpo : p = o
      · subst hpo
        exact .inl ((hreleased c).mpr (.inr hp))
      · exact .inr ⟨p, (Function.update_of_ne hpo _ _).trans hp⟩

/-- **Hand over**, to somebody who holds nothing. -/
theorem Exact.handOver (h : l.Exact) (ho' : l.held o' = none) (hne : o ≠ o') :
    (l.handOver o o').Exact := by
  -- The new owner stands for the old one.
  have hheld : ∀ p c, (l.handOver o o').held p = some c →
      (p = o' ∧ l.held o = some c) ∨ (p ≠ o' ∧ p ≠ o ∧ l.held p = some c) := by
    intro p c hp
    rw [held_handOver] at hp
    by_cases hpo' : p = o'
    · subst hpo'
      rw [Function.update_self] at hp
      exact .inl ⟨rfl, hp⟩
    · rw [Function.update_of_ne hpo'] at hp
      by_cases hpo : p = o
      · subst hpo
        rw [Function.update_self] at hp
        cases hp
      · rw [Function.update_of_ne hpo] at hp
        exact .inr ⟨hpo', hpo, hp⟩
  constructor
  · exact h.once
  · exact h.released_lt
  · intro p c hp
    rcases hheld p c hp with ⟨-, hp⟩ | ⟨-, -, hp⟩
    · exact h.held_lt o c hp
    · exact h.held_lt p c hp
  · intro p c hp
    rcases hheld p c hp with ⟨-, hp⟩ | ⟨-, -, hp⟩
    · exact h.kept o c hp
    · exact h.kept p c hp
  · intro p p' c hp hp'
    rcases hheld p c hp with ⟨hpeq, hold⟩ | ⟨-, hpo, hold⟩
    · rcases hheld p' c hp' with ⟨hpeq', -⟩ | ⟨-, hpo', hold'⟩
      · exact hpeq.trans hpeq'.symm
      · exact absurd (h.owner p' o c hold' hold) hpo'
    · rcases hheld p' c hp' with ⟨-, hold'⟩ | ⟨-, -, hold'⟩
      · exact absurd (h.owner p o c hold hold') hpo
      · exact h.owner p p' c hold hold'
  · intro c hc
    rcases h.covered c hc with hrel | ⟨p, hp⟩
    · exact .inl hrel
    · by_cases hpo : p = o
      · subst hpo
        exact .inr ⟨o', (Function.update_self _ _ _).trans hp⟩
      · have hpo' : p ≠ o' := by
          rintro rfl
          rw [ho'] at hp
          cases hp
        refine .inr ⟨p, ?_⟩
        rw [held_handOver, Function.update_of_ne hpo', Function.update_of_ne hpo]
        exact hp

/-- **Any number of moves** keeps a ledger exact. -/
theorem Exact.moves (h : l.Exact) (hmoves : Relation.ReflTransGen Moves l l') : l'.Exact := by
  induction hmoves with
  | refl => exact h
  | tail _ hmove ih =>
    cases hmove with
    | make ho => exact ih.make ho
    | release o => exact ih.release o
    | handOver ho' hne => exact ih.handOver ho' hne

/-- What was released stays released. -/
theorem released_moves (hmoves : Relation.ReflTransGen Moves l l') : l.released <+: l'.released := by
  induction hmoves with
  | refl => exact List.prefix_rfl
  | tail _ hmove ih =>
    apply ih.trans
    cases hmove with
    | make ho => exact List.prefix_rfl
    | release o => exact List.prefix_append _ _
    | handOver ho' hne => exact List.prefix_rfl

omit [DecidableEq ω] in
/-- Where nobody holds a handle, all are released. -/
theorem Exact.all_released (h : l.Exact) (hnone : ∀ o, l.held o = none) {c : ℕ} (hc : c < l.made) :
    c ∈ l.released := by
  rcases h.covered c hc with hrel | ⟨o, ho⟩
  · exact hrel
  · rw [hnone o] at ho
    cases ho

end OneOwner
