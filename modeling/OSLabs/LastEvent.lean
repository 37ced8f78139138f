/-
# The last event of a kind

A log lists what happened, the oldest first.  What matters is often the last entry of some kind:
its value is what a map holds that every such entry overwrites.  Where the kind of an event
depends on the state in front of it, the history of the system tells which events are of the kind.
One more event of the kind is the last one; any other leaves the last one as it was.  Nothing here
mentions a program.
-/
import OSLabs.LabelledRuns

/-! ## The last write in a log -/

section Log

variable {α β : Type*}

/-- The value of the last entry of the log that satisfies `p`. -/
def lastWrite (p : α → Bool) (f : α → β) (log : List α) : Option β :=
  ((log.filter p).getLast?).map f

namespace lastWrite

variable {p q : α → Bool} {f : α → β} {log : List α} {x : α}

@[simp] theorem nil : lastWrite p f [] = none := rfl

theorem append_of_pos (h : p x = true) : lastWrite p f (log ++ [x]) = some (f x) := by
  unfold lastWrite
  rw [List.filter_append, List.filter_singleton, h, cond_true, List.getLast?_concat]
  rfl

theorem append_of_neg (h : p x = false) : lastWrite p f (log ++ [x]) = lastWrite p f log := by
  unfold lastWrite
  rw [List.filter_append, List.filter_singleton, h, cond_false, List.append_nil]

/-- Entries that can not be the last write may be left out. -/
theorem filter_eq (h : ∀ x, p x = true → q x = true) :
    lastWrite p f (log.filter q) = lastWrite p f log := by
  unfold lastWrite
  rw [List.filter_filter]
  congr 2
  apply List.filter_congr
  intro x _
  cases hp : p x with
  | true => rw [h x hp]; rfl
  | false => rfl

end lastWrite

/-- An entry of a filtered log stands in the log behind the same entries. -/
theorem exists_split_of_filter {q : α → Bool} {log a b : List α} {x : α}
    (h : log.filter q = a ++ x :: b) :
    ∃ pre post, log = pre ++ x :: post ∧ pre.filter q = a := by
  obtain ⟨l₁, l₂, rfl, h₁, h₂⟩ := List.filter_eq_append_iff.mp h
  obtain ⟨l₃, l₄, rfl, h₃, -, -⟩ := List.filter_eq_cons_iff.mp h₂
  refine ⟨l₁ ++ l₃, l₄, by simp, ?_⟩
  rw [List.filter_append, h₁, List.filter_eq_nil_iff.mpr h₃, List.append_nil]

end Log

/-! ## The last event in a history -/

namespace History

variable {σ ε : Type*} (next : σ → ε → σ) (s₀ : σ) (P : σ → ε → Prop)

/-- The state in front of the event number `k`. -/
def stateAt (es : List ε) (k : ℕ) : σ := (es.take k).foldl next s₀

/-- The event number `k` is of the kind `P`. -/
def HappensAt (es : List ε) (k : ℕ) : Prop := ∃ e, es[k]? = some e ∧ P (stateAt next s₀ es k) e

/-- The event number `k` is the last one of the kind `P`. -/
def LastAt (es : List ε) (k : ℕ) : Prop :=
  HappensAt next s₀ P es k ∧ ∀ j, k < j → ¬ HappensAt next s₀ P es j

variable {next s₀ P} {es : List ε} {e : ε} {k : ℕ}

theorem stateAt_length : stateAt next s₀ es es.length = es.foldl next s₀ := by
  unfold stateAt
  rw [List.take_length]

/-- An event more does not change what was before. -/
theorem stateAt_snoc (hk : k ≤ es.length) : stateAt next s₀ (es ++ [e]) k = stateAt next s₀ es k := by
  unfold stateAt
  rw [List.take_append_of_le_length hk]

theorem happensAt_snoc_of_lt (hk : k < es.length) :
    HappensAt next s₀ P (es ++ [e]) k ↔ HappensAt next s₀ P es k := by
  unfold HappensAt
  rw [stateAt_snoc hk.le, List.getElem?_append_left hk]

theorem happensAt_snoc_length :
    HappensAt next s₀ P (es ++ [e]) es.length ↔ P (es.foldl next s₀) e := by
  unfold HappensAt
  rw [stateAt_snoc le_rfl, stateAt_length, List.getElem?_concat_length]
  simp

theorem lt_of_happensAt (h : HappensAt next s₀ P es k) : k < es.length := by
  obtain ⟨e, he, -⟩ := h
  exact (List.getElem?_eq_some_iff.mp he).1

theorem not_lastAt_nil : ¬ LastAt next s₀ P [] k := fun h => absurd (lt_of_happensAt h.1) k.not_lt_zero

/-- **The last event of a kind, after one more event.** -/
theorem lastAt_snoc :
    LastAt next s₀ P (es ++ [e]) k ↔
      (k = es.length ∧ P (es.foldl next s₀) e) ∨
        (¬ P (es.foldl next s₀) e ∧ LastAt next s₀ P es k) := by
  constructor
  · rintro ⟨hk, hlast⟩
    have hlt := lt_of_happensAt hk
    rw [List.length_append, List.length_singleton] at hlt
    by_cases heq : k = es.length
    · subst heq
      exact Or.inl ⟨rfl, happensAt_snoc_length.mp hk⟩
    · have hlt' : k < es.length := by omega
      refine Or.inr ⟨fun he => hlast es.length hlt' (happensAt_snoc_length.mpr he),
        (happensAt_snoc_of_lt hlt').mp hk, ?_⟩
      intro j hj hhappens
      exact hlast j hj ((happensAt_snoc_of_lt (lt_of_happensAt hhappens)).mpr hhappens)
  · rintro (⟨rfl, he⟩ | ⟨hno, hk, hlast⟩)
    · refine ⟨happensAt_snoc_length.mpr he, ?_⟩
      intro j hj hhappens
      have hlt := lt_of_happensAt hhappens
      rw [List.length_append, List.length_singleton] at hlt
      omega
    · have hlt := lt_of_happensAt hk
      refine ⟨(happensAt_snoc_of_lt hlt).mpr hk, ?_⟩
      intro j hj hhappens
      have hlt' := lt_of_happensAt hhappens
      rw [List.length_append, List.length_singleton] at hlt'
      by_cases heq : j = es.length
      · -- The new event is not of the kind.
        subst heq
        exact hno (happensAt_snoc_length.mp hhappens)
      · exact hlast j hj ((happensAt_snoc_of_lt (by omega)).mp hhappens)

end History
