/-
# Singly linked chains

`Linked next h l t` says that following the link function `next` from the pointer
`h` visits exactly the nodes of `l`, in order, and then stands at the pointer `t`.
A null-terminated list is a chain that ends at `none`.  The lemmas are the three
edits every list program makes (push, insert after a node, cut a segment out),
the frame rule, and the fact that a null-terminated chain is unique and has no
repeated node.
-/
import Mathlib

variable {α : Type*}

/-! ## Chains -/

/-- The nodes met by following `next` from `h` are `l`, and `t` comes after them. -/
def Linked (next : α → Option α) : Option α → List α → Option α → Prop
  | h, [], t => h = t
  | h, a :: l, t => h = some a ∧ Linked next (next a) l t

namespace Linked

variable {next next' : α → Option α} {h t : Option α} {l : List α}

@[simp] theorem nil_iff : Linked next h [] t ↔ h = t := Iff.rfl

@[simp] theorem cons_iff {a : α} :
    Linked next h (a :: l) t ↔ h = some a ∧ Linked next (next a) l t := Iff.rfl

/-- A chain splits at every position. -/
theorem append_iff {l₁ l₂ : List α} :
    Linked next h (l₁ ++ l₂) t ↔ ∃ m, Linked next h l₁ m ∧ Linked next m l₂ t := by
  induction l₁ generalizing h with
  | nil => simp
  | cons a l₁ ih => simp [ih, and_assoc]

/-- **Frame rule.**  A chain only reads the links of its own nodes. -/
theorem congr (hl : Linked next h l t) (heq : ∀ a ∈ l, next' a = next a) :
    Linked next' h l t := by
  induction l generalizing h with
  | nil => exact hl
  | cons a l ih =>
      obtain ⟨hh, hrest⟩ := hl
      refine ⟨hh, ?_⟩
      rw [heq a List.mem_cons_self]
      exact ih hrest fun b hb => heq b (List.mem_cons_of_mem a hb)

/-- Relinking a node outside a chain leaves the chain alone. -/
theorem update_of_notMem [DecidableEq α] {a : α} {v : Option α} (hl : Linked next h l t)
    (ha : a ∉ l) : Linked (Function.update next a v) h l t := by
  apply hl.congr
  intro b hb
  have hba : b ≠ a := fun hba => ha (hba ▸ hb)
  rw [Function.update_of_ne hba]

/-! ## Null-terminated chains -/

/-- A pointer starts at most one null-terminated chain. -/
theorem unique {l' : List α} (hl : Linked next h l none) (hl' : Linked next h l' none) :
    l = l' := by
  induction l generalizing h l' with
  | nil =>
      cases l' with
      | nil => rfl
      | cons b l' =>
          rw [nil_iff] at hl
          rw [hl] at hl'
          simp at hl'
  | cons a l ih =>
      obtain ⟨rfl, hrest⟩ := hl
      cases l' with
      | nil => simp at hl'
      | cons b l' =>
          obtain ⟨hab, hrest'⟩ := hl'
          cases hab
          rw [ih hrest hrest']

/-- A null-terminated chain repeats no node: it is finite and acyclic. -/
theorem nodup (hl : Linked next h l none) : l.Nodup := by
  induction l generalizing h with
  | nil => exact List.nodup_nil
  | cons a l ih =>
      refine List.nodup_cons.mpr ⟨fun ha => ?_, ih hl.2⟩
      -- a second visit to `a` would start a shorter chain from the same pointer
      obtain ⟨l₁, l₂, rfl⟩ := List.append_of_mem ha
      obtain ⟨m, -, hm⟩ := append_iff.mp hl.2
      have hsame : a :: (l₁ ++ a :: l₂) = a :: l₂ :=
        hl.unique ⟨hl.1, hm.2⟩
      have hlen := congrArg List.length hsame
      simp only [List.length_cons, List.length_append] at hlen
      omega

/-- The start of a null-terminated chain is its first node. -/
theorem start_eq_head? (hl : Linked next h l none) : h = l.head? := by
  cases l with
  | nil => exact hl
  | cons a l => exact hl.1

/-- Two null-terminated chains through the same nodes use the same links. -/
theorem links_eq {h' : Option α} (hl : Linked next h l none) (hl' : Linked next' h' l none) :
    ∀ a ∈ l, next a = next' a := by
  induction l generalizing h h' with
  | nil => exact fun a ha => absurd ha List.not_mem_nil
  | cons b l ih =>
      intro a ha
      rcases List.mem_cons.mp ha with rfl | ha
      · rw [hl.2.start_eq_head?, hl'.2.start_eq_head?]
      · exact ih hl.2 hl'.2 a ha

/-! ## Edits -/

section Edits

variable [DecidableEq α] {l₁ l₂ run : List α} {a b : α}

/-- Push a node in front of a list. -/
theorem push (hl : Linked next h l none) (ha : a ∉ l) :
    Linked (Function.update next a h) (some a) (a :: l) none := by
  refine ⟨rfl, ?_⟩
  rw [Function.update_self]
  exact hl.update_of_notMem ha

/-- Insert the node `b` after the node `a` of a list. -/
theorem insert_after (hl : Linked next h (l₁ ++ a :: l₂) none) (hb : b ∉ l₁ ++ a :: l₂) :
    Linked (Function.update (Function.update next b (next a)) a (some b)) h
      (l₁ ++ a :: b :: l₂) none := by
  have hnd := hl.nodup
  rw [List.nodup_append, List.nodup_cons] at hnd
  have hal₁ : a ∉ l₁ := fun ha => hnd.2.2 a ha a List.mem_cons_self rfl
  have hba : b ≠ a := fun hba => hb (by simp [hba])
  obtain ⟨m, h₁, h₂⟩ := append_iff.mp hl
  have hb₁ : b ∉ l₁ := fun h => hb (List.mem_append_left _ h)
  have hb₂ : b ∉ l₂ := fun h => hb (List.mem_append_right _ (List.mem_cons_of_mem a h))
  refine append_iff.mpr ⟨m, (h₁.update_of_notMem hb₁).update_of_notMem hal₁, h₂.1, ?_⟩
  rw [Function.update_self]
  refine ⟨rfl, ?_⟩
  rw [Function.update_of_ne hba, Function.update_self]
  exact (h₂.2.update_of_notMem hb₂).update_of_notMem hnd.2.1.1

/-- Cut the segment `run` out of a list by relinking the node before it. -/
theorem cut_after {m : Option α} (hl : Linked next h (l₁ ++ a :: (run ++ l₂)) none)
    (hm : Linked next m l₂ none) :
    Linked (Function.update next a m) h (l₁ ++ a :: l₂) none := by
  have hnd := hl.nodup
  rw [List.nodup_append, List.nodup_cons] at hnd
  have hal₁ : a ∉ l₁ := fun ha => hnd.2.2 a ha a List.mem_cons_self rfl
  have hal₂ : a ∉ l₂ := fun ha => hnd.2.1.1 (List.mem_append_right _ ha)
  obtain ⟨m', h₁, h₂⟩ := append_iff.mp hl
  refine append_iff.mpr ⟨m', h₁.update_of_notMem hal₁, h₂.1, ?_⟩
  rw [Function.update_self]
  exact hm.update_of_notMem hal₂

end Edits

end Linked
