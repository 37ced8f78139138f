/-
# Lists threaded in both directions

`Threaded key node p l n` says that every element of `l` stands in the relation
`node` to the keys of its two neighbours, where `p` and `n` are the keys before and
after the list.  With keys for addresses and `node` for "the header at this address
holds these links" it is a doubly linked list segment.
-/
import Mathlib

variable {α β : Type*}

/-- The key of the first element of a list, or `n` when it has none. -/
def firstKey (key : β → α) (n : α) : List β → α
  | [] => n
  | b :: _ => key b

/-- The key of the last element of a list, or `p` when it has none. -/
def lastKey (key : β → α) : (p : α) → List β → α
  | p, [] => p
  | _, b :: l => lastKey key (key b) l

@[simp] theorem firstKey_nil (key : β → α) (n : α) : firstKey key n [] = n := rfl

@[simp] theorem firstKey_cons (key : β → α) (n : α) (b : β) (l : List β) :
    firstKey key n (b :: l) = key b := rfl

@[simp] theorem lastKey_nil (key : β → α) (p : α) : lastKey key p [] = p := rfl

@[simp] theorem lastKey_cons (key : β → α) (p : α) (b : β) (l : List β) :
    lastKey key p (b :: l) = lastKey key (key b) l := rfl

theorem firstKey_append (key : β → α) (n : α) (l₁ l₂ : List β) :
    firstKey key n (l₁ ++ l₂) = firstKey key (firstKey key n l₂) l₁ := by
  cases l₁ <;> rfl

theorem lastKey_append (key : β → α) (p : α) (l₁ l₂ : List β) :
    lastKey key p (l₁ ++ l₂) = lastKey key (lastKey key p l₁) l₂ := by
  induction l₁ generalizing p with
  | nil => rfl
  | cons b l₁ ih => exact ih (key b)

/-- Every element is in the relation `node` to its neighbours' keys. -/
def Threaded (key : β → α) (node : α → β → α → Prop) : (p : α) → List β → (n : α) → Prop
  | _, [], _ => True
  | p, b :: l, n => node p b (firstKey key n l) ∧ Threaded key node (key b) l n

namespace Threaded

variable {key : β → α} {node node' : α → β → α → Prop} {p n : α} {l l₁ l₂ : List β}

@[simp] theorem nil_iff : Threaded key node p [] n ↔ True := Iff.rfl

@[simp] theorem cons_iff {b : β} :
    Threaded key node p (b :: l) n ↔
      node p b (firstKey key n l) ∧ Threaded key node (key b) l n := Iff.rfl

/-- A threaded list splits at every position. -/
theorem append_iff :
    Threaded key node p (l₁ ++ l₂) n ↔
      Threaded key node p l₁ (firstKey key n l₂) ∧
        Threaded key node (lastKey key p l₁) l₂ n := by
  induction l₁ generalizing p with
  | nil => simp
  | cons b l₁ ih => simp [ih, firstKey_append, and_assoc]

/-- **Frame rule.**  What holds of the elements one by one may be exchanged. -/
theorem imp (h : Threaded key node p l n)
    (himp : ∀ b ∈ l, ∀ p n, node p b n → node' p b n) : Threaded key node' p l n := by
  induction l generalizing p with
  | nil => trivial
  | cons b l ih =>
      exact ⟨himp b List.mem_cons_self _ _ h.1,
        ih h.2 fun c hc => himp c (List.mem_cons_of_mem b hc)⟩

end Threaded
