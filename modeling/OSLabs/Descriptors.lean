/-
# Descriptor tables

What the descriptors of a process stand for, with `close`, `dup2`, `open` and `pipe` as the
system does them: a new descriptor is the lowest one that is free.  A table is `Wired` by a
relation that says which descriptors stand for the ends of which pipes; each call changes the
relation in its own way.  Nothing here mentions a program.
-/
import Mathlib

/-- The two ends of a pipe, as `pipe` numbers them. -/
inductive PipeEnd where
  | read
  | write
  deriving DecidableEq, Repr

/-- What an open descriptor stands for: an end of a pipe, or some other file. -/
inductive OpenFile (ι φ : Type*) where
  | pipe (i : ι) (e : PipeEnd)
  | file (f : φ)
  deriving DecidableEq, Repr

/-- The descriptors of a process, of which there may be at most `n`. -/
abbrev DescriptorTable (n : ℕ) (ι φ : Type*) : Type _ := Fin n → Option (OpenFile ι φ)

namespace DescriptorTable

variable {n : ℕ} {ι φ : Type*}

/-- No descriptor is open. -/
def empty : DescriptorTable n ι φ := fun _ => none

def close (t : DescriptorTable n ι φ) (fd : Fin n) : DescriptorTable n ι φ :=
  Function.update t fd none

/-- What `old` stands for, `new` stands for too; `new` is closed first if it is open. -/
def dup2 (t : DescriptorTable n ι φ) (old new : Fin n) : DescriptorTable n ι φ :=
  match t old with
  | none => t
  | some f => Function.update t new (some f)

/-- The lowest descriptor that is free. -/
def lowest (t : DescriptorTable n ι φ) : Option (Fin n) :=
  (List.finRange n).find? fun fd => (t fd).isNone

/-- A new descriptor for an open file. -/
def install (t : DescriptorTable n ι φ) (f : OpenFile ι φ) :
    Option (Fin n × DescriptorTable n ι φ) :=
  t.lowest.map fun fd => (fd, Function.update t fd (some f))

/-- The two ends of a new pipe. -/
def pipe (t : DescriptorTable n ι φ) (i : ι) :
    Option ((PipeEnd → Fin n) × DescriptorTable n ι φ) :=
  match t.install (.pipe i .read) with
  | none => none
  | some (r, t) =>
    match t.install (.pipe i .write) with
    | none => none
    | some (w, t) =>
      some (fun e => match e with | .read => r | .write => w, t)

/-- Some descriptor stands for the file. -/
def Holds (t : DescriptorTable n ι φ) (f : OpenFile ι φ) : Prop := ∃ fd, t fd = some f

instance [DecidableEq ι] [DecidableEq φ] (t : DescriptorTable n ι φ) (f : OpenFile ι φ) :
    Decidable (t.Holds f) :=
  inferInstanceAs (Decidable (∃ fd : Fin n, t fd = some f))

/-- The ends of pipes that the descriptors stand for. -/
def Wired (t : DescriptorTable n ι φ) (P : Fin n → ι → PipeEnd → Prop) : Prop :=
  ∀ fd i e, t fd = some (.pipe i e) ↔ P fd i e

section Wiring

variable {t t' : DescriptorTable n ι φ} {P Q : Fin n → ι → PipeEnd → Prop} {fd : Fin n} {i : ι}

theorem wired_empty : (empty : DescriptorTable n ι φ).Wired fun _ _ _ => False := by
  intro fd i e
  constructor
  · intro h
    cases h
  · exact False.elim

theorem Wired.congr (h : t.Wired P) (hP : ∀ fd i e, P fd i e ↔ Q fd i e) : t.Wired Q := by
  intro fd i e
  exact (h fd i e).trans (hP fd i e)

/-- A table holds an end of a pipe if its wiring does. -/
theorem Wired.holds_iff (h : t.Wired P) (i : ι) (e : PipeEnd) :
    t.Holds (.pipe i e) ↔ ∃ fd, P fd i e := by
  unfold Holds
  exact exists_congr fun fd => h fd i e

/-- **One descriptor changes.** -/
theorem Wired.update (h : t.Wired P) (fd : Fin n) (f : Option (OpenFile ι φ)) :
    Wired (Function.update t fd f) fun x i e =>
      (x = fd ∧ f = some (.pipe i e)) ∨ (x ≠ fd ∧ P x i e) := by
  intro x i e
  by_cases hx : x = fd
  · subst hx
    rw [Function.update_self]
    simp
  · rw [Function.update_of_ne hx, h x i e]
    simp [hx]

/-- **close**: the descriptor stands for nothing. -/
theorem Wired.close (h : t.Wired P) (fd : Fin n) :
    (t.close fd).Wired fun x i e => x ≠ fd ∧ P x i e := by
  apply (h.update fd none).congr
  intro x i e
  simp

/-- **dup2** of an end of a pipe. -/
theorem Wired.dup2 (h : t.Wired P) {old : Fin n} {j : ι} {e : PipeEnd} (hold : P old j e)
    (new : Fin n) :
    (t.dup2 old new).Wired fun x i e' => (x = new ∧ i = j ∧ e' = e) ∨ (x ≠ new ∧ P x i e') := by
  have hfile := (h old j e).mpr hold
  unfold DescriptorTable.dup2
  rw [hfile]
  apply (h.update new (some (.pipe j e))).congr
  intro x i e'
  simp only [Option.some.injEq, OpenFile.pipe.injEq, eq_comm]

theorem free_of_lowest (h : t.lowest = some fd) : t fd = none := by
  have hnone := List.find?_some h
  exact Option.isNone_iff_eq_none.mp hnone

/-- A new descriptor was free. -/
theorem install_eq_some {f : OpenFile ι φ} (h : t.install f = some (fd, t')) :
    t fd = none ∧ t' = Function.update t fd (some f) := by
  unfold install at h
  cases hlow : t.lowest with
  | none =>
    rw [hlow] at h
    cases h
  | some x =>
    rw [hlow] at h
    obtain ⟨rfl, rfl⟩ := Prod.mk.inj (Option.some.inj h)
    exact ⟨free_of_lowest hlow, rfl⟩

/-- A file that is no pipe changes no wiring. -/
theorem Wired.install_file (h : t.Wired P) {f : φ} (ht : t.install (.file f) = some (fd, t')) :
    t'.Wired P := by
  obtain ⟨hfree, rfl⟩ := install_eq_some ht
  apply (h.update fd (some (.file f))).congr
  intro x i e
  constructor
  · rintro (⟨-, hf⟩ | ⟨-, hP⟩)
    · cases hf
    · exact hP
  · intro hP
    right
    refine ⟨?_, hP⟩
    rintro rfl
    rw [(h x i e).mpr hP] at hfree
    cases hfree

/-- The two descriptors of a new pipe are different, and were free. -/
theorem pipe_eq_some {fds : PipeEnd → Fin n} (h : t.pipe i = some (fds, t')) :
    (∀ e, t (fds e) = none) ∧ fds .read ≠ fds .write ∧
      t' = Function.update (Function.update t (fds .read) (some (.pipe i .read))) (fds .write)
        (some (.pipe i .write)) := by
  unfold pipe at h
  cases hr : t.install (.pipe i .read) with
  | none =>
    rw [hr] at h
    cases h
  | some first =>
    obtain ⟨r, t₁⟩ := first
    rw [hr] at h
    dsimp only at h
    obtain ⟨hfree, rfl⟩ := install_eq_some hr
    cases hw : install (Function.update t r (some (.pipe i .read))) (.pipe i .write) with
    | none =>
      rw [hw] at h
      cases h
    | some second =>
      obtain ⟨w, t₂⟩ := second
      rw [hw] at h
      dsimp only at h
      obtain ⟨hfree', rfl⟩ := install_eq_some hw
      obtain ⟨rfl, rfl⟩ := Prod.mk.inj (Option.some.inj h)
      -- The read end has its descriptor by now, so the write end gets another one.
      have hne : w ≠ r := by
        rintro rfl
        rw [Function.update_self] at hfree'
        cases hfree'
      rw [Function.update_of_ne hne] at hfree'
      refine ⟨?_, hne.symm, rfl⟩
      intro e
      cases e with
      | read => exact hfree
      | write => exact hfree'

/-- **pipe**: two descriptors stand for the ends of the new pipe. -/
theorem Wired.pipe (h : t.Wired P) {fds : PipeEnd → Fin n} (ht : t.pipe i = some (fds, t')) :
    t'.Wired fun x j e => (j = i ∧ x = fds e) ∨ P x j e := by
  obtain ⟨hfree, hne, rfl⟩ := pipe_eq_some ht
  have hnew : ∀ e x j e', P x j e' → x ≠ fds e := by
    intro e x j e' hP hx
    have hnone := hfree e
    rw [← hx, (h x j e').mpr hP] at hnone
    cases hnone
  apply ((h.update (fds .read) _).update (fds .write) _).congr
  intro x j e
  have hr := hnew .read x j e
  have hw := hnew .write x j e
  cases e <;> grind

end Wiring

end DescriptorTable
