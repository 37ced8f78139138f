/-
# Sections under a semaphore are single steps

What the processes do byte by byte is what they do when a section under a semaphore is one step: the
section of the parent counts when it stores `size`, the section of a child when it sets `size` back
to zero.  Until then nobody else can look at what is half done.
-/
import OSLabs.MappedSlotBytes

namespace MappedSlot

open Chars VowelFilter

namespace Bytes

/-! ## The semaphores -/

section Semaphores

variable {w : World} {f : MappedFile} {c : Child} {m : Mover}

/-- At first nobody holds a semaphore. -/
theorem guarded_initial (stack : Child → Chars) (input : List (Bool × List UInt8)) :
    (initial stack input).Guarded := by
  intro f
  apply Guards.initial
  intro m hm
  cases m with
  | parent => cases hm
  | child c => exact Bool.false_ne_true hm.1

/-- What a step of the parent does to a semaphore. -/
theorem semMove_parent (he : Mover.parent.Enabled w) (f : MappedFile) :
    SemMove (w.sem f) ((parentNext w).sem f) (w.Holds f .parent)
      ((parentNext w).Holds f .parent) := by
  unfold parentNext
  cases hplace : w.parent with
  | reading =>
    cases hinput : w.input with
    | nil => exact .keep rfl (by simp [World.Holds, World.setShared, hplace, ParentPlace.held])
    | cons x input => exact .keep rfl (by simp [World.Holds, hplace, ParentPlace.held])
  | entering below bytes =>
    by_cases hf : target below = f
    · subst hf
      refine .wait (he.2 below bytes hplace) (Function.update_self _ _ _) ?_
      simp [World.Holds, World.semWait, ParentPlace.held]
    · refine .keep (Function.update_of_ne (Ne.symm hf) _ _) ?_
      simp [World.Holds, World.semWait, hplace, ParentPlace.held, hf]
  | copying below bytes copy =>
    dsimp only
    split_ifs
    · exact .keep rfl (by simp [World.Holds, World.setShared, hplace, ParentPlace.held])
    · exact .keep rfl (by simp [World.Holds, hplace, ParentPlace.held])
  | sizing below bytes =>
    exact .keep rfl (by simp [World.Holds, World.setShared, hplace, ParentPlace.held])
  | posting below =>
    by_cases hf : target below = f
    · subst hf
      refine .post (Function.update_self _ _ _) ?_ ?_
      · simp [World.Holds, hplace, ParentPlace.held]
      · simp [World.Holds, World.semPost, ParentPlace.held]
    · refine .keep (Function.update_of_ne (Ne.symm hf) _ _) ?_
      simp [World.Holds, World.semPost, hplace, ParentPlace.held, hf]
  | closing => exact .keep rfl (by simp [World.Holds, World.setShared, hplace, ParentPlace.held])
  | waiting => exact .keep rfl Iff.rfl

/-- What a step of a child does to a semaphore. -/
theorem semMove_child (he : (Mover.child c).Enabled w) (f : MappedFile) :
    SemMove (w.sem f) ((childNext w c).sem f) (w.Holds f (.child c))
      ((childNext w c).Holds f (.child c)) := by
  -- Where the semaphore stays, only the place counts.
  have hkeep : ∀ w' : World, w'.sem = w.sem →
      (w'.child c).place.inside = (w.child c).place.inside →
      SemMove (w.sem f) (w'.sem f) (w.Holds f (.child c)) (w'.Holds f (.child c)) := by
    intro w' hsem hinside
    exact .keep (by rw [hsem]) (by rw [World.Holds, World.Holds, hinside])
  have hset : ∀ q : ChildLocal, q.place.inside = (w.child c).place.inside →
      SemMove (w.sem f) ((w.setChild c q).sem f) (w.Holds f (.child c))
        ((w.setChild c q).Holds f (.child c)) := by
    intro q hq
    exact hkeep _ rfl (by rw [World.setChild_self, hq])
  unfold childNext
  dsimp only
  cases hplace : (w.child c).place with
  | atDone => exact hkeep _ rfl (by rw [World.goto_self, hplace]; dsimp only; split_ifs <;> rfl)
  | atSize => exact hkeep _ rfl (by rw [World.goto_self, hplace]; dsimp only; split_ifs <;> rfl)
  | atTest => exact hkeep _ rfl (by rw [World.goto_self, hplace]; dsimp only; split_ifs <;> rfl)
  | atLock =>
    by_cases hf : c.mapped = f
    · subst hf
      exact .wait (he.2 hplace) (Function.update_self _ _ _)
        ⟨by show ((w.goto c .measuring).child c).place.inside = true; rw [World.goto_self]; rfl, rfl⟩
    · exact .keep (Function.update_of_ne (Ne.symm hf) _ _)
        ⟨fun h => absurd h.2 hf, fun h => absurd h.2 hf⟩
  | measuring => exact hkeep _ rfl (by rw [World.goto_self, hplace]; rfl)
  | copying copy =>
    dsimp only
    split_ifs
    · exact hset _ (by rw [hplace]; rfl)
    · exact hkeep _ rfl (by rw [World.goto_self, hplace]; rfl)
  | ending => exact hset _ (by rw [hplace]; rfl)
  | printing => exact hset _ (by rw [hplace]; rfl)
  | emptying =>
    exact hkeep _ rfl (by
      show ((w.goto c .posting).child c).place.inside = _
      rw [World.goto_self, hplace]
      rfl)
  | posting =>
    by_cases hf : c.mapped = f
    · subst hf
      refine .post (Function.update_self _ _ _) ⟨by rw [hplace]; rfl, rfl⟩ fun h => ?_
      have hplace' : ((w.goto c .atDone).child c).place.inside = true := h.1
      rw [World.goto_self] at hplace'
      exact Bool.false_ne_true hplace'
    · exact .keep (Function.update_of_ne (Ne.symm hf) _ _)
        ⟨fun h => absurd h.2 hf, fun h => absurd h.2 hf⟩
  | left => exact hkeep _ rfl rfl

/-- A child only moves itself. -/
theorem childNext_other (w : World) {c c' : Child} (hne : c' ≠ c) :
    (childNext w c).child c' = w.child c' := by
  have hgoto : ∀ place, (w.goto c place).child c' = w.child c' :=
    fun _ => w.setChild_other _ hne
  have hset : ∀ q, (w.setChild c q).child c' = w.child c' := fun q => w.setChild_other q hne
  unfold childNext
  dsimp only
  cases (w.child c).place with
  | atDone => exact hgoto _
  | atSize => exact hgoto _
  | atTest => exact hgoto _
  | atLock => exact hgoto _
  | measuring => exact hgoto _
  | copying copy =>
    dsimp only
    split_ifs
    · exact hset _
    · exact hgoto _
  | ending => exact hset _
  | printing => exact hset _
  | emptying => exact hgoto _
  | posting => exact hgoto _
  | left => rfl

/-- A child leaves the parent alone. -/
theorem childNext_parent (w : World) (c : Child) :
    (childNext w c).parent = w.parent ∧ (childNext w c).input = w.input := by
  unfold childNext
  dsimp only
  cases (w.child c).place with
  | copying copy =>
    dsimp only
    split_ifs
    · exact ⟨rfl, rfl⟩
    · exact ⟨rfl, rfl⟩
  | _ => exact ⟨rfl, rfl⟩

/-- The parent leaves the children alone. -/
theorem parentNext_child (w : World) : (parentNext w).child = w.child := by
  unfold parentNext
  cases w.parent with
  | reading => cases w.input <;> rfl
  | copying below bytes copy =>
    dsimp only
    split_ifs
    · rfl
    · rfl
  | _ => rfl

/-- **Every step keeps the semaphores in step with their holders.** -/
theorem World.Guarded.next (h : w.Guarded) (he : m.Enabled w) : (w.next m).Guarded := by
  intro f
  cases m with
  | parent =>
    apply (h f).move (semMove_parent he f)
    intro m' hne
    cases m' with
    | parent => exact absurd rfl hne
    | child c =>
      show ((parentNext w).child c).place.inside = true ∧ _ ↔ _
      rw [parentNext_child]
      exact Iff.rfl
  | child c =>
    apply (h f).move (semMove_child he f)
    intro m' hne
    cases m' with
    | parent =>
      show (childNext w c).parent.held = some f ↔ _
      rw [(childNext_parent w c).1]
      exact Iff.rfl
    | child c' =>
      have hne' : c' ≠ c := fun heq => hne (heq ▸ rfl)
      show ((childNext w c).child c').place.inside = true ∧ _ ↔ _
      rw [childNext_other w hne']
      exact Iff.rfl

/-- While a child is under its semaphore, the parent is not under that one. -/
theorem World.Guarded.parent_outside (h : w.Guarded) (hc : (w.child c).place.inside = true) :
    w.parent.held ≠ some c.mapped := by
  have hholds : w.Holds c.mapped (.child c) := ⟨hc, rfl⟩
  have hne : Mover.parent ≠ .child c := by simp
  exact (h c.mapped).alone hholds hne

/-- While a child is under its semaphore, no other child is under the same one. -/
theorem World.Guarded.other_outside (h : w.Guarded) (hc : (w.child c).place.inside = true)
    {c' : Child} (hne : c' ≠ c) (hmapped : c'.mapped = c.mapped) :
    (w.child c').place.inside = false := by
  have hholds : w.Holds c.mapped (.child c) := ⟨hc, rfl⟩
  by_contra hinside
  rw [Bool.not_eq_false] at hinside
  have hholds' : w.Holds c.mapped (.child c') := ⟨hinside, hmapped⟩
  exact hne (Mover.child.inj ((h c.mapped).one _ _ hholds' hholds))

end Semaphores

/-! ## What a state stands for -/

/-- Where the parent is when its sections are single steps. -/
def ParentPlace.phase : ParentPlace → ParentPhase
  | .closing => .closing
  | .waiting => .waiting
  | _ => .reading

/-- The line that is read and that does not count as written. -/
def ParentPlace.unsent : ParentPlace → List (Bool × List UInt8)
  | .entering below bytes => [(below, bytes)]
  | .copying below bytes _ => [(below, bytes)]
  | .sizing below bytes => [(below, bytes)]
  | _ => []

/-- Where a child is when its sections are single steps. -/
def ChildPlace.phase : ChildPlace → Phase
  | .atDone => .atDone
  | .atSize => .atSize
  | .atTest => .atTest
  | .posting => .atDone
  | .left => .left
  | _ => .atLock

/-- The data of a file with the line copied into it. -/
def withLine (data : Chars) (bytes : List UInt8) : Chars :=
  strncpy data (lineArray bytes) (strlen maxLine (lineArray bytes))

/-- The bytes `data` of a file, of which `before` stood there before the section of the parent. -/
def ParentPlace.DataMatches (f : MappedFile) (data before : Chars) : ParentPlace → Prop
  | .copying below bytes copy =>
    if target below = f then copy.finish data (lineArray bytes) = withLine before bytes
    else data = before
  | .sizing below bytes =>
    if target below = f then data = withLine before bytes else data = before
  | _ => data = before

/-- The buffer and the output file of a child, which are those of `b` until its section counts. -/
def ChildMatches (d : SharedData) (q : ChildLocal) (b : ChildState) : Prop :=
  match q.place with
  | .copying copy =>
    copy.finish q.buffer d.data = strncpy b.buffer d.data d.size ∧ q.outFile = b.outFile
  | .ending => q.buffer = strncpy b.buffer d.data d.size ∧ q.outFile = b.outFile
  | .printing =>
    q.buffer = Function.update (strncpy b.buffer d.data d.size) d.size 0 ∧ q.outFile = b.outFile
  | .emptying =>
    q.buffer =
        removeVowels maxLine (Function.update (strncpy b.buffer d.data d.size) d.size 0) ∧
      q.outFile = b.outFile ++ text maxLine q.buffer
  | _ => q.buffer = b.buffer ∧ q.outFile = b.outFile

/-- **What a state stands for** when sections are single steps. -/
structure Represents (w : World) (a : MappedSlot.World) : Prop where
  guarded : w.Guarded
  input : a.input = w.parent.unsent ++ w.input
  parent : a.parent = w.parent.phase
  size : ∀ f, (a.shared f).size = (w.shared f).size
  done : ∀ f, (a.shared f).done = (w.shared f).done
  data : ∀ f, w.parent.DataMatches f (w.shared f).data (a.shared f).data
  phase : ∀ c, (a.child c).phase = (w.child c).place.phase
  child : ∀ c, ChildMatches (a.shared c.mapped) (w.child c) (a.child c)

/-- What counts as a step when sections are single steps. -/
def World.effect (w : World) : Mover → Option Event
  | .parent =>
    match w.parent with
    | .reading => if w.input = [] then some .close else none
    | .sizing _ _ => some .write
    | .closing => some .close
    | _ => none
  | .child c =>
    match (w.child c).place with
    | .atDone => some (.advance c)
    | .atSize => some (.advance c)
    | .atTest => some (.advance c)
    | .emptying => some (.advance c)
    | _ => none

section Refinement

variable {w : World} {a : MappedSlot.World} {c : Child} {m : Mover} {f : MappedFile}

@[simp] theorem ParentPlace.dataMatches_copying (data before : Chars) (below : Bool)
    (bytes : List UInt8) (copy : Copy) :
    (ParentPlace.copying below bytes copy).DataMatches f data before ↔
      if target below = f then copy.finish data (lineArray bytes) = withLine before bytes
      else data = before := Iff.rfl

@[simp] theorem ParentPlace.dataMatches_sizing (data before : Chars) (below : Bool)
    (bytes : List UInt8) :
    (ParentPlace.sizing below bytes).DataMatches f data before ↔
      if target below = f then data = withLine before bytes else data = before := Iff.rfl

/-- A file whose semaphore the parent does not hold has all its data. -/
theorem ParentPlace.dataMatches_of_ne {place : ParentPlace} (h : place.held ≠ some f)
    (data before : Chars) : place.DataMatches f data before ↔ data = before := by
  cases place with
  | copying below bytes copy =>
    rw [ParentPlace.dataMatches_copying, if_neg fun heq => h (congrArg some heq)]
  | sizing below bytes =>
    rw [ParentPlace.dataMatches_sizing, if_neg fun heq => h (congrArg some heq)]
  | _ => exact Iff.rfl

/-- Only the data and the size of the file count, and only under the semaphore. -/
theorem ChildMatches.congr {d d' : SharedData} {q : ChildLocal} {b : ChildState}
    (h : ChildMatches d q b)
    (hd : q.place.inside = true → d'.data = d.data ∧ d'.size = d.size) : ChildMatches d' q b := by
  unfold ChildMatches at h ⊢
  cases hplace : q.place with
  | copying copy =>
    rw [hplace] at h hd
    obtain ⟨hdata, hsize⟩ := hd rfl
    simpa only [hdata, hsize] using h
  | ending =>
    rw [hplace] at h hd
    obtain ⟨hdata, hsize⟩ := hd rfl
    simpa only [hdata, hsize] using h
  | printing =>
    rw [hplace] at h hd
    obtain ⟨hdata, hsize⟩ := hd rfl
    simpa only [hdata, hsize] using h
  | emptying =>
    rw [hplace] at h hd
    obtain ⟨hdata, hsize⟩ := hd rfl
    simpa only [hdata, hsize] using h
  | _ =>
    rw [hplace] at h
    exact h

/-- Outside of the semaphore nothing of a child is half done. -/
theorem childMatches_iff {d : SharedData} {q : ChildLocal} {b : ChildState}
    (h : q.place.inside = false) :
    ChildMatches d q b ↔ q.buffer = b.buffer ∧ q.outFile = b.outFile := by
  unfold ChildMatches
  cases hplace : q.place with
  | copying copy => rw [hplace] at h; cases h
  | ending => rw [hplace] at h; cases h
  | printing => rw [hplace] at h; cases h
  | emptying => rw [hplace] at h; cases h
  | _ => exact Iff.rfl

/-- A child under its semaphore sees the data that were there when it came. -/
theorem Represents.data_of_inside (h : Represents w a) (hc : (w.child c).place.inside = true) :
    (w.shared c.mapped).data = (a.shared c.mapped).data :=
  (ParentPlace.dataMatches_of_ne (h.guarded.parent_outside hc) _ _).mp (h.data c.mapped)

/-! ## The parent -/

/-- What is left to show of a step of the parent. -/
theorem Represents.of_parent (h : Represents w a) (he : Mover.parent.Enabled w)
    {a' : MappedSlot.World} (hinput : a'.input = (parentNext w).parent.unsent ++ (parentNext w).input)
    (hparent : a'.parent = (parentNext w).parent.phase)
    (hshared : ∀ f, (a'.shared f).size = ((parentNext w).shared f).size ∧
      (a'.shared f).done = ((parentNext w).shared f).done ∧
      (parentNext w).parent.DataMatches f ((parentNext w).shared f).data (a'.shared f).data)
    (hchild : a'.child = a.child)
    (hinside : ∀ c, (w.child c).place.inside = true →
      (a'.shared c.mapped).data = (a.shared c.mapped).data ∧
        (a'.shared c.mapped).size = (a.shared c.mapped).size) :
    Represents (parentNext w) a' := by
  have hsame := parentNext_child w
  refine ⟨h.guarded.next he, hinput, hparent, fun f => (hshared f).1, fun f => (hshared f).2.1,
    fun f => (hshared f).2.2, fun c => ?_, fun c => ?_⟩
  · rw [hsame, hchild]
    exact h.phase c
  · rw [hsame, hchild]
    exact (h.child c).congr (hinside c)

/-- A store to `done` looks the same byte by byte. -/
theorem setDone_shared (h : Represents w a) (g f : MappedFile) :
    let d := Function.update w.shared g { w.shared g with done := true } f
    let d' := Function.update a.shared g { a.shared g with done := true } f
    d'.size = d.size ∧ d'.done = d.done ∧ d.data = (w.shared f).data ∧
      d'.data = (a.shared f).data ∧ d'.size = (a.shared f).size := by
  dsimp only
  by_cases hf : f = g
  · subst hf
    rw [Function.update_self, Function.update_self]
    exact ⟨h.size f, rfl, rfl, rfl, rfl⟩
  · rw [Function.update_of_ne hf, Function.update_of_ne hf]
    exact ⟨h.size f, h.done f, rfl, rfl, rfl⟩

/-- What is left to show of a step of the parent that does not count. -/
theorem Represents.of_parent_silent (h : Represents w a) (he : Mover.parent.Enabled w)
    (hinput : a.input = (parentNext w).parent.unsent ++ (parentNext w).input)
    (hparent : a.parent = (parentNext w).parent.phase)
    (hshared : ∀ f, ((parentNext w).shared f).size = (w.shared f).size ∧
      ((parentNext w).shared f).done = (w.shared f).done ∧
      (parentNext w).parent.DataMatches f ((parentNext w).shared f).data (a.shared f).data) :
    Represents (parentNext w) a := by
  apply h.of_parent he hinput hparent _ rfl fun _ _ => ⟨rfl, rfl⟩
  intro f
  obtain ⟨hsize, hdone, hdata⟩ := hshared f
  rw [hsize, hdone]
  exact ⟨h.size f, h.done f, hdata⟩

/-- `fgets` reads a line. -/
theorem Represents.parent_reads (h : Represents w a) (he : Mover.parent.Enabled w)
    (hplace : w.parent = .reading) {x : Bool × List UInt8} {rest : List (Bool × List UInt8)}
    (hlines : w.input = x :: rest) : Represents (parentNext w) a := by
  have hinput := h.input
  have hparent := h.parent
  have hdata := h.data
  rw [hplace] at hinput hparent hdata
  rw [hlines] at hinput
  have hnext : parentNext w = { w with input := rest, parent := .entering x.1 x.2 } := by
    unfold parentNext
    rw [hplace, hlines]
  apply h.of_parent_silent he
  · rw [hnext]
    exact hinput
  · rw [hnext]
    exact hparent
  · rw [hnext]
    exact fun f => ⟨rfl, rfl, hdata f⟩

/-- `sem_wait`: none of the bytes of the line is copied yet. -/
theorem Represents.parent_enters (h : Represents w a) (he : Mover.parent.Enabled w) {below : Bool}
    {bytes : List UInt8} (hplace : w.parent = .entering below bytes) :
    Represents (parentNext w) a := by
  have hinput := h.input
  have hparent := h.parent
  have hdata := h.data
  rw [hplace] at hinput hparent hdata
  have hnext : parentNext w = { w with
      parent := .copying below bytes { size := strlen maxLine (lineArray bytes) } }.semWait
        (target below) := by
    unfold parentNext
    rw [hplace]
  apply h.of_parent_silent he
  · rw [hnext]
    exact hinput
  · rw [hnext]
    exact hparent
  · rw [hnext]
    refine fun f => ⟨rfl, rfl, ?_⟩
    have hf : (w.shared f).data = (a.shared f).data := hdata f
    show ParentPlace.DataMatches f (w.shared f).data (a.shared f).data (.copying _ _ _)
    rw [ParentPlace.dataMatches_copying]
    split_ifs
    · rw [Copy.finish_start, hf]
      rfl
    · exact hf

/-- `strncpy` writes a byte: the bytes that come next are those that were going to be written. -/
theorem Represents.parent_copies (h : Represents w a) (he : Mover.parent.Enabled w) {below : Bool}
    {bytes : List UInt8} {copy : Copy} (hplace : w.parent = .copying below bytes copy)
    (hpos : copy.pos < copy.size) : Represents (parentNext w) a := by
  have hinput := h.input
  have hparent := h.parent
  have hdata := h.data
  rw [hplace] at hinput hparent hdata
  have hnext : parentNext w = { w with
      parent := .copying below bytes (copy.advance (lineArray bytes)) }.setShared (target below)
        { w.shared (target below) with
          data := copy.write (w.shared (target below)).data (lineArray bytes) } := by
    unfold parentNext
    rw [hplace]
    dsimp only
    rw [if_pos hpos]
  apply h.of_parent_silent he
  · rw [hnext]
    exact hinput
  · rw [hnext]
    exact hparent
  · rw [hnext]
    intro f
    have hf := hdata f
    unfold World.setShared
    dsimp only
    rw [ParentPlace.dataMatches_copying] at hf ⊢
    by_cases htarget : target below = f
    · subst htarget
      rw [if_pos rfl] at hf
      rw [Function.update_self, if_pos rfl]
      refine ⟨rfl, rfl, ?_⟩
      dsimp only
      rw [Copy.finish_advance hpos]
      exact hf
    · rw [if_neg htarget] at hf
      rw [Function.update_of_ne (Ne.symm htarget), if_neg htarget]
      exact ⟨rfl, rfl, hf⟩

/-- `strncpy` is through: the whole line is in the file. -/
theorem Represents.parent_copied (h : Represents w a) (he : Mover.parent.Enabled w) {below : Bool}
    {bytes : List UInt8} {copy : Copy} (hplace : w.parent = .copying below bytes copy)
    (hpos : ¬ copy.pos < copy.size) : Represents (parentNext w) a := by
  have hinput := h.input
  have hparent := h.parent
  have hdata := h.data
  rw [hplace] at hinput hparent hdata
  have hnext : parentNext w = { w with parent := .sizing below bytes } := by
    unfold parentNext
    rw [hplace]
    dsimp only
    rw [if_neg hpos]
  apply h.of_parent_silent he
  · rw [hnext]
    exact hinput
  · rw [hnext]
    exact hparent
  · rw [hnext]
    refine fun f => ⟨rfl, rfl, ?_⟩
    have hf := hdata f
    rw [ParentPlace.dataMatches_copying] at hf
    rw [ParentPlace.dataMatches_sizing]
    rwa [Copy.finish_of_le (Nat.le_of_not_lt hpos)] at hf

/-- `sem_post`. -/
theorem Represents.parent_posts (h : Represents w a) (he : Mover.parent.Enabled w) {below : Bool}
    (hplace : w.parent = .posting below) : Represents (parentNext w) a := by
  have hinput := h.input
  have hparent := h.parent
  have hdata := h.data
  rw [hplace] at hinput hparent hdata
  have hnext : parentNext w = { w with parent := .reading }.semPost (target below) := by
    unfold parentNext
    rw [hplace]
  apply h.of_parent_silent he
  · rw [hnext]
    exact hinput
  · rw [hnext]
    exact hparent
  · rw [hnext]
    exact fun f => ⟨rfl, rfl, hdata f⟩

/-- A step of the parent that does not count. -/
theorem Represents.parent_silent (h : Represents w a) (he : Mover.parent.Enabled w)
    (hnone : w.effect .parent = none) : Represents (parentNext w) a := by
  cases hplace : w.parent with
  | reading =>
    cases hlines : w.input with
    | nil =>
      simp only [World.effect, hplace, hlines, if_true] at hnone
      cases hnone
    | cons x rest => exact h.parent_reads he hplace hlines
  | entering below bytes => exact h.parent_enters he hplace
  | copying below bytes copy =>
    by_cases hpos : copy.pos < copy.size
    · exact h.parent_copies he hplace hpos
    · exact h.parent_copied he hplace hpos
  | sizing below bytes =>
    simp only [World.effect, hplace] at hnone
    cases hnone
  | posting below => exact h.parent_posts he hplace
  | closing =>
    simp only [World.effect, hplace] at hnone
    cases hnone
  | waiting => exact absurd hplace he.1

/-- **The stores to `done`**: what the parent does to one file at the end. -/
theorem Represents.parent_closes (h : Represents w a) (he : Mover.parent.Enabled w) {g : MappedFile}
    {place : ParentPlace} (hnext : parentNext w = { w with parent := place }.setShared g
      { w.shared g with done := true })
    (hheld : ∀ f, w.parent.held ≠ some f) (hheld' : ∀ f, place.held ≠ some f)
    (hunsent : w.parent.unsent = place.unsent) :
    Represents (parentNext w) { a with
      parent := place.phase
      shared := Function.update a.shared g { a.shared g with done := true } } := by
  apply h.of_parent he
  · rw [hnext]
    show a.input = place.unsent ++ w.input
    rw [← hunsent]
    exact h.input
  · rw [hnext]
    rfl
  · rw [hnext]
    intro f
    obtain ⟨hsize, hdone, hsame, hsame', -⟩ := setDone_shared h g f
    refine ⟨hsize, hdone, (ParentPlace.dataMatches_of_ne (hheld' f) _ _).mpr ?_⟩
    have hdata := (ParentPlace.dataMatches_of_ne (hheld f) _ _).mp (h.data f)
    exact hsame.trans (hdata.trans hsame'.symm)
  · rfl
  · intro c _
    obtain ⟨-, -, -, hsame', hsize'⟩ := setDone_shared h g c.mapped
    exact ⟨hsame', hsize'⟩

/-- **The store to `size`**: the line counts as written. -/
theorem Represents.parent_writes (h : Represents w a) (he : Mover.parent.Enabled w) {below : Bool}
    {bytes : List UInt8} (hplace : w.parent = .sizing below bytes) :
    Event.write.Enabled a ∧ Represents (parentNext w) (a.next .write) := by
  have hinput := h.input
  have hparent := h.parent
  have hdata := h.data
  rw [hplace] at hinput hparent hdata
  have hnext : parentNext w = { w with parent := .posting below }.setShared (target below)
      { w.shared (target below) with size := strlen maxLine (lineArray bytes) } := by
    unfold parentNext
    rw [hplace]
  have hcons : a.input = (below, bytes) :: w.input := hinput
  refine ⟨⟨hparent, by rw [hcons]; exact List.cons_ne_nil _ _⟩, ?_⟩
  have hshared : (a.next .write).shared = Function.update a.shared (target below)
      { a.shared (target below) with
        data := withLine (a.shared (target below)).data bytes
        size := strlen maxLine (lineArray bytes) } := by
    unfold MappedSlot.World.next MappedSlot.write
    rw [hcons]
    rfl
  have hwrite : (a.next .write).input = w.input ∧ (a.next .write).parent = a.parent ∧
      (a.next .write).child = a.child := by
    unfold MappedSlot.World.next MappedSlot.write
    rw [hcons]
    exact ⟨rfl, rfl, rfl⟩
  apply h.of_parent he
  · rw [hnext, hwrite.1]
    rfl
  · rw [hnext, hwrite.2.1, hparent]
    rfl
  · rw [hnext, hshared]
    intro f
    have hf := hdata f
    rw [ParentPlace.dataMatches_sizing] at hf
    unfold World.setShared
    dsimp only
    by_cases htarget : target below = f
    · subst htarget
      rw [if_pos rfl] at hf
      rw [Function.update_self, Function.update_self]
      exact ⟨rfl, h.done _, hf⟩
    · rw [if_neg htarget] at hf
      rw [Function.update_of_ne (Ne.symm htarget), Function.update_of_ne (Ne.symm htarget)]
      exact ⟨h.size f, h.done f, hf⟩
  · exact hwrite.2.2
  · -- No child is under the semaphore of the file that is written.
    intro c hc
    have hne : c.mapped ≠ target below := by
      intro heq
      apply h.guarded.parent_outside hc
      rw [hplace, heq]
      rfl
    rw [hshared, Function.update_of_ne hne]
    exact ⟨rfl, rfl⟩

/-- A step of the parent that counts. -/
theorem Represents.parent_counts (h : Represents w a) (he : Mover.parent.Enabled w) {e : Event}
    (hsome : w.effect .parent = some e) :
    e.Enabled a ∧ Represents (parentNext w) (a.next e) := by
  have hinput := h.input
  have hparent := h.parent
  cases hplace : w.parent with
  | reading =>
    rw [hplace] at hinput hparent
    -- with lines left the parent draws the next one, which does not count
    cases hlines : w.input with
    | cons x rest =>
      simp only [World.effect, hplace, hlines, List.cons_ne_nil, if_false] at hsome
      cases hsome
    | nil =>
      simp only [World.effect, hplace, hlines, if_true, Option.some.injEq] at hsome
      subst hsome
      rw [hlines] at hinput
      have hclose : a.next .close = { a with
          parent := .closing
          shared := Function.update a.shared .file1 { a.shared .file1 with done := true } } := by
        unfold MappedSlot.World.next MappedSlot.close
        rw [hparent]
        rfl
      have hnext : parentNext w = { w with parent := .closing }.setShared .file1
          { w.shared .file1 with done := true } := by
        unfold parentNext
        rw [hplace, hlines]
      refine ⟨Or.inl ⟨hparent, hinput⟩, ?_⟩
      rw [hclose]
      apply h.parent_closes he hnext
      · simp [hplace, ParentPlace.held]
      · simp [ParentPlace.held]
      · rw [hplace]
        rfl
  | sizing below bytes =>
    simp only [World.effect, hplace, Option.some.injEq] at hsome
    subst hsome
    exact h.parent_writes he hplace
  | closing =>
    rw [hplace] at hparent
    simp only [World.effect, hplace, Option.some.injEq] at hsome
    subst hsome
    have hclose : a.next .close = { a with
        parent := .waiting
        shared := Function.update a.shared .file2 { a.shared .file2 with done := true } } := by
      unfold MappedSlot.World.next MappedSlot.close
      rw [hparent]
      rfl
    have hnext : parentNext w = { w with parent := .waiting }.setShared .file2
        { w.shared .file2 with done := true } := by
      unfold parentNext
      rw [hplace]
    refine ⟨Or.inr hparent, ?_⟩
    rw [hclose]
    apply h.parent_closes he hnext
    · simp [hplace, ParentPlace.held]
    · simp [ParentPlace.held]
    · rw [hplace]
      rfl
  -- the other places have no effect
  | _ =>
    simp only [World.effect, hplace] at hsome
    cases hsome

/-! ## The children -/

/-- What is left to show of a step of a child. -/
theorem Represents.of_child (h : Represents w a) (he : (Mover.child c).Enabled w)
    (a' : MappedSlot.World) (hinput : a'.input = a.input) (hparent : a'.parent = a.parent)
    (hshared : ∀ f, (a'.shared f).size = ((childNext w c).shared f).size ∧
      (a'.shared f).done = ((childNext w c).shared f).done ∧
      w.parent.DataMatches f ((childNext w c).shared f).data (a'.shared f).data)
    (hother : ∀ c', c' ≠ c → a'.child c' = a.child c')
    (hinside : ∀ c', c' ≠ c → (w.child c').place.inside = true →
      (a'.shared c'.mapped).data = (a.shared c'.mapped).data ∧
        (a'.shared c'.mapped).size = (a.shared c'.mapped).size)
    (hphase : (a'.child c).phase = ((childNext w c).child c).place.phase)
    (hself : ChildMatches (a'.shared c.mapped) ((childNext w c).child c) (a'.child c)) :
    Represents (childNext w c) a' := by
  obtain ⟨hparent', hinput'⟩ := childNext_parent w c
  refine ⟨h.guarded.next he, ?_, ?_, fun f => (hshared f).1, fun f => (hshared f).2.1, fun f => ?_,
    fun c' => ?_, fun c' => ?_⟩
  · rw [hparent', hinput', hinput]
    exact h.input
  · rw [hparent', hparent]
    exact h.parent
  · rw [hparent']
    exact (hshared f).2.2
  · by_cases hc' : c' = c
    · rw [hc']
      exact hphase
    · rw [childNext_other w hc', hother c' hc']
      exact h.phase c'
  · by_cases hc' : c' = c
    · rw [hc']
      exact hself
    · rw [childNext_other w hc', hother c' hc']
      exact (h.child c').congr (hinside c' hc')

/-- What is left to show of a step of a child that does not count: it only works on its own. -/
theorem Represents.of_child_silent (h : Represents w a) (he : (Mover.child c).Enabled w)
    {q : ChildLocal} (hshared : (childNext w c).shared = w.shared)
    (hchild : (childNext w c).child c = q) (hphase : (w.child c).place.phase = q.place.phase)
    (hself : ChildMatches (a.shared c.mapped) q (a.child c)) : Represents (childNext w c) a := by
  apply h.of_child he a rfl rfl _ (fun _ _ => rfl) (fun _ _ _ => ⟨rfl, rfl⟩)
  · rw [hchild, ← hphase]
    exact h.phase c
  · rw [hchild]
    exact hself
  · rw [hshared]
    exact fun f => ⟨h.size f, h.done f, h.data f⟩

/-- A step that only changes what the child holds for itself. -/
theorem Represents.child_works (h : Represents w a) (he : (Mover.child c).Enabled w) {q : ChildLocal}
    (hnext : childNext w c = w.setChild c q) (hphase : (w.child c).place.phase = q.place.phase)
    (hself : ChildMatches (a.shared c.mapped) q (a.child c)) : Represents (childNext w c) a := by
  apply h.of_child_silent he _ _ hphase hself
  · rw [hnext]
    rfl
  · rw [hnext]
    exact w.setChild_self c q

/-- The read of `size`: `strncpy` is going to copy as much as the file holds. -/
theorem Represents.child_measures (h : Represents w a) (he : (Mover.child c).Enabled w)
    (hplace : (w.child c).place = .measuring) : Represents (childNext w c) a := by
  have hself := h.child c
  have hsize := h.size c.mapped
  unfold ChildMatches at hself
  rw [hplace] at hself
  obtain ⟨hbuffer, hout⟩ := hself
  have hnext : childNext w c = w.goto c (.copying { size := (w.shared c.mapped).size }) := by
    simp only [childNext, hplace]
  apply h.child_works he hnext
  · rw [hplace]
    rfl
  · refine ⟨?_, hout⟩
    dsimp only
    rw [Copy.finish_start, hbuffer, ← hsize]

/-- `strncpy` reads a byte of the file, which stays as it is while the child is under the
semaphore. -/
theorem Represents.child_copies (h : Represents w a) (he : (Mover.child c).Enabled w) {copy : Copy}
    (hplace : (w.child c).place = .copying copy) (hpos : copy.pos < copy.size) :
    Represents (childNext w c) a := by
  have hself := h.child c
  unfold ChildMatches at hself
  have hdata := h.data_of_inside (c := c) (by rw [hplace]; rfl)
  rw [hplace] at hself
  obtain ⟨hbuffer, hout⟩ := hself
  have hnext : childNext w c = w.setChild c { w.child c with
      place := .copying (copy.advance (w.shared c.mapped).data)
      buffer := copy.write (w.child c).buffer (w.shared c.mapped).data } := by
    simp only [childNext, hplace, hpos, if_true]
  apply h.child_works he hnext
  · rw [hplace]
    rfl
  · rw [hdata]
    refine ⟨?_, hout⟩
    dsimp only
    rw [Copy.finish_advance hpos]
    exact hbuffer

/-- `strncpy` is through: the buffer holds the copy. -/
theorem Represents.child_copied (h : Represents w a) (he : (Mover.child c).Enabled w) {copy : Copy}
    (hplace : (w.child c).place = .copying copy) (hpos : ¬ copy.pos < copy.size) :
    Represents (childNext w c) a := by
  have hself := h.child c
  unfold ChildMatches at hself
  rw [hplace] at hself
  obtain ⟨hbuffer, hout⟩ := hself
  have hnext : childNext w c = w.goto c .ending := by
    simp only [childNext, hplace, hpos, if_false]
  apply h.child_works he hnext
  · rw [hplace]
    rfl
  · rw [Copy.finish_of_le (Nat.le_of_not_lt hpos)] at hbuffer
    exact ⟨hbuffer, hout⟩

/-- The zero behind the copy. -/
theorem Represents.child_terminates (h : Represents w a) (he : (Mover.child c).Enabled w)
    (hplace : (w.child c).place = .ending) : Represents (childNext w c) a := by
  have hself := h.child c
  have hsize := h.size c.mapped
  unfold ChildMatches at hself
  rw [hplace] at hself
  obtain ⟨hbuffer, hout⟩ := hself
  have hnext : childNext w c = w.setChild c { w.child c with
      place := .printing
      buffer := Function.update (w.child c).buffer (w.shared c.mapped).size 0 } := by
    simp only [childNext, hplace]
  apply h.child_works he hnext
  · rw [hplace]
    rfl
  · refine ⟨?_, hout⟩
    dsimp only
    rw [hbuffer, ← hsize]

/-- The line is printed without its vowels. -/
theorem Represents.child_prints (h : Represents w a) (he : (Mover.child c).Enabled w)
    (hplace : (w.child c).place = .printing) : Represents (childNext w c) a := by
  have hself := h.child c
  unfold ChildMatches at hself
  rw [hplace] at hself
  obtain ⟨hbuffer, hout⟩ := hself
  have hnext : childNext w c = w.setChild c {
      place := .emptying
      buffer := removeVowels maxLine (w.child c).buffer
      outFile := (w.child c).outFile ++
        text maxLine (removeVowels maxLine (w.child c).buffer) } := by
    simp only [childNext, hplace]
  apply h.child_works he hnext
  · rw [hplace]
    rfl
  · constructor
    · dsimp only
      rw [hbuffer]
    · dsimp only
      rw [hout]

/-- `sem_wait` and `sem_post`: outside of the semaphore nothing is half done, and behind `sem_wait`
nothing is yet. -/
theorem Represents.child_passes (h : Represents w a) (he : (Mover.child c).Enabled w)
    {place : ChildPlace} (hnext : (childNext w c).child = (w.goto c place).child)
    (hshared : (childNext w c).shared = w.shared)
    (hplaces : (w.child c).place = .atLock ∧ place = .measuring ∨
      (w.child c).place = .posting ∧ place = .atDone) : Represents (childNext w c) a := by
  have hself := h.child c
  unfold ChildMatches at hself
  have hchild : (childNext w c).child c = { w.child c with place := place } := by
    rw [hnext]
    exact w.goto_self c place
  apply h.of_child_silent he hshared hchild
  · rcases hplaces with ⟨hplace, rfl⟩ | ⟨hplace, rfl⟩
    · rw [hplace]
      rfl
    · rw [hplace]
      rfl
  · rcases hplaces with ⟨hplace, rfl⟩ | ⟨hplace, rfl⟩
    · rw [hplace] at hself
      exact hself
    · rw [hplace] at hself
      exact hself

/-- A step of a child that does not count. -/
theorem Represents.child_silent (h : Represents w a) (he : (Mover.child c).Enabled w)
    (hnone : w.effect (.child c) = none) : Represents (childNext w c) a := by
  cases hplace : (w.child c).place with
  | atLock =>
    have hnext : childNext w c = (w.goto c .measuring).semWait c.mapped := by
      simp only [childNext, hplace]
    exact h.child_passes he (by rw [hnext]; rfl) (by rw [hnext]; rfl) (Or.inl ⟨hplace, rfl⟩)
  | measuring => exact h.child_measures he hplace
  | copying copy =>
    by_cases hpos : copy.pos < copy.size
    · exact h.child_copies he hplace hpos
    · exact h.child_copied he hplace hpos
  | ending => exact h.child_terminates he hplace
  | printing => exact h.child_prints he hplace
  | posting =>
    have hnext : childNext w c = (w.goto c .atDone).semPost c.mapped := by
      simp only [childNext, hplace]
    exact h.child_passes he (by rw [hnext]; rfl) (by rw [hnext]; rfl) (Or.inr ⟨hplace, rfl⟩)
  | left => exact absurd hplace he.1
  | _ =>
    simp only [World.effect, hplace] at hnone
    cases hnone

/-- A step of a child outside of the semaphore counts. -/
theorem Represents.child_goto (h : Represents w a) (he : (Mover.child c).Enabled w)
    (place : ChildPlace) (hnext : childNext w c = w.goto c place)
    (houtside : (w.child c).place.inside = false) (houtside' : place.inside = false) :
    Represents (childNext w c) (a.goto c place.phase) := by
  have hchild : (childNext w c).child c = { w.child c with place := place } := by
    rw [hnext]
    exact w.goto_self c place
  have hself : (a.goto c place.phase).child c = { a.child c with phase := place.phase } := by
    rw [goto_child, if_pos rfl]
  refine h.of_child he (a.goto c place.phase) rfl rfl ?_ ?_ ?_ ?_ ?_
  · rw [hnext]
    exact fun f => ⟨h.size f, h.done f, h.data f⟩
  · intro c' hne
    rw [goto_child, if_neg hne]
  · exact fun _ _ _ => ⟨rfl, rfl⟩
  · rw [hself, hchild]
  · rw [hself, hchild, childMatches_iff houtside']
    exact (childMatches_iff houtside).mp (h.child c)

/-- A child that has left the loop has left it in the single steps. -/
theorem Represents.child_there (h : Represents w a) (he : (Mover.child c).Enabled w) :
    (a.child c).phase ≠ .left := by
  rw [h.phase c]
  intro hleft
  cases hplace : (w.child c).place with
  | left => exact he.1 hplace
  | _ =>
    rw [hplace] at hleft
    cases hleft

/-- **The store of zero to `size`**: the line counts as taken. -/
theorem Represents.child_empties (h : Represents w a) (he : (Mover.child c).Enabled w)
    (hplace : (w.child c).place = .emptying) : Represents (childNext w c) (consume a c) := by
  have hinside : (w.child c).place.inside = true := by rw [hplace]; rfl
  have hdone := h.done c.mapped
  have hself := h.child c
  have hnext : childNext w c = (w.goto c .posting).setShared c.mapped
      { w.shared c.mapped with size := 0 } := by
    simp only [childNext, hplace]
  have hchild : (childNext w c).child c = { w.child c with place := .posting } := by
    rw [hnext]
    exact w.goto_self c .posting
  have hshared' : (consume a c).shared = Function.update a.shared c.mapped
      { a.shared c.mapped with size := 0 } := rfl
  have hconsumed : (consume a c).child = Function.update a.child c _ := rfl
  unfold ChildMatches at hself
  rw [hplace] at hself
  obtain ⟨hbuffer, hout⟩ := hself
  refine h.of_child he (consume a c) rfl rfl ?_ ?_ ?_ ?_ ?_
  · rw [hnext, hshared']
    intro f
    unfold World.setShared
    dsimp only
    by_cases hf : f = c.mapped
    · subst hf
      rw [Function.update_self, Function.update_self]
      exact ⟨rfl, hdone, h.data _⟩
    · rw [Function.update_of_ne hf, Function.update_of_ne hf]
      exact ⟨h.size f, h.done f, h.data f⟩
  · intro c' hne
    rw [hconsumed, Function.update_of_ne hne]
  · -- No other child is under the semaphore of this file.
    intro c' hne hinside'
    have hf : c'.mapped ≠ c.mapped := by
      intro heq
      rw [h.guarded.other_outside hinside hne heq] at hinside'
      exact Bool.false_ne_true hinside'
    rw [hshared', Function.update_of_ne hf]
    exact ⟨rfl, rfl⟩
  · rw [hchild, hconsumed, Function.update_self]
    rfl
  · rw [hchild, hconsumed, Function.update_self]
    show (w.child c).buffer = _ ∧ (w.child c).outFile = _
    dsimp only
    rw [← hbuffer]
    exact ⟨rfl, hout⟩

/-- A step of a child that counts. -/
theorem Represents.child_counts (h : Represents w a) (he : (Mover.child c).Enabled w) {e : Event}
    (hsome : w.effect (.child c) = some e) :
    e.Enabled a ∧ Represents (childNext w c) (a.next e) := by
  have hsize := h.size c.mapped
  have hdone := h.done c.mapped
  have hphase := h.phase c
  have hthere := h.child_there he
  cases hplace : (w.child c).place with
  | atDone =>
    rw [hplace] at hphase
    simp only [World.effect, hplace, Option.some.injEq] at hsome
    subst hsome
    have hadvance : a.next (.advance c) =
        a.goto c (if (a.shared c.mapped).done then .atSize else .atTest) := by
      simp only [MappedSlot.World.next, MappedSlot.advance, hphase, ChildPlace.phase]
    refine ⟨hthere, ?_⟩
    rw [hadvance, hdone]
    cases hd : (w.shared c.mapped).done with
    | true => exact h.child_goto he .atSize (by simp [childNext, hplace, hd]) (by rw [hplace]; rfl) rfl
    | false => exact h.child_goto he .atTest (by simp [childNext, hplace, hd]) (by rw [hplace]; rfl) rfl
  | atSize =>
    rw [hplace] at hphase
    simp only [World.effect, hplace, Option.some.injEq] at hsome
    subst hsome
    have hadvance : a.next (.advance c) =
        a.goto c (if (a.shared c.mapped).size > 0 then .atTest else .left) := by
      simp only [MappedSlot.World.next, MappedSlot.advance, hphase, ChildPlace.phase]
    refine ⟨hthere, ?_⟩
    rw [hadvance, hsize]
    by_cases hpos : (w.shared c.mapped).size > 0
    · rw [if_pos hpos]
      exact h.child_goto he .atTest (by simp [childNext, hplace, hpos]) (by rw [hplace]; rfl) rfl
    · rw [if_neg hpos]
      exact h.child_goto he .left (by simp [childNext, hplace, hpos]) (by rw [hplace]; rfl) rfl
  | atTest =>
    rw [hplace] at hphase
    simp only [World.effect, hplace, Option.some.injEq] at hsome
    subst hsome
    have hadvance : a.next (.advance c) =
        a.goto c (if (a.shared c.mapped).size > 0 then .atLock else .atDone) := by
      simp only [MappedSlot.World.next, MappedSlot.advance, hphase, ChildPlace.phase]
    refine ⟨hthere, ?_⟩
    rw [hadvance, hsize]
    by_cases hpos : (w.shared c.mapped).size > 0
    · rw [if_pos hpos]
      exact h.child_goto he .atLock (by simp [childNext, hplace, hpos]) (by rw [hplace]; rfl) rfl
    · rw [if_neg hpos]
      exact h.child_goto he .atDone (by simp [childNext, hplace, hpos]) (by rw [hplace]; rfl) rfl
  | emptying =>
    rw [hplace] at hphase
    simp only [World.effect, hplace, Option.some.injEq] at hsome
    subst hsome
    have hadvance : a.next (.advance c) = consume a c := by
      simp only [MappedSlot.World.next, MappedSlot.advance, hphase, ChildPlace.phase]
    refine ⟨hthere, ?_⟩
    rw [hadvance]
    exact h.child_empties he hplace
  | _ =>
    simp only [World.effect, hplace] at hsome
    cases hsome

/-! ## Runs -/

/-- At first nothing is half done. -/
theorem represents_initial (stack : Child → Chars) (input : List (Bool × List UInt8)) :
    Represents (initial stack input) (MappedSlot.initial stack input) :=
  ⟨guarded_initial stack input, rfl, rfl, fun _ => rfl, fun _ => rfl, fun _ => rfl, fun _ => rfl,
    fun _ => ⟨rfl, rfl⟩⟩

/-- **Every step** is no step or one step when sections are single steps. -/
theorem Represents.step (h : Represents w a) (he : m.Enabled w) :
    ∃ es b, Run MappedSlot.Step a es b ∧ es = (w.effect m).toList ∧ Represents (w.next m) b := by
  have hcases : (w.effect m = none → Represents (w.next m) a) ∧
      ∀ e, w.effect m = some e → e.Enabled a ∧ Represents (w.next m) (a.next e) := by
    cases m with
    | parent => exact ⟨h.parent_silent he, fun _ => h.parent_counts he⟩
    | child c => exact ⟨h.child_silent he, fun _ => h.child_counts he⟩
  cases heffect : w.effect m with
  | none => exact ⟨[], a, .nil a, rfl, hcases.1 heffect⟩
  | some e =>
    obtain ⟨henabled, hnext⟩ := hcases.2 e heffect
    exact ⟨[e], a.next e, .single ⟨henabled, rfl⟩, rfl, hnext⟩

end Refinement

end Bytes

end MappedSlot
