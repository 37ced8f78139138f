/-
# What the mapped files do not guarantee

The parent does not wait for a line to be taken before it writes the next one, and both
children map the first file.  So the lines of the first file reach the children for sure only
if there is at most one, and the routing to the two children is kept only if there are no
lines at all.
-/
import OSLabs.MappedSlotAccounts

namespace MappedSlot

open VowelFilter

/-! ## The parent runs ahead -/

section Ahead

variable {w : World} {c : Child} {stack : Child → Chars} {input : List (Bool × List UInt8)}

/-- What the parent leaves as it is when it writes a line, and what it records. -/
theorem write_frame {below : Bool} {bytes : List UInt8} {rest : List (Bool × List UInt8)}
    (hinput : w.input = (below, bytes) :: rest) :
    (write w).input = rest ∧ (write w).parent = w.parent ∧ (write w).child = w.child ∧
      (write w).consumed = w.consumed ∧
      ∀ f, (write w).written f = w.written f ++ linesFor f [(below, bytes)] := by
  unfold write
  rw [hinput]
  refine ⟨rfl, rfl, rfl, rfl, fun f => ?_⟩
  dsimp only
  unfold linesFor
  by_cases hf : f = target below
  · subst hf
    rw [Function.update_self, List.filter_cons_of_pos (by simp)]
    rfl
  · rw [Function.update_of_ne hf, List.filter_cons_of_neg (by simpa using Ne.symm hf)]
    exact (List.append_nil _).symm

/-- The parent writes one line after the other while the children do nothing. -/
theorem exists_write_run (ahead : List (Bool × List UInt8)) {rest : List (Bool × List UInt8)}
    (hreading : w.parent = .reading) (hinput : w.input = ahead ++ rest) :
    ∃ w', Run Step w (List.replicate ahead.length .write) w' ∧ w'.parent = .reading ∧
      w'.input = rest ∧ w'.child = w.child ∧ w'.consumed = w.consumed ∧
      ∀ f, w'.written f = w.written f ++ linesFor f ahead := by
  induction ahead generalizing w with
  | nil => exact ⟨w, .nil w, hreading, hinput, rfl, rfl, fun f => (List.append_nil _).symm⟩
  | cons x ahead ih =>
      obtain ⟨below, bytes⟩ := x
      have he : Event.write.Enabled w := ⟨hreading, by rw [hinput]; exact List.cons_ne_nil _ _⟩
      obtain ⟨hrest, hparent, hchild, hconsumed, hwritten⟩ := write_frame hinput
      obtain ⟨w', hrun, h₁, h₂, h₃, h₄, h₅⟩ := ih (hparent.trans hreading) hrest
      refine ⟨w', .cons ⟨he, rfl⟩ hrun, h₁, h₂, h₃.trans hchild, h₄.trans hconsumed, fun f => ?_⟩
      rw [h₅, hwritten, List.append_assoc]
      unfold linesFor
      rw [← List.map_append, ← List.filter_append]
      rfl

/-- After a line was written its length stands in the file. -/
theorem size_write {below : Bool} {bytes : List UInt8} {rest : List (Bool × List UInt8)}
    (hinput : w.input = (below, bytes) :: rest) :
    ((write w).shared (target below)).size = (lineText bytes).length := by
  unfold write
  rw [hinput]
  dsimp only
  rw [Function.update_self]
  rfl

/-- A child that starts its loop takes what is in its file, if `done` is not set. -/
theorem exists_consume_run (hphase : (w.child c).phase = .atDone)
    (hdone : (w.shared c.mapped).done = false) (hsize : (w.shared c.mapped).size > 0) :
    ∃ w' x, Run Step w (List.replicate 3 (.advance c)) w' ∧
      w'.consumed = w.consumed ++ [x] ∧ x.child = c ∧ x.file = c.mapped := by
  have hself : ∀ (w : World) (p : Phase), ((w.goto c p).child c).phase = p := by
    intro w p
    rw [goto_child, if_pos rfl]
  have h₁ : w.next (.advance c) = w.goto c .atTest := by
    show advance w c = _
    simp only [advance, hphase, hdone]
    rfl
  have h₂ : (w.goto c .atTest).next (.advance c) = (w.goto c .atTest).goto c .atLock := by
    show advance _ c = _
    have hshared : (w.goto c .atTest).shared = w.shared := rfl
    simp only [advance, hself, hshared]
    rw [if_pos hsize]
  have h₃ : ((w.goto c .atTest).goto c .atLock).next (.advance c) =
      consume ((w.goto c .atTest).goto c .atLock) c := by
    show advance _ c = _
    simp only [advance, hself]
  have hconsumed : (consume ((w.goto c .atTest).goto c .atLock) c).consumed = w.consumed ++ [_] :=
    if_pos hsize
  have hrun : Run Step w (List.replicate 3 (.advance c))
      (consume ((w.goto c .atTest).goto c .atLock) c) := by
    refine .cons ⟨?_, h₁.symm⟩ (.cons ⟨?_, h₂.symm⟩ (.cons ⟨?_, h₃.symm⟩ (.nil _)))
    · show (w.child c).phase ≠ .left
      rw [hphase]
      decide
    · show ((w.goto c .atTest).child c).phase ≠ .left
      rw [hself]
      decide
    · show (((w.goto c .atTest).goto c .atLock).child c).phase ≠ .left
      rw [hself]
      decide
  exact ⟨_, _, hrun, hconsumed, rfl, rfl⟩

end Ahead

/-! ## Lines that are lost -/

/-- All lines that were written to the first file have been taken, in the order in which they
were written. -/
def AllTaken (w : World) : Prop :=
  (w.taken .file1).map Consumption.index = List.range (w.written .file1).length ∧
  (w.taken .file1).map Consumption.text = (w.written .file1).map consonants

/-- **No line of the first file is lost**: all have been taken when the parent is about to write
the next one there, and when all processes have finished. -/
def HandedOver (w : World) : Prop :=
  (∀ bytes rest, w.parent = .reading → w.input = (true, bytes) :: rest → AllTaken w) ∧
  (w.Finished → AllTaken w)

/-- Of two lines for the first file, one has others for it in front. -/
theorem exists_second_line {input : List (Bool × List UInt8)}
    (h : 2 ≤ (input.filter Prod.fst).length) :
    ∃ ahead bytes rest, input = ahead ++ (true, bytes) :: rest ∧ ahead.filter Prod.fst ≠ [] := by
  induction input using List.reverseRecOn with
  | nil => exact absurd h (by decide)
  | append_singleton input x ih =>
      obtain ⟨below, bytes⟩ := x
      rw [List.filter_append, List.length_append] at h
      cases below with
      | true =>
        refine ⟨input, bytes, [], rfl, List.ne_nil_of_length_pos ?_⟩
        have hone : ([(true, bytes)].filter Prod.fst).length = 1 := rfl
        omega
      | false =>
        have hnone : ([(false, bytes)].filter Prod.fst).length = 0 := rfl
        obtain ⟨ahead, bytes', rest, heq, hne⟩ := ih (by omega)
        exact ⟨ahead, bytes', rest ++ [(false, bytes)], by rw [heq]; simp, hne⟩

/-- When at most one line is written, nothing is written over. -/
theorem Accounts.overwritten_eq_nil {f : MappedFile} {w : World} (h : Accounts f w)
    (hone : (w.written f).length ≤ 1) : w.overwritten f = [] := by
  apply List.eq_nil_iff_forall_not_mem.mpr
  intro i hi
  have := h.later i hi
  omega

/-- When nothing was written over and nothing is unread, all lines have been taken. -/
theorem Accounts.allTaken {w : World} (h : Accounts .file1 w) (hover : w.overwritten .file1 = [])
    (hunread : w.unread .file1 = []) : AllTaken w := by
  have hall := h.all
  have horder := h.order
  rw [hunread, List.append_nil] at hall horder
  rw [hover, List.append_nil] at hall
  have hindex : (w.taken .file1).map Consumption.index = List.range (w.written .file1).length :=
    hall.eq_of_pairwise' horder List.pairwise_lt_range
  refine ⟨hindex, ?_⟩
  rw [h.map_text (List.Subset.refl _), hindex]
  exact map_range_getD consonants _ []

/-- **Lines are handed over for sure only when there is at most one**: no line of the first file
is lost in any run exactly when the draws send at most one line there. -/
theorem handed_over_iff_one_line {stack : Child → Chars} {input : List (Bool × List UInt8)}
    (hinput : ∀ x ∈ input, x.1 = true → lineText x.2 ≠ []) :
    (∀ es w, Run Step (initial stack input) es w → HandedOver w) ↔
      (input.filter Prod.fst).length ≤ 1 := by
  constructor
  · -- With a second line, the parent can write both before any child looks.
    intro hall
    by_contra hmany
    obtain ⟨ahead, bytes, rest, heq, hne⟩ := exists_second_line (Nat.lt_of_not_le hmany)
    obtain ⟨w, hrun, hreading, hrest, -, hconsumed, hwritten⟩ :=
      exists_write_run (w := initial stack input) ahead rfl heq
    obtain ⟨hindex, -⟩ := (hall _ w hrun).1 bytes rest hreading hrest
    have hnone : w.taken .file1 = [] := by
      unfold World.taken
      rw [hconsumed]
      rfl
    have hlength : (w.written .file1).length = (ahead.filter Prod.fst).length := by
      rw [hwritten, linesFor_file1]
      show ([] ++ _).length = _
      rw [List.nil_append, List.length_map]
    rw [hnone, hlength] at hindex
    have hzero := congrArg List.length hindex
    rw [List.length_range] at hzero
    exact hne (List.eq_nil_of_length_eq_zero hzero.symm)
  · -- With one line, nothing is ever written over.
    intro hone es w hrun
    have hstory := Story.of_run hrun
    have haccounts : Accounts .file1 w :=
      Accounts.of_run hrun fun x hx hfile => hinput x hx ((target_eq_file1 x).mp hfile)
    have hlength : (w.written .file1).length + (linesFor .file1 w.input).length ≤ 1 := by
      rw [← List.length_append, hstory.written, linesFor_file1, List.length_map]
      exact hone
    constructor
    · intro bytes rest _ hnext
      have hpos : 1 ≤ (linesFor .file1 w.input).length := by
        rw [hnext, linesFor_file1]
        exact Nat.succ_le_succ (Nat.zero_le _)
      have hnil : w.written .file1 = [] := List.eq_nil_of_length_eq_zero (by omega)
      apply haccounts.allTaken (haccounts.overwritten_eq_nil (by omega))
      apply List.eq_nil_iff_forall_not_mem.mpr
      intro i hi
      have := haccounts.succ_of_unread hi
      rw [hnil] at this
      exact Nat.succ_ne_zero i this
    · rintro ⟨-, hleft⟩
      apply haccounts.allTaken (haccounts.overwritten_eq_nil (by omega))
      exact World.unread_of_zero (hstory.left .child1 (hleft .child1)).2

/-- One line for the first file. -/
def oneLine : List (Bool × List UInt8) := [(true, [97, 98, 10])]

theorem handed_over_iff_one_line_one_line :
    (oneLine.filter Prod.fst).length = 1 ∧
      ((∀ es w, Run Step (initial (fun _ _ => 0) oneLine) es w → HandedOver w) ↔
        (oneLine.filter Prod.fst).length ≤ 1) :=
  ⟨by decide, handed_over_iff_one_line (by decide)⟩

/-- Two lines that are written one after the other. -/
theorem first_line_is_lost :
    ¬ ∀ input : List (Bool × List UInt8), (∀ x ∈ input, x.1 = true → lineText x.2 ≠ []) →
      ∀ stack es w, Run Step (initial stack input) es w → HandedOver w := by
  intro hall
  have hrun : Run.Possible (fun w e => e.Enabled w) World.next (initial (fun _ _ => 0) twoLines)
      [.write] := by decide
  obtain ⟨hindex, -⟩ := (hall twoLines (by decide) _ _ _ hrun.run).1 _ _ (by decide) rfl
  exact absurd hindex (by decide)

/-! ## Lines that reach the wrong child -/

/-- The file that the parent fills for a child. -/
def Child.own : Child → MappedFile
  | .child1 => .file1
  | .child2 => .file2

/-- **The routing is honoured**: what the children took is from their own files, and the second
child can still take the line that is in its file. -/
def RoutingHonoured (w : World) : Prop :=
  (∀ x ∈ w.consumed, x.file = x.child.own) ∧
  ((w.shared .file2).size > 0 → ∃ es w', Run Step w es w' ∧ ∃ x ∈ w'.consumed,
    x.child = .child2 ∧ x.file = .file2 ∧ x.index = (w.written .file2).length - 1)

/-- Where all lines are empty, no file ever holds anything. -/
structure Empty (w : World) : Prop where
  input : ∀ x ∈ w.input, lineText x.2 = []
  size : ∀ f, (w.shared f).size = 0
  consumed : w.consumed = []

theorem Empty.next {w : World} (h : Empty w) (e : Event) : Empty (w.next e) := by
  have hchange := fun f => fileChange_next f w e
  refine ⟨fun x hx => h.input x (input_next w e hx), fun f => ?_, ?_⟩
  · cases hchange f with
    | same hs => rw [hs.size, h.size]
    | line below bytes hmem hf hn => rw [hn.size, h.input _ hmem, List.length_nil]
    | taken x ht => exact ht.size
  · apply List.eq_nil_iff_forall_not_mem.mpr
    intro x hx
    have hold : ∀ f, w.taken f = [] := by
      intro f
      unfold World.taken
      rw [h.consumed]
      rfl
    have hx' : x ∈ (w.next e).taken x.file := List.mem_filter.mpr ⟨hx, by simp⟩
    cases hchange x.file with
    | same hs =>
      rw [hs.taken, hold] at hx'
      exact List.not_mem_nil hx'
    | line below bytes hmem hf hn =>
      rw [hn.taken, hold] at hx'
      exact List.not_mem_nil hx'
    | taken y ht =>
      have := ht.pos
      rw [h.size] at this
      exact Nat.lt_irrefl 0 this

/-- **The routing is honoured for sure only when there is nothing to route**: it is honoured in
all runs exactly when no line has a byte in it. -/
theorem routing_honoured_iff_no_lines (stack : Child → Chars)
    (input : List (Bool × List UInt8)) :
    (∀ es w, Run Step (initial stack input) es w → RoutingHonoured w) ↔
      ∀ x ∈ input, lineText x.2 = [] := by
  constructor
  · rintro hall ⟨below, bytes⟩ hmem
    by_contra hne
    obtain ⟨ahead, rest, heq⟩ := List.append_of_mem hmem
    obtain ⟨w, hrun, hreading, hrest, hchild, -⟩ :=
      exists_write_run (w := initial stack input) ahead rfl heq
    -- The line is written, and no child has done anything yet.
    have he : Event.write.Enabled w := ⟨hreading, by rw [hrest]; exact List.cons_ne_nil _ _⟩
    have hrun' : Run Step (initial stack input) _ (w.next .write) := hrun.snoc ⟨he, rfl⟩
    have hstory := Story.of_run hrun'
    obtain ⟨-, hparent, hchild', -⟩ := write_frame hrest
    have hsize : ((w.next .write).shared (target below)).size > 0 := by
      rw [show w.next .write = write w from rfl, size_write hrest]
      exact List.length_pos_of_ne_nil hne
    obtain ⟨hown, havailable⟩ := hall _ _ hrun'
    cases below with
    | true =>
      have hdone : ((w.next .write).shared .file1).done = false := by
        refine Bool.eq_false_of_not_eq_true fun hdone => hstory.done _ hdone ?_
        exact hparent.trans hreading
      have hphase : ((w.next .write).child .child2).phase = .atDone := by
        show ((write w).child .child2).phase = .atDone
        rw [hchild', hchild]
        rfl
      obtain ⟨w', x, hrun₂, hconsumed₂, hx2, hfile⟩ := exists_consume_run hphase hdone hsize
      obtain ⟨hown₂, -⟩ := hall _ _ (hrun'.append hrun₂)
      have hx : x ∈ w'.consumed := by
        rw [hconsumed₂]
        exact List.mem_append_right _ (List.mem_singleton.mpr rfl)
      have hwrong := hown₂ x hx
      rw [hfile, hx2] at hwrong
      exact absurd hwrong (by decide)
    | false =>
      -- The second child never looks into the second file.
      obtain ⟨es, w', hrun₂, x, hx, hx2, hfile, -⟩ := havailable hsize
      have hmapped := (Story.of_run (hrun'.append hrun₂)).mapped x hx
      rw [hfile, hx2] at hmapped
      exact absurd hmapped (by decide)
  · intro hempty es w hrun
    have h : Empty w := by
      refine hrun.preserves (fun w e w' h hstep => ?_) ⟨hempty, fun f => rfl, rfl⟩
      obtain ⟨-, rfl⟩ := hstep
      exact h.next e
    constructor
    · intro x hx
      rw [h.consumed] at hx
      exact absurd hx List.not_mem_nil
    · intro hsize
      rw [h.size] at hsize
      exact absurd hsize (Nat.lt_irrefl 0)

/-- The second child takes a line of the first file. -/
theorem second_child_takes_first_file :
    ¬ ∀ stack input es w, Run Step (initial stack input) es w → RoutingHonoured w := by
  intro hall
  have hrun : Run.Possible (fun w e => e.Enabled w) World.next (initial (fun _ _ => 0) oneLine)
      [.write, .advance .child2, .advance .child2, .advance .child2] := by decide
  obtain ⟨hown, -⟩ := hall _ _ _ _ hrun.run
  exact absurd hown (by decide)

end MappedSlot
