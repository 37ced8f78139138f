/-
# No line is torn

Every run byte by byte stands for a run in which the sections under the semaphores are single steps.
So what is known of those runs is known of the bytes: a child prints whole lines, in the order in
which they were written, and no line is printed by both children.
-/
import OSLabs.MappedSlotRefinement

namespace MappedSlot

open Chars VowelFilter

/-! ## Runs -/

section Runs

variable {stack : Child → Chars} {input : List (Bool × List UInt8)} {ms : List Bytes.Mover}
  {w : Bytes.World} {a : MappedSlot.World}

/-- What has finished byte by byte has finished, with the same files. -/
theorem Bytes.Represents.finished (h : Bytes.Represents w a) (hfinished : w.Finished) :
    a.Finished ∧ a.shared = w.shared ∧
      ∀ c, (a.child c).outFile = (w.child c).outFile := by
  obtain ⟨hparent, hleft⟩ := hfinished
  refine ⟨⟨?_, fun c => ?_⟩, ?_, fun c => ?_⟩
  · rw [h.parent, hparent]
    rfl
  · rw [h.phase, hleft]
    rfl
  · funext f
    have hdata := h.data f
    rw [hparent] at hdata
    have hdata' : (w.shared f).data = (a.shared f).data := hdata
    cases hw : w.shared f with
    | mk data size done =>
      have hsize := h.size f
      have hdone := h.done f
      rw [hw] at hsize hdone hdata'
      cases ha : a.shared f with
      | mk data' size' done' =>
        rw [ha] at hsize hdone hdata'
        dsimp only at hsize hdone hdata'
        rw [hsize, hdone, hdata']
  · have hchild := h.child c
    rw [Bytes.childMatches_iff (by rw [hleft]; rfl)] at hchild
    exact hchild.2.symm

/-- Every run byte by byte stands for a run of single steps. -/
theorem exists_represented (h : Run Bytes.Step (Bytes.initial stack input) ms w) :
    ∃ es a, Run Step (initial stack input) es a ∧ Bytes.Represents w a := by
  apply h.exists_image _ (Bytes.represents_initial stack input)
  rintro w m w' a hw ⟨he, rfl⟩
  obtain ⟨es, b, hrun, -, hb⟩ := hw.step he
  exact ⟨es, b, hrun, hb⟩

/-- **Sections are single steps**: what the processes do byte by byte, they do when every section
under a semaphore is one step, and they end with the same files. -/
theorem sections_are_single_steps (h : Run Bytes.Step (Bytes.initial stack input) ms w) :
    ∃ es a, Run Step (initial stack input) es a ∧ Bytes.Represents w a ∧
      (w.Finished → a.Finished ∧ a.shared = w.shared ∧
        ∀ c, (a.child c).outFile = (w.child c).outFile) := by
  obtain ⟨es, a, hrun, hrep⟩ := exists_represented h
  exact ⟨es, a, hrun, hrep, hrep.finished⟩

end Runs

/-- The parent writes one line, byte by byte, the first child prints it, and all of them end. -/
def oneLineToTheEnd : List Bytes.Mover :=
  List.replicate 8 .parent ++ List.replicate 12 (.child .child1) ++ List.replicate 2 .parent ++
    List.replicate 2 (.child .child1) ++ List.replicate 2 (.child .child2)

/-- The first child printed the line without its vowel, and so did the child of the single steps. -/
theorem sections_are_single_steps_one_line :
    let w := oneLineToTheEnd.foldl Bytes.World.next
      (Bytes.initial (fun _ _ => 0) [(true, [97, 98, 10])])
    w.Finished ∧ ∃ es a, Run Step (initial (fun _ _ => 0) [(true, [97, 98, 10])]) es a ∧
      Bytes.Represents w a ∧ a.Finished ∧ a.shared = w.shared ∧
        (a.child .child1).outFile = [98, 10] ∧ (a.child .child2).outFile = [] := by
  intro w
  have hrun : Run.Possible (fun w m => m.Enabled w) Bytes.World.next
      (Bytes.initial (fun _ _ => 0) [(true, [97, 98, 10])]) oneLineToTheEnd := by decide +kernel
  have hfinished : w.Finished := by
    constructor
    · decide +kernel
    · rintro (_ | _)
      · decide +kernel
      · decide +kernel
  obtain ⟨es, a, hsteps, hrep, hends⟩ := sections_are_single_steps hrun.run
  obtain ⟨hdone, hshared, hfiles⟩ := hends hfinished
  refine ⟨hfinished, es, a, hsteps, hrep, hdone, hshared, (hfiles .child1).trans ?_,
    (hfiles .child2).trans ?_⟩
  · decide +kernel
  · decide +kernel

/-! ## What the children print -/

section Lines

variable {stack : Child → Chars} {input : List (Bool × List UInt8)} {ms : List Bytes.Mover}
  {w : Bytes.World} {a : MappedSlot.World}

/-- The numbers of the lines that a child has taken. -/
def World.numbersOf (a : World) (c : Child) : List ℕ := (a.takenBy c).map Consumption.index

/-- No line is taken by both children. -/
theorem Accounts.disjoint_numbers (h : Accounts .file1 a) (htaken : a.taken .file1 = a.consumed) :
    (a.numbersOf .child1).Disjoint (a.numbersOf .child2) := by
  have horder := (List.pairwise_append.mp h.order).1
  rw [htaken] at horder
  intro i hi₁ hi₂
  obtain ⟨x, hx, rfl⟩ := List.mem_map.mp hi₁
  obtain ⟨y, hy, hyx⟩ := List.mem_map.mp hi₂
  obtain ⟨hx, hxc⟩ := List.mem_filter.mp hx
  obtain ⟨hy, hyc⟩ := List.mem_filter.mp hy
  rw [decide_eq_true_eq] at hxc hyc
  have heq : y = x := List.inj_on_of_nodup_map horder.nodup hy hx hyx
  rw [heq, hxc] at hyc
  cases hyc

/-- **What the children have printed**: whole lines of the input without their vowels, each child in
the order of the lines, and no line twice. -/
structure PrintsWholeLines (input : List (Bool × List UInt8)) (w : Bytes.World)
    (numbers : Child → List ℕ) : Prop where
  inOrder : ∀ c, (numbers c).Pairwise (· < ·)
  apart : (numbers .child1).Disjoint (numbers .child2)
  lines : ∀ c, ∀ i ∈ numbers c, i < (input.filter Prod.fst).length
  /-- A child under the semaphore may be printing. -/
  outFile : ∀ c, (w.child c).place.inside = false → (w.child c).outFile =
    ((numbers c).map fun i =>
      consonants (((input.filter Prod.fst).map Prod.snd).getD i [])).flatten

/-- **No line is torn**: however the bytes are read and written, what a child has printed is made of
whole lines. -/
theorem no_line_is_torn
    (hinput : ∀ x ∈ input, x.1 = true → x.2 ≠ [] ∧ 0 ∉ x.2 ∧ x.2.length ≤ 999)
    (h : Run Bytes.Step (Bytes.initial stack input) ms w) :
    ∃ numbers, PrintsWholeLines input w numbers := by
  obtain ⟨es, a, hrun, hrep⟩ := exists_represented h
  have htext : ∀ x ∈ input, x.1 = true → lineText x.2 = x.2 := by
    intro x hx hbelow
    obtain ⟨-, hzero, hlen⟩ := hinput x hx hbelow
    exact lineText_eq hzero hlen
  have haccounts : Accounts .file1 a := by
    apply Accounts.of_run hrun
    intro x hx hfile
    have hbelow := (target_eq_file1 x).mp hfile
    rw [htext x hx hbelow]
    exact (hinput x hx hbelow).1
  have hstory := Story.of_run hrun
  have htaken : a.taken .file1 = a.consumed := by
    apply List.filter_eq_self.mpr
    intro x hx
    rw [decide_eq_true_eq, hstory.mapped x hx]
    cases x.child <;> rfl
  have hlines : linesFor .file1 input = (input.filter Prod.fst).map Prod.snd := by
    rw [linesFor_file1]
    apply List.map_congr_left
    intro x hx
    obtain ⟨hmem, hbelow⟩ := List.mem_filter.mp hx
    exact htext x hmem hbelow
  have hwritten : a.written .file1 <+: (input.filter Prod.fst).map Prod.snd :=
    ⟨_, (hstory.written .file1).trans hlines⟩
  -- What a child takes is a part of what is taken, in the same order.
  have hsub : ∀ c, (a.takenBy c).Sublist (a.taken .file1) := by
    intro c
    rw [htaken]
    exact List.filter_sublist
  have hlt : ∀ c, ∀ i ∈ a.numbersOf c, i < (a.written .file1).length := by
    intro c i hi
    apply haccounts.index_lt
    apply List.mem_append_left
    apply List.mem_append_left
    exact ((hsub c).map _).subset hi
  refine ⟨a.numbersOf, fun c => ?_, haccounts.disjoint_numbers htaken, fun c i hi => ?_,
    fun c hc => ?_⟩
  · exact (List.pairwise_append.mp haccounts.order).1.sublist ((hsub c).map _)
  · have := hwritten.length_le
    rw [List.length_map] at this
    exact lt_of_lt_of_le (hlt c i hi) this
  · -- Outside of the semaphore the file of a child is the one of the single steps.
    have hchild := (Bytes.childMatches_iff hc).mp (hrep.child c)
    rw [hchild.2, hstory.outFile c, haccounts.map_text (hsub c).subset]
    congr 1
    apply List.map_congr_left
    intro i hi
    obtain ⟨post, hpost⟩ := hwritten
    rw [← hpost, List.getD_append _ _ _ _ (hlt c i hi)]

end Lines

/-- The parent writes one line, byte by byte, and the first child prints it. -/
def oneLinePrinted : List Bytes.Mover :=
  List.replicate 8 .parent ++ List.replicate 12 (.child .child1)

theorem no_line_is_torn_one_line :
    let w := oneLinePrinted.foldl Bytes.World.next
      (Bytes.initial (fun _ _ => 0) [(true, [97, 98, 10])])
    (w.child .child1).outFile = [98, 10] ∧
      ∃ numbers, PrintsWholeLines [(true, [97, 98, 10])] w numbers := by
  have hrun : Run.Possible (fun w m => m.Enabled w) Bytes.World.next
      (Bytes.initial (fun _ _ => 0) [(true, [97, 98, 10])]) oneLinePrinted := by decide +kernel
  exact ⟨by decide +kernel, no_line_is_torn (by decide) hrun.run⟩

end MappedSlot
