/-
# What the parent sends

The names are read with `scanf`, the text with `fgets`.  The newline behind the second name is
left for `fgets`, so an empty line is sent that is not part of the text.
-/
import OSLabs.PipeFilterFlow

namespace PipeFilter

open TextStream

/-- A file name as `scanf` reads it: not empty, without white space, no longer than the array. -/
structure IsName (filename : List UInt8) : Prop where
  nonempty : filename ≠ []
  noSpace : ∀ c ∈ filename, isSpace c = false
  length_le : filename.length ≤ 255

/-- What is typed in: the two names and the text, each on a new line. -/
def session (filename1 filename2 body : List UInt8) : List UInt8 :=
  filename1 ++ 10 :: (filename2 ++ 10 :: body)

/-- **Whole lines are routed**: every line of the text has a destination, and a pipe gets the lines
with that destination, in their order and nothing else. -/
def RoutesWholeLines (body : List UInt8) (w : World) : Prop :=
  ∃ dest : List Child, dest.length = (lines body).length ∧
    ∀ c, w.sent c = ((((lines body).zip dest).filter fun x => x.2 = c).map Prod.fst).flatten

section Routing

variable {filename1 filename2 body : List UInt8} {stack : Stack} {draws : ℕ → Bool}
  {es : List Event} {w : World}

/-- **The newline behind the second name stays** in the input. -/
theorem readNames_session (h1 : IsName filename1) (h2 : IsName filename2) :
    readNames (session filename1 filename2 body) = (filename1, filename2, 10 :: body) := by
  have hspace : isSpace 10 = true := by decide
  have hfirst : scanWord 255 (session filename1 filename2 body) =
      (filename1, 10 :: (filename2 ++ 10 :: body)) :=
    scanWord_eq h1.nonempty h1.length_le h1.noSpace hspace
  -- The second call skips the newline behind the first name; nobody skips the one behind its own.
  have hsecond : scanWord 255 (10 :: (filename2 ++ 10 :: body)) = (filename2, 10 :: body) := by
    rw [scanWord_cons_of_space hspace]
    exact scanWord_eq h2.nonempty h2.length_le h2.noSpace hspace
  unfold readNames
  rw [hfirst]
  dsimp only
  rw [hsecond]

theorem start_session (h1 : IsName filename1) (h2 : IsName filename2) :
    start stack draws (session filename1 filename2 body) = initial stack draws (10 :: body) := by
  rw [start, readNames_session h1 h2]

/-- What the invariant says when the parent has left its loop. -/
theorem Flow.sent_of_left {input : List UInt8} (h : Flow draws input w)
    (hleft : w.parent ≠ .reading) (c : Child) :
    w.sent c = (routed c draws (chunks (maxLine - 1) input)).flatten := by
  have hsent := h.sent c
  rw [h.ended hleft, chunks_nil, routed, List.flatten_nil, List.append_nil] at hsent
  exact hsent

theorem Flow.sent_perm {input : List UInt8} (h : Flow draws input w)
    (hleft : w.parent ≠ .reading) : (w.sent .child1 ++ w.sent .child2).Perm input := by
  rw [h.sent_of_left hleft, h.sent_of_left hleft]
  have hperm := routed_perm draws (chunks (maxLine - 1) input)
  rw [flatten_chunks (by decide)] at hperm
  exact hperm

/-- Where whole lines are routed, the pipes get as many bytes as the text has. -/
theorem RoutesWholeLines.sent_perm (h : RoutesWholeLines body w) :
    (w.sent .child1 ++ w.sent .child2).Perm body := by
  obtain ⟨dest, hlength, hsent⟩ := h
  have hperm := (dealt_perm (lines body) hlength).flatten
  rw [List.flatten_append, flatten_lines, ← hsent, ← hsent] at hperm
  exact hperm

/-- Every chunk goes whole to the child that its draw chooses. -/
theorem routed_eq (c : Child) (draws : ℕ → Bool) (ls : List (List UInt8)) :
    routed c draws ls =
      ((ls.zip ((List.range ls.length).map fun i => target (draws i))).filter fun x =>
        x.2 = c).map Prod.fst := by
  induction ls generalizing draws with
  | nil => rfl
  | cons l ls ih =>
      rw [List.length_cons, List.range_succ_eq_map, List.map_cons, List.map_map,
        List.zip_cons_cons, routed, ih]
      by_cases hc : target (draws 0) = c
      · rw [if_pos hc, List.filter_cons_of_pos (by simpa using hc), List.map_cons]
        rfl
      · rw [if_neg hc, List.filter_cons_of_neg (by simpa using hc)]
        rfl

/-- **Lines that fit into the array are routed whole**, of what is left behind the names. -/
theorem short_lines_are_routed_whole {input : List UInt8} (hzero : 0 ∉ input)
    (hshort : ∀ l ∈ lines input, l.length ≤ maxLine - 1)
    (h : Run Step (initial stack draws input) es w) (hleft : w.parent ≠ .reading) :
    RoutesWholeLines input w := by
  have hflow := Flow.of_run hzero h
  refine ⟨(List.range (lines input).length).map fun i => target (draws i), ?_, fun c => ?_⟩
  · rw [List.length_map, List.length_range]
  · rw [hflow.sent_of_left hleft, chunks_eq_lines (by decide) hshort, routed_eq]

/-- **One line too many is sent, always.**  Once the parent has left its loop, the pipes have got
one byte more than the text has, for all names, texts and draws; and it does leave its loop. -/
theorem extra_line_is_sent (h1 : IsName filename1) (h2 : IsName filename2) (hzero : 0 ∉ body) :
    (∃ es w, Run Step (start stack draws (session filename1 filename2 body)) es w ∧ w.Finished) ∧
      ∀ es w, Run Step (start stack draws (session filename1 filename2 body)) es w →
        w.parent ≠ .reading →
        (w.sent .child1 ++ w.sent .child2).Perm (10 :: body) ∧ ¬ RoutesWholeLines body w := by
  have hzero' : 0 ∉ 10 :: body := List.not_mem_cons_of_ne_of_not_mem (by decide) hzero
  rw [start_session h1 h2]
  refine ⟨exists_finished stack draws hzero', fun es w h hleft => ?_⟩
  have hperm := (Flow.of_run hzero' h).sent_perm hleft
  refine ⟨hperm, fun hwhole => ?_⟩
  -- Whole lines of the text are one byte less than what was sent.
  have hlength := (hperm.symm.trans hwhole.sent_perm).length_eq
  rw [List.length_cons] at hlength
  exact absurd hlength (Nat.succ_ne_self _)

/-- The names `a` and `b`, and a text of one line. -/
def oneLine : List UInt8 := [120, 10]

theorem isName_singleton {c : UInt8} (hc : isSpace c = false) : IsName [c] :=
  ⟨List.cons_ne_nil c [], fun _ hd => List.mem_singleton.mp hd ▸ hc, Nat.le_add_left 1 254⟩

theorem extra_line_is_sent_one_line : ∃ es w,
    Run Step (start {} (fun _ => true) (session [97] [98] oneLine)) es w ∧
      ¬ RoutesWholeLines oneLine w := by
  obtain ⟨⟨es, w, hrun, hfinished⟩, hnot⟩ := @extra_line_is_sent [97] [98] oneLine {}
    (fun _ => true) (isName_singleton (by decide)) (isName_singleton (by decide)) (by decide)
  exact ⟨es, w, hrun, (hnot es w hrun (by rw [hfinished.1]; decide)).2⟩

/-- The first pipe gets an empty line before the line of the text. -/
theorem empty_line_before_text :
    let events : List Event := [.send, .send, .close, .close]
    let w := events.foldl World.next (start {} (fun _ => true) (session [97] [98] oneLine))
    Run Step (start {} (fun _ => true) (session [97] [98] oneLine)) events w ∧
      w.parent = .waiting ∧ w.sent .child1 = [10, 120, 10] ∧ ¬ RoutesWholeLines oneLine w := by
  intro events w
  have hrun : Run.Possible (fun w e => e.Enabled w) World.next
      (start {} (fun _ => true) (session [97] [98] oneLine)) events := by decide
  have hsent : w.sent .child1 ++ w.sent .child2 = [10, 120, 10] := by decide
  refine ⟨hrun.run, by decide, by decide, fun hwhole => ?_⟩
  have hlength := hwhole.sent_perm.length_eq
  rw [hsent] at hlength
  exact absurd hlength (by decide)

end Routing

end PipeFilter
