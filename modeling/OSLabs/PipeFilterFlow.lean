/-
# What arrives in the files

The parent cuts its input into chunks and deals them out to two pipes; a child cuts what it
reads into other chunks.  Removing vowels does not care where a text is cut, so the file of a
child is the text that was routed to it without its vowels.  Every run comes to an end.
-/
import OSLabs.PipeFilter

namespace PipeFilter

open Chars TextStream VowelFilter

/-! ## Routed chunks -/

/-- The chunks that the draws send to the pipe of a child. -/
def routed (c : Child) : (ℕ → Bool) → List (List UInt8) → List (List UInt8)
  | _, [] => []
  | draws, l :: ls =>
    if target (draws 0) = c then l :: routed c (laterDraws draws) ls
    else routed c (laterDraws draws) ls

/-- For every byte of the chunks the child that it is sent to. -/
def destinations : (ℕ → Bool) → List (List UInt8) → List Child
  | _, [] => []
  | draws, l :: ls =>
    List.replicate l.length (target (draws 0)) ++ destinations (laterDraws draws) ls

section Routed

theorem length_destinations (draws : ℕ → Bool) (ls : List (List UInt8)) :
    (destinations draws ls).length = ls.flatten.length := by
  induction ls generalizing draws with
  | nil => rfl
  | cons l ls ih =>
      rw [destinations, List.length_append, List.length_replicate, ih, List.flatten_cons,
        List.length_append]

/-- Whatever is dealt out to the two children is dealt out once. -/
theorem dealt_perm {α : Type*} (l : List α) {ds : List Child} (hlength : ds.length = l.length) :
    (((l.zip ds).filter fun x => x.2 = .child1).map Prod.fst ++
      ((l.zip ds).filter fun x => x.2 = .child2).map Prod.fst).Perm l := by
  have hother : ∀ x : α × Child, decide (x.2 = .child2) = !decide (x.2 = .child1) := by
    rintro ⟨-, d⟩
    cases d <;> rfl
  have hperm := (List.filter_append_perm (fun x => decide (x.2 = .child1)) (l.zip ds)).map Prod.fst
  rw [List.map_fst_zip (Nat.le_of_eq hlength.symm), List.map_append] at hperm
  simp only [hother]
  exact hperm

theorem filter_zip_replicate (c d : Child) (l : List UInt8) :
    (((l.zip (List.replicate l.length d)).filter fun x => x.2 = c).map Prod.fst) =
      if d = c then l else [] := by
  induction l with
  | nil => simp
  | cons b l ih =>
      rw [List.length_cons, List.replicate_succ, List.zip_cons_cons]
      by_cases hd : d = c
      · rw [if_pos hd] at ih ⊢
        rw [List.filter_cons_of_pos (by simpa using hd), List.map_cons, ih]
      · rw [if_neg hd] at ih ⊢
        rw [List.filter_cons_of_neg (by simpa using hd), ih]

/-- What is routed to a child are the bytes with that destination, in their order. -/
theorem flatten_routed (c : Child) (draws : ℕ → Bool) (ls : List (List UInt8)) :
    (routed c draws ls).flatten =
      ((ls.flatten.zip (destinations draws ls)).filter fun x => x.2 = c).map Prod.fst := by
  induction ls generalizing draws with
  | nil => rfl
  | cons l ls ih =>
      rw [destinations, List.flatten_cons, List.zip_append (by rw [List.length_replicate]),
        List.filter_append, List.map_append, filter_zip_replicate, ← ih, routed]
      split_ifs
      · rw [List.flatten_cons]
      · rw [List.nil_append]

/-- Every byte is routed to one of the two children. -/
theorem routed_perm (draws : ℕ → Bool) (ls : List (List UInt8)) :
    ((routed .child1 draws ls).flatten ++ (routed .child2 draws ls).flatten).Perm ls.flatten := by
  rw [flatten_routed, flatten_routed]
  exact dealt_perm ls.flatten (length_destinations draws ls)

end Routed

/-! ## The invariant -/

/-- **How far the text has got**, from the given input and draws on. -/
structure Flow (draws : ℕ → Bool) (input : List UInt8) (w : World) : Prop where
  inputZero : 0 ∉ w.input
  pipeZero : ∀ c, 0 ∉ (w.pipe c).bytes
  stdinZero : ∀ c, 0 ∉ (w.child c).stdin
  sent : ∀ c, w.sent c ++ (routed c w.draws (chunks (maxLine - 1) w.input)).flatten =
    (routed c draws (chunks (maxLine - 1) input)).flatten
  file : ∀ c, (w.child c).file ++ consonants ((w.child c).stdin ++ (w.pipe c).bytes) =
    consonants (w.sent c)
  ended : w.parent ≠ .reading → w.input = []
  closed : ∀ c, (w.pipe c).closed = true → w.parent ≠ .reading
  waiting : w.parent = .waiting → ∀ c, (w.pipe c).closed = true
  closing : w.parent = .closing → (w.pipe .child1).closed = true
  finished : ∀ c, (w.child c).finished = true → (w.child c).stdin = [] ∧ w.AtEnd c

/-! ## What is left to do -/

/-- What is still to be done with the bytes of one pipe, with those that its child has read, and in
the child itself. -/
def childWork (pipe stdin : List UInt8) (calls : ℕ) : ℕ := 2 * pipe.length + stdin.length + calls

/-- What is still to be done by a parent and its two children: a byte is sent, read and filtered. -/
def work (input : List UInt8) (calls : ℕ) (child : Child → ℕ) : ℕ :=
  3 * input.length + calls + (child .child1 + child .child2)

section Work

variable {input input' : List UInt8} {calls k : ℕ} {child child' : Child → ℕ} {c : Child}

/-- Only one child has changed. -/
theorem work_change (input : List UInt8) (calls : ℕ) (hother : ∀ d, d ≠ c → child' d = child d) :
    work input calls child' + child c = work input calls child + child' c := by
  unfold work
  cases c with
  | child1 =>
    rw [hother .child2 (by decide)]
    omega
  | child2 =>
    rw [hother .child1 (by decide)]
    omega

/-- A step that leaves the parent alone and lessens what one child has to do. -/
theorem work_lt (hother : ∀ d, d ≠ c → child' d = child d) (hlt : child' c < child c) :
    work input calls child' < work input calls child := by
  have hchange := work_change input calls hother
  omega

/-- A byte that is sent has two thirds of its way before it. -/
theorem work_sent (hother : ∀ d, d ≠ c → child' d = child d) (hself : child' c = child c + 2 * k)
    (hlt : input'.length < input.length) (hle : input'.length + k ≤ input.length) :
    work input' calls child' < work input calls child := by
  have hchange := work_change input calls hother
  unfold work at hchange ⊢
  omega

end Work

def childWeight (w : World) (c : Child) : ℕ :=
  childWork (w.pipe c).bytes (w.child c).stdin (!(w.child c).finished).toNat

def parentWeight : ParentPhase → ℕ
  | .reading => 2
  | .closing => 1
  | .waiting => 0

/-- What is still to be done by the three processes. -/
def weight (w : World) : ℕ := work w.input (parentWeight w.parent) (childWeight w)

namespace Flow

variable {draws : ℕ → Bool} {input : List UInt8} {w : World} {c : Child} {n : ℕ}

theorem initial (stack : Stack) (hzero : 0 ∉ input) :
    Flow draws input (initial stack draws input) := by
  refine ⟨hzero, fun c => List.not_mem_nil, fun c => List.not_mem_nil, fun c => rfl, fun c => rfl,
    fun h => absurd rfl h, fun c h => ?_, fun h => ?_, fun h => ?_, fun c h => ?_⟩
  · exact absurd h Bool.false_ne_true
  · cases h
  · cases h
  · exact absurd h Bool.false_ne_true

/-- **One chunk is sent.** -/
theorem send (h : Flow draws input w) (he : Event.send.Enabled w) : Flow draws input (send w) := by
  obtain ⟨hreading, hne⟩ := he
  have hclosed : ∀ c, (w.pipe c).closed ≠ true := fun c hc => h.closed c hc hreading
  unfold PipeFilter.send
  rw [fgets_eq w.line hne]
  have hstring := isString_takeLine w.line (maxLine - 1) h.inputZero
  have htext := hstring.text_eq ((length_takeLine_le _ _).trans (Nat.sub_le maxLine 1))
  have hchunks := chunks_eq_cons (n := maxLine - 1) (by decide) hne
  set line := takeLine (maxLine - 1) w.input with hline
  dsimp only
  rw [htext]
  have hline0 := zero_notMem_takeLine (n := maxLine - 1) h.inputZero
  have hrest0 : 0 ∉ w.input.drop line.length := fun hmem => h.inputZero (List.mem_of_mem_drop hmem)
  refine ⟨hrest0, fun c => ?_, h.stdinZero, fun c => ?_, fun c => ?_,
    fun hne => absurd hreading hne, fun c hc => ?_, fun hw => ?_, fun hw => ?_, fun c hc => ?_⟩
  -- Only the pipe that the draw chooses gets bytes: the same two cases in each part.
  · dsimp only
    by_cases hc : c = target (w.draws 0)
    · rw [hc, Function.update_self]
      intro hmem
      exact (List.mem_append.mp hmem).elim (h.pipeZero _) hline0
    · rw [Function.update_of_ne hc]
      exact h.pipeZero c
  · dsimp only
    have hsent := h.sent c
    rw [hchunks, routed] at hsent
    by_cases hc : c = target (w.draws 0)
    · -- The first of the chunks still to be routed is now the last that was sent.
      rw [if_pos hc.symm, List.flatten_cons] at hsent
      rw [hc, Function.update_self, List.append_assoc, ← hc, hsent]
    · rw [if_neg (Ne.symm hc)] at hsent
      rw [Function.update_of_ne hc, hsent]
  · dsimp only
    have hfile := h.file c
    by_cases hc : c = target (w.draws 0)
    · subst hc
      rw [Function.update_self, Function.update_self, ← List.append_assoc, consonants_append,
        ← List.append_assoc, hfile, ← consonants_append]
    · rw [Function.update_of_ne hc, Function.update_of_ne hc, hfile]
  · dsimp only at hc
    refine absurd ?_ (hclosed c)
    by_cases heq : c = target (w.draws 0)
    · rwa [heq, Function.update_self, ← heq] at hc
    · rwa [Function.update_of_ne heq] at hc
  · exact absurd (hreading.symm.trans hw) (by decide)
  · exact absurd (hreading.symm.trans hw) (by decide)
  · exact absurd (h.finished c hc).2.2 (hclosed c)

/-- A pipe is closed. -/
theorem closePipe (h : Flow draws input w) (hnil : w.input = []) {c : Child} {p : ParentPhase}
    (hp : p ≠ .reading)
    (hwaiting : p = .waiting → ∀ d, d ≠ c → (w.pipe d).closed = true)
    (hclosing : p = .closing → c = .child1) : Flow draws input (closePipe w c p) := by
  have hpipe : ∀ d, ((PipeFilter.closePipe w c p).pipe d).bytes = (w.pipe d).bytes ∧
      (((PipeFilter.closePipe w c p).pipe d).closed = true ↔
        d = c ∨ (w.pipe d).closed = true) := by
    intro d
    unfold PipeFilter.closePipe
    dsimp only
    by_cases hd : d = c
    · rw [hd, Function.update_self]
      simp
    · rw [Function.update_of_ne hd]
      simp [hd]
  refine ⟨h.inputZero, fun d => ?_, h.stdinZero, h.sent, fun d => ?_, fun _ => hnil,
    fun d _ => hp, fun hw d => ?_, fun hw => ?_, fun d hd => ?_⟩
  · rw [(hpipe d).1]
    exact h.pipeZero d
  · rw [(hpipe d).1]
    exact h.file d
  · rw [(hpipe d).2]
    by_cases hd : d = c
    · exact Or.inl hd
    · exact Or.inr (hwaiting hw d hd)
  · rw [(hpipe _).2]
    exact Or.inl (hclosing hw).symm
  · obtain ⟨hstdin, hbytes, hclosed⟩ := h.finished d hd
    refine ⟨hstdin, ?_, ?_⟩
    · rw [(hpipe d).1]
      exact hbytes
    · rw [(hpipe d).2]
      exact Or.inr hclosed

theorem close (h : Flow draws input w) (he : Event.close.Enabled w) :
    Flow draws input (close w) := by
  unfold PipeFilter.close
  rcases he with ⟨hreading, hnil⟩ | hclosing
  · rw [hreading]
    exact h.closePipe hnil (by decide) (fun hw => by cases hw) fun _ => rfl
  · rw [hclosing]
    refine h.closePipe (h.ended (by rw [hclosing]; decide)) (by decide) (fun _ d hd => ?_)
      fun hw => by cases hw
    cases d with
    | child1 => exact h.closing hclosing
    | child2 => exact absurd rfl hd

/-- **Bytes are read from a pipe.** -/
theorem fill (h : Flow draws input w) (hlive : (w.child c).finished = false) (n : ℕ) :
    Flow draws input (fill w c n) := by
  have hchild : ∀ d, d ≠ c → (PipeFilter.fill w c n).child d = w.child d :=
    fun d hd => Function.update_of_ne hd _ _
  have hself : (PipeFilter.fill w c n).child c = _ := Function.update_self _ _ _
  have hpipe : ∀ d, d ≠ c → (PipeFilter.fill w c n).pipe d = w.pipe d :=
    fun d hd => Function.update_of_ne hd _ _
  have hpipeSelf : (PipeFilter.fill w c n).pipe c = _ := Function.update_self _ _ _
  have hclosed : ∀ d, ((PipeFilter.fill w c n).pipe d).closed = (w.pipe d).closed := by
    intro d
    by_cases hd : d = c
    · rw [hd, hpipeSelf]
    · rw [hpipe d hd]
  refine ⟨h.inputZero, fun d => ?_, fun d => ?_, h.sent, fun d => ?_, h.ended,
    fun d hd => h.closed d ((hclosed d).symm.trans hd),
    fun hw d => (hclosed d).trans (h.waiting hw d),
    fun hw => (hclosed _).trans (h.closing hw), fun d hd => ?_⟩
  · by_cases heq : d = c
    · rw [heq, hpipeSelf]
      exact fun hmem => h.pipeZero c (List.mem_of_mem_drop hmem)
    · rw [hpipe d heq]
      exact h.pipeZero d
  · by_cases heq : d = c
    · rw [heq, hself]
      intro hmem
      apply (List.mem_append.mp hmem).elim (h.stdinZero c)
      intro hmem
      exact h.pipeZero c (List.mem_of_mem_take hmem)
    · rw [hchild d heq]
      exact h.stdinZero d
  · by_cases heq : d = c
    · -- The bytes move from the front of the pipe to the end of what was read.
      subst heq
      rw [hself, hpipeSelf]
      dsimp only
      rw [List.append_assoc, List.take_append_drop]
      exact h.file d
    · rw [hchild d heq, hpipe d heq]
      exact h.file d
  · by_cases heq : d = c
    · rw [heq, hself] at hd
      exact absurd (hlive.symm.trans hd) Bool.false_ne_true
    · rw [hchild d heq] at hd ⊢
      unfold World.AtEnd
      rw [hpipe d heq]
      exact h.finished d hd

/-- **A child writes one line to its file**, without the vowels. -/
theorem filterLine (h : Flow draws input w) (he : (Event.filterLine c).Enabled w) :
    Flow draws input (filterLine w c) := by
  obtain ⟨hlive, hne, -⟩ := he
  have hstring := isString_takeLine (w.child c).line (maxLine - 1) (h.stdinZero c)
  have hle := (length_takeLine_le (maxLine - 1) (w.child c).stdin).trans (Nat.sub_le maxLine 1)
  have htext := (isString_removeVowels hstring hle).text_eq ((length_consonants_le _).trans hle)
  have hsplit := takeLine_append_drop (maxLine - 1) (w.child c).stdin
  unfold PipeFilter.filterLine
  dsimp only
  rw [fgets_eq _ hne]
  dsimp only
  rw [htext]
  refine ⟨h.inputZero, h.pipeZero, fun d => ?_, h.sent, fun d => ?_, h.ended, h.closed, h.waiting,
    h.closing, fun d hd => ?_⟩
  · dsimp only
    by_cases heq : d = c
    · rw [heq, Function.update_self]
      exact fun hmem => h.stdinZero c (List.mem_of_mem_drop hmem)
    · rw [Function.update_of_ne heq]
      exact h.stdinZero d
  · dsimp only
    by_cases heq : d = c
    · -- The child's own cut of the stream does not matter: `consonants` goes over `++`.
      subst heq
      have hfile := h.file d
      rw [Function.update_self]
      dsimp only
      conv_lhs at hfile =>
        enter [2, 1, 1]
        rw [← hsplit]
      rw [List.append_assoc, consonants_append] at hfile
      rw [List.append_assoc, hfile]
    · rw [Function.update_of_ne heq]
      exact h.file d
  · dsimp only at hd ⊢
    by_cases heq : d = c
    · rw [heq, Function.update_self] at hd
      exact absurd (hlive.symm.trans hd) Bool.false_ne_true
    · rw [Function.update_of_ne heq] at hd ⊢
      exact h.finished d hd

theorem finish (h : Flow draws input w) (he : (Event.finish c).Enabled w) :
    Flow draws input (finish w c) := by
  obtain ⟨-, hnil, hend⟩ := he
  have hchild : ∀ d, ((PipeFilter.finish w c).child d).stdin = (w.child d).stdin ∧
      ((PipeFilter.finish w c).child d).file = (w.child d).file := by
    intro d
    unfold PipeFilter.finish
    dsimp only
    by_cases hd : d = c
    · rw [hd, Function.update_self]
      exact ⟨rfl, rfl⟩
    · rw [Function.update_of_ne hd]
      exact ⟨rfl, rfl⟩
  refine ⟨h.inputZero, h.pipeZero, fun d => ?_, h.sent, fun d => ?_, h.ended, h.closed, h.waiting,
    h.closing, fun d hd => ?_⟩
  · rw [(hchild d).1]
    exact h.stdinZero d
  · rw [(hchild d).1, (hchild d).2]
    exact h.file d
  · rw [(hchild d).1]
    by_cases heq : d = c
    · rw [heq]
      exact ⟨hnil, hend⟩
    · have hsame : (PipeFilter.finish w c).child d = w.child d := Function.update_of_ne heq _ _
      rw [hsame] at hd
      exact h.finished d hd

/-- **Every step keeps the text.** -/
theorem next (h : Flow draws input w) {e : Event} (he : e.Enabled w) :
    Flow draws input (w.next e) := by
  cases e with
  | send => exact h.send he
  | close => exact h.close he
  | fill c n => exact h.fill he.1 n
  | filterLine c => exact h.filterLine he
  | finish c => exact h.finish he

theorem step {w' : World} {e : Event} (h : Flow draws input w) (hstep : Step w e w') :
    Flow draws input w' := by
  obtain ⟨he, rfl⟩ := hstep
  exact h.next he

theorem of_run {stack : Stack} (hzero : 0 ∉ input) {es : List Event}
    (h : Run Step (PipeFilter.initial stack draws input) es w) : Flow draws input w :=
  h.preserves (fun _ _ _ hflow hstep => hflow.step hstep) (initial stack hzero)

end Flow

/-! ## Every run ends -/

section Ends

variable {draws : ℕ → Bool} {input : List UInt8} {w w' : World} {c : Child} {e : Event}

/-- A step that leaves the parent alone and lessens what one child has to do. -/
theorem weight_lt (hinput : w'.input = w.input) (hparent : w'.parent = w.parent)
    (hother : ∀ d, d ≠ c → childWeight w' d = childWeight w d)
    (hlt : childWeight w' c < childWeight w c) : weight w' < weight w := by
  unfold weight
  rw [hinput, hparent]
  exact work_lt hother hlt

/-- A line is sent. -/
theorem Flow.weight_send (h : Flow draws input w) (he : Event.send.Enabled w) :
    weight (PipeFilter.send w) < weight w := by
  obtain ⟨-, hne⟩ := he
  have hstring := isString_takeLine w.line (maxLine - 1) h.inputZero
  have htext := hstring.text_eq ((length_takeLine_le _ _).trans (Nat.sub_le maxLine 1))
  have hpos := List.length_pos_of_ne_nil (takeLine_ne_nil (n := maxLine - 1) (by decide) hne)
  have hlength := congrArg List.length (takeLine_append_drop (maxLine - 1) w.input)
  unfold PipeFilter.send
  rw [fgets_eq w.line hne]
  set line := takeLine (maxLine - 1) w.input
  dsimp only
  rw [htext]
  set c := target (w.draws 0)
  rw [List.length_append] at hlength
  apply work_sent (c := c) (k := line.length)
  · intro d hd
    unfold childWeight
    dsimp only
    rw [Function.update_of_ne hd]
  · unfold childWeight childWork
    dsimp only
    rw [Function.update_self, List.length_append]
    omega
  · dsimp only
    omega
  · dsimp only
    omega

theorem weight_close (he : Event.close.Enabled w) : weight (PipeFilter.close w) < weight w := by
  have hsame : ∀ c p d, childWeight (closePipe w c p) d = childWeight w d := by
    intro c p d
    unfold childWeight closePipe
    dsimp only
    by_cases hd : d = c
    · rw [hd, Function.update_self]
    · rw [Function.update_of_ne hd]
  have hphase : ∀ c p, parentWeight p < parentWeight w.parent →
      weight (closePipe w c p) < weight w := by
    intro c p hlt
    unfold weight work
    rw [hsame, hsame]
    exact Nat.add_lt_add_right (Nat.add_lt_add_left hlt _) _
  unfold PipeFilter.close
  rcases he with ⟨hreading, -⟩ | hclosing
  · rw [hreading]
    exact hphase _ _ (by rw [hreading]; decide)
  · rw [hclosing]
    exact hphase _ _ (by rw [hclosing]; decide)

theorem weight_fill {n : ℕ} (he : (Event.fill c n).Enabled w) :
    weight (PipeFilter.fill w c n) < weight w := by
  obtain ⟨-, hpos, hle⟩ := he
  refine weight_lt (c := c) rfl rfl (fun d hd => ?_) ?_
  · unfold childWeight PipeFilter.fill
    dsimp only
    rw [Function.update_of_ne hd, Function.update_of_ne hd]
  · unfold childWeight childWork PipeFilter.fill
    dsimp only
    rw [Function.update_self, Function.update_self, List.length_append, List.length_take,
      List.length_drop]
    dsimp only
    omega

theorem weight_filterLine (he : (Event.filterLine c).Enabled w) :
    weight (PipeFilter.filterLine w c) < weight w := by
  obtain ⟨-, hne, -⟩ := he
  have hlt := length_drop_takeLine (n := maxLine - 1) (by decide) hne
  unfold PipeFilter.filterLine
  dsimp only
  rw [fgets_eq _ hne]
  refine weight_lt (c := c) rfl rfl (fun d hd => ?_) ?_
  · unfold childWeight
    dsimp only
    rw [Function.update_of_ne hd]
  · unfold childWeight childWork
    dsimp only
    rw [Function.update_self]
    dsimp only
    omega

theorem weight_finish (he : (Event.finish c).Enabled w) :
    weight (PipeFilter.finish w c) < weight w := by
  obtain ⟨hlive, -, -⟩ := he
  refine weight_lt (c := c) rfl rfl (fun d hd => ?_) ?_
  · unfold childWeight PipeFilter.finish
    dsimp only
    rw [Function.update_of_ne hd]
  · unfold childWeight PipeFilter.finish
    dsimp only
    rw [Function.update_self, hlive]
    exact Nat.lt_succ_self _

/-- **Every step leaves less to do.** -/
theorem Flow.weight_next (h : Flow draws input w) (he : e.Enabled w) :
    weight (w.next e) < weight w := by
  cases e with
  | send => exact h.weight_send he
  | close => exact weight_close he
  | fill c n => exact weight_fill he
  | filterLine c => exact weight_filterLine he
  | finish c => exact weight_finish he

theorem Flow.weight_step (h : Flow draws input w) (hstep : Step w e w') :
    weight w' < weight w := by
  obtain ⟨he, rfl⟩ := hstep
  exact h.weight_next he

/-- A run is no longer than there was to do. -/
theorem Flow.run_length {stack : Stack} (hzero : 0 ∉ input) {es : List Event}
    (h : Run Step (PipeFilter.initial stack draws input) es w) :
    es.length ≤ 3 * input.length + 4 := by
  have hlength : es.length + weight w ≤ weight (PipeFilter.initial stack draws input) :=
    h.length_le (fun _ _ _ hflow hstep => Flow.step hflow hstep)
      (fun _ _ _ hflow hstep => Flow.weight_step hflow hstep) (Flow.initial stack hzero)
  exact (Nat.le_add_right _ _).trans hlength

/-- **Somebody can go on** until all have finished. -/
theorem Flow.progress (h : Flow draws input w) : w.Finished ∨ ∃ e : Event, e.Enabled w := by
  cases hparent : w.parent with
  | reading =>
    by_cases hnil : w.input = []
    · exact Or.inr ⟨.close, Or.inl ⟨hparent, hnil⟩⟩
    · exact Or.inr ⟨.send, hparent, hnil⟩
  | closing => exact Or.inr ⟨.close, Or.inr hparent⟩
  | waiting =>
    by_cases hall : ∀ c, (w.child c).finished = true
    · exact Or.inl ⟨hparent, hall⟩
    · obtain ⟨c, hc⟩ := not_forall.mp hall
      have hlive : (w.child c).finished = false := Bool.eq_false_of_not_eq_true hc
      have hclosed := h.waiting hparent c
      by_cases hbytes : (w.pipe c).bytes = []
      · -- The pipe is at its end, so `fgets` does not wait for a newline.
        by_cases hstdin : (w.child c).stdin = []
        · exact Or.inr ⟨.finish c, hlive, hstdin, hbytes, hclosed⟩
        · exact Or.inr ⟨.filterLine c, hlive, hstdin, Or.inr (Or.inr ⟨hbytes, hclosed⟩)⟩
      · exact Or.inr ⟨.fill c 1, hlive, Nat.one_pos, List.length_pos_of_ne_nil hbytes⟩

/-- Every start can be followed by a run of all processes to their ends. -/
theorem exists_finished (stack : Stack) (draws : ℕ → Bool) (hzero : 0 ∉ input) :
    ∃ es w, Run Step (PipeFilter.initial stack draws input) es w ∧ w.Finished := by
  refine Run.exists_complete (fun _ _ _ hflow hstep => Flow.step hflow hstep)
    (fun _ _ _ hflow hstep => Flow.weight_step hflow hstep) (fun w hflow => ?_)
    (Flow.initial stack hzero)
  apply hflow.progress.imp_right
  rintro ⟨e, he⟩
  exact ⟨e, w.next e, he, rfl⟩

end Ends

/-! ## Conservation -/

/-- **The text is conserved**: what the files hold in the end. -/
structure Conserved (draws : ℕ → Bool) (input : List UInt8) (w : World) : Prop where
  /-- A file holds the chunks routed to its child, without the vowels. -/
  file : ∀ c, (w.child c).file = consonants (routed c draws (chunks (maxLine - 1) input)).flatten
  chunk : ∀ l ∈ chunks (maxLine - 1) input, l ≠ [] ∧ l.length ≤ maxLine - 1 ∧ 10 ∉ l.dropLast
  /-- Every byte has one destination, and its file holds the bytes with that destination that are
  not vowels, in their order. -/
  order : (destinations draws (chunks (maxLine - 1) input)).length = input.length ∧
    ∀ c, (w.child c).file =
      ((input.zip (destinations draws (chunks (maxLine - 1) input))).filter fun x =>
        x.2 = c ∧ isVowel x.1 = false).map Prod.fst
  /-- The two files together hold every byte that is not a vowel once. -/
  once : ((w.child .child1).file ++ (w.child .child2).file).Perm (consonants input)
  noVowel : ∀ c, ∀ b ∈ (w.child c).file, isVowel b = false

section Conservation

variable {stack : Stack} {draws : ℕ → Bool} {input : List UInt8} {es : List Event} {w : World}

/-- When all have finished, nothing is on its way. -/
theorem Flow.file_of_finished (h : Flow draws input w) (hfinished : w.Finished) (c : Child) :
    (w.child c).file = consonants (routed c draws (chunks (maxLine - 1) input)).flatten := by
  obtain ⟨hparent, hchild⟩ := hfinished
  obtain ⟨hstdin, hbytes, -⟩ := h.finished c (hchild c)
  have hinput := h.ended (by rw [hparent]; decide)
  have hsent := h.sent c
  have hfile := h.file c
  rw [hinput, chunks_nil, routed, List.flatten_nil, List.append_nil] at hsent
  rw [hstdin, hbytes, List.append_nil, consonants_nil, List.append_nil, hsent] at hfile
  exact hfile

theorem consonants_map_fst (l : List UInt8) (ds : List Child) (c : Child) :
    consonants (((l.zip ds).filter fun x => x.2 = c).map Prod.fst) =
      ((l.zip ds).filter fun x => x.2 = c ∧ isVowel x.1 = false).map Prod.fst := by
  rw [consonants, List.filter_map, List.filter_filter]
  refine congrArg _ (List.filter_congr fun x _ => ?_)
  rw [Bool.eq_iff_iff]
  simp [and_comm]

/-- What the invariant says when all have finished. -/
theorem Flow.conserved (h : Flow draws input w) (hfinished : w.Finished) :
    Conserved draws input w := by
  have hpos : 0 < maxLine - 1 := by decide
  have hfile := h.file_of_finished hfinished
  have hall := flatten_chunks hpos input
  refine ⟨hfile, fun l hl => of_mem_chunks hpos hl, ⟨?_, fun c => ?_⟩, ?_, fun c b hb => ?_⟩
  · rw [length_destinations, hall]
  · rw [hfile, flatten_routed, hall, consonants_map_fst]
  · rw [hfile, hfile, ← consonants_append]
    have hperm := routed_perm draws (chunks (maxLine - 1) input)
    rw [hall] at hperm
    exact hperm.filter _
  · rw [hfile] at hb
    exact isVowel_of_mem_consonants hb

/-- **The pipeline conserves the text.**  When all processes have finished, the files hold the text
without its vowels, wherever the two sides cut it; every run is finite, and some process can go on
until all have finished. -/
theorem pipeline_conserves_text (hzero : 0 ∉ input)
    (h : Run Step (initial stack draws input) es w) :
    (w.Finished → Conserved draws input w) ∧ es.length ≤ 3 * input.length + 4 ∧
      (w.Finished ∨ ∃ e : Event, e.Enabled w) := by
  have hflow := Flow.of_run hzero h
  exact ⟨hflow.conserved, Flow.run_length hzero h, hflow.progress⟩

/-- Two lines for the two children; the first child reads its line in two parts. -/
def twoLines : List UInt8 := [97, 98, 10, 99, 10]

def alternate : ℕ → Bool := fun n => n = 0

def twoLinesFiltered : List Event :=
  [.send, .fill .child1 1, .send, .close, .close, .fill .child2 2, .filterLine .child2,
    .fill .child1 2, .filterLine .child1, .finish .child1, .finish .child2]

theorem pipeline_conserves_text_two_lines :
    let w := twoLinesFiltered.foldl World.next (initial {} alternate twoLines)
    (w.child .child1).file = [98, 10] ∧ (w.child .child2).file = [99, 10] ∧
      Conserved alternate twoLines w := by
  have hrun : Run.Possible (fun w e => e.Enabled w) World.next (initial {} alternate twoLines)
      twoLinesFiltered := by decide
  refine ⟨by decide, by decide, (pipeline_conserves_text (by decide) hrun.run).1 ⟨by decide, ?_⟩⟩
  intro c
  cases c <;> decide

end Conservation

end PipeFilter
