/-
# Malformed lines

A session that reads all lines is compared with one that reads the well-formed lines only.  As long
as every other line is quiet and each line comes to stdio by itself, the two have the same effects
step by step, and nothing is left when no more input is found.  A number that cannot be read takes
the effect of every later line; so does a line that comes to stdio together with the next one, which
`input_available` does not see there.
-/
import OSLabs.ControllerReading

namespace NodeTree

namespace Session

/-! ## Two sessions -/

open Classical in
/-- The lines without the malformed ones. -/
noncomputable def wellFormedLines (lines : List (List UInt8)) : List (List UInt8) :=
  lines.filter fun line => ∃ cmd, WellFormed line cmd

/-- `input_available` or `read`. -/
def Label.OfInput : Label → Prop
  | .poll | .read _ => True
  | _ => False

/-- The first labels are the second ones without the malformed lines and some of the passes, and
apart from when `input_available` and `read` were called. -/
inductive Without : List Label → List Label → Prop
  | nil : Without [] []
  | keep {ms ls : List Label} {x : Label} (hx : ∀ line, x = .type line → ∃ cmd, WellFormed line cmd)
      (h : Without ms ls) : Without (x :: ms) (x :: ls)
  | line {ms ls : List Label} {line : List UInt8} (hline : ¬ ∃ cmd, WellFormed line cmd)
      (h : Without ms ls) : Without ms (.type line :: ls)
  | pass {ms ls : List Label} (l : Locals) (o : Outcome) (h : Without ms ls) :
      Without ms (.pass l o :: ls)
  | left {ms ls : List Label} {x : Label} (hx : x.OfInput) (h : Without ms ls) : Without (x :: ms) ls
  | right {ms ls : List Label} {x : Label} (hx : x.OfInput) (h : Without ms ls) : Without ms (x :: ls)

/-- The controller finds no input. -/
def Idle (s : Session) : Prop := s.reading = false ∧ s.descriptor = []

/-- Every line is read. -/
def Exhausted (s : Session) : Prop := s.Idle ∧ Blank s.stdin.bytes

/-- **The malformed lines do no harm**, in an environment.  What happens with all lines happens with
the well-formed ones, which are carried out when no more input is found, and the other way round; and
a pass that found input comes to its end without any more. -/
structure Unharmed (env : Session → Label → Prop) (lines : List (List UInt8)) : Prop where
  sound : ∀ ls s, Run (StepIn env) start ls s → typedLines ls = lines →
    ∃ ms s', Run (StepIn env) start ms s' ∧ Without ms ls ∧ SameEffects s.world s'.world ∧
      (s.Idle → s'.Exhausted)
  complete : ∀ ms s', Run (StepIn env) start ms s' → typedLines ms = wellFormedLines lines →
    ∃ ls s, Run (StepIn env) start ls s ∧ typedLines ls = lines ∧ Without ms ls ∧
      SameEffects s.world s'.world
  progress : ∀ ls s, Run (StepIn env) start ls s → typedLines ls = lines →
    s.world.ctrlRunning = true → s.reading = true → ∀ l o, ∃ rs t,
      Run (StepIn env) s (rs ++ [.pass l o]) t ∧ (∀ x ∈ rs, ∃ n, x = .read n) ∧ t.unread < s.unread

/-- The same effects so far, and the same commands left. -/
structure Corresponds (s s' : Session) : Prop where
  effects : SameEffects s.world s'.world
  left : ∃ lines lines' cmds, Reading True s lines cmds ∧ Reading False s' lines' cmds

/-! ## Labels -/

section Labels

variable {ms ls ms' ls' rs : List Label} {x : Label}

theorem Without.append (h : Without ms ls) (h' : Without ms' ls') :
    Without (ms ++ ms') (ls ++ ls') := by
  induction h with
  | nil => exact h'
  | keep hx _ ih => exact .keep hx ih
  | line hline _ ih => exact .line hline ih
  | pass l o _ ih => exact .pass l o ih
  | left hx _ ih => exact .left hx ih
  | right hx _ ih => exact .right hx ih

/-- Reads do not matter. -/
theorem Without.reads_left (h : Without ms ls) (hrs : ∀ x ∈ rs, ∃ n, x = .read n) :
    Without (rs ++ ms) ls := by
  induction rs with
  | nil => exact h
  | cons x rs ih =>
    obtain ⟨n, rfl⟩ := hrs x List.mem_cons_self
    exact .left trivial (ih fun y hy => hrs y (List.mem_cons_of_mem _ hy))

theorem Without.reads_right (h : Without ms ls) (hrs : ∀ x ∈ rs, ∃ n, x = .read n) :
    Without ms (rs ++ ls) := by
  induction rs with
  | nil => exact h
  | cons x rs ih =>
    obtain ⟨n, rfl⟩ := hrs x List.mem_cons_self
    exact .right trivial (ih fun y hy => hrs y (List.mem_cons_of_mem _ hy))

theorem typedLines_append (ls ls' : List Label) :
    typedLines (ls ++ ls') = typedLines ls ++ typedLines ls' := List.filterMap_append

theorem typedLines_reads (hrs : ∀ x ∈ rs, ∃ n, x = .read n) : typedLines rs = [] := by
  apply List.filterMap_eq_nil_iff.mpr
  intro x hx
  obtain ⟨n, rfl⟩ := hrs x hx
  rfl

/-- The well-formed lines are typed. -/
theorem Without.typedLines (h : Without ms ls) :
    typedLines ms = wellFormedLines (typedLines ls) := by
  induction h with
  | nil => rfl
  | @keep ms ls x hx _ ih =>
    cases x with
    | type line =>
      show line :: Session.typedLines ms = wellFormedLines (line :: Session.typedLines ls)
      rw [ih]
      exact (List.filter_cons_of_pos (by simpa using hx line rfl)).symm
    | _ => exact ih
  | @line ms ls line hline _ ih =>
    show _ = wellFormedLines (line :: Session.typedLines ls)
    rw [ih]
    exact (List.filter_cons_of_neg (by simpa using hline)).symm
  | pass l o _ ih => exact ih
  | @left ms ls x hx _ ih =>
    cases x with
    | poll => exact ih
    | read n => exact ih
    | _ => exact hx.elim
  | @right ms ls x hx _ ih =>
    cases x with
    | poll => exact ih
    | read n => exact ih
    | _ => exact hx.elim

end Labels

/-! ## Passes -/

section Passes

variable {noise : Prop} {s s' t t' : Session} {lines : List (List UInt8)} {cmds : List Command}
  {cmd : Command} {l : Locals} {o : Outcome} {x : Label}

/-- Between the passes stdio holds no command. -/
theorem Reading.commands_eq (h : Reading noise s lines cmds) (hidle : s.reading = false) :
    cmds = commands lines := by
  obtain ⟨held, -, rfl, hnone⟩ := h.holds
  rw [hnone hidle, List.nil_append]

/-- While a command is left, input is found. -/
theorem Reading.inputAvailable (h : Reading noise s lines (cmd :: cmds)) (hidle : s.reading = false) :
    s.inputAvailable = true := by
  have hcmds := h.commands_eq hidle
  cases lines with
  | nil => cases hcmds
  | cons line rest =>
    obtain ⟨c, tail, hline⟩ := List.exists_cons_of_ne_nil (h.isLine line List.mem_cons_self).ne_nil
    rw [Session.inputAvailable, h.descriptor, hline]
    exact Bool.or_true _

/-- Nothing is left where the controller finds no input. -/
theorem Reading.exhausted {lines' : List (List UInt8)} (h : Reading noise s lines cmds) (hidle : s.Idle)
    (h' : Reading False s' lines' cmds) (hidle' : s'.reading = false) : s'.Exhausted := by
  have hnil : ∀ {p : Prop} {u : Session} {lines}, Reading p u lines cmds → u.descriptor = [] →
      lines = [] := by
    intro p u lines hu hempty
    rw [hu.descriptor, List.flatten_eq_nil_iff] at hempty
    refine List.eq_nil_iff_forall_not_mem.mpr ?_
    intro line hline
    exact (hu.isLine line hline).ne_nil (hempty line hline)
  have hnone : cmds = [] := by
    rw [h.commands_eq hidle.1, hnil h hidle.2]
    rfl
  subst hnone
  have hlines : lines' = [] := by
    refine List.eq_nil_iff_forall_not_mem.mpr ?_
    intro line hline
    obtain ⟨cmd, hcmd⟩ := (h'.kind line hline).resolve_left id
    have hno := List.filterMap_eq_nil_iff.mp (h'.commands_eq hidle').symm line hline
    exact commandOf_eq_none_iff.mp hno ⟨cmd, hcmd⟩
  refine ⟨⟨hidle', by rw [h'.descriptor, hlines]; rfl⟩, ?_⟩
  obtain ⟨held, hholds, -, hheld⟩ := h'.holds
  rw [hheld hidle'] at hholds
  cases hholds with
  | silent hsilent =>
    cases hsilent with
    | done hblank => exact hblank
    | skip hnoise => exact hnoise.elim

/-- **Up to the next command**: passes without an effect, and the one that carries it out. -/
theorem Reading.exists_run (h : Reading True s lines (cmd :: cmds)) (hidle : s.reading = false)
    (hrun : s.world.ctrlRunning = true) (l : Locals) (o : Outcome) :
    ∃ ls t lines', Run (StepIn OneLine) s ls t ∧ typedLines ls = [] ∧ Without [.pass l o] ls ∧
      Reading True t lines' cmds ∧ t.reading = false ∧
      ∃ w, SameEffects w s.world ∧ t.world = w.next (.command cmd o) := by
  -- Every pass makes less of what is unread.
  induction hn : s.unread using Nat.strong_induction_on generalizing s lines with
  | _ n ih =>
    have hpoll : StepIn OneLine s .poll { s with reading := s.inputAvailable } :=
      ⟨trivial, .poll hrun hidle⟩
    obtain ⟨rs, t, lines', hrs, hreads, hlt, hidle', hcase⟩ :=
      (h.poll hidle).exists_pass (h.inputAvailable hidle) hrun l o
    have htyped : typedLines (.poll :: (rs ++ [.pass l o])) = [] := by
      show typedLines (rs ++ [.pass l o]) = []
      rw [typedLines_append, typedLines_reads hreads]
      rfl
    rcases hcase with ⟨-, hreading, heffect⟩ | ⟨cmd', rest, heq, hreading, hworld⟩
    · have hrun' : t.world.ctrlRunning = true := heffect.ctrlRunning.trans hrun
      obtain ⟨ls, u, lines'', hls, hnone, hwithout, hu, hidleu, w, hw, hnext⟩ :=
        ih t.unread (hn ▸ hlt) hreading hidle' hrun' rfl
      refine ⟨.poll :: (rs ++ [.pass l o]) ++ ls, u, lines'', .cons hpoll (hrs.append hls), ?_, ?_, hu,
        hidleu, w, hw.trans heffect, hnext⟩
      · rw [typedLines_append, htyped, hnone]
        rfl
      · have hskip : Without [] (.poll :: (rs ++ [.pass l o])) :=
          .right trivial ((Without.pass l o .nil).reads_right hreads)
        exact hskip.append hwithout
    · obtain ⟨rfl, rfl⟩ := List.cons.inj heq
      have hkeep : Without [.pass l o] [.pass l o] := .keep (fun _ hx => Label.noConfusion hx) .nil
      exact ⟨_, t, lines', .cons hpoll hrs, htyped, .right trivial (hkeep.reads_right hreads),
        hreading, hidle', _, .refl _, hworld⟩

/-! ## Step by step -/

/-- A typed line is tame. -/
def Label.Tamed (x : Label) : Prop := ∀ line, x = .type line → Tame line

/-- **A step with all lines** is one with the well-formed lines, or has no effect. -/
theorem Corresponds.forth (h : Corresponds s s') (hidle : s'.reading = false)
    (hstep : StepIn OneLine s x t) (hx : x.Tamed) :
    ∃ ms t', Run (StepIn OneLine) s' ms t' ∧ Without ms [x] ∧ Corresponds t t' ∧
      t'.reading = false := by
  obtain ⟨lines, lines', cmds, hs, hs'⟩ := h.left
  obtain ⟨henv, hstep⟩ := hstep
  cases hstep with
  | @type line hopen hline =>
    have htame := hx line rfl
    have hnext := hs.type hline htame (.inl trivial)
    by_cases hcmd : ∃ cmd, WellFormed line cmd
    · have hnext' := hs'.type hline htame (.inr hcmd)
      have htype : StepIn OneLine s' (.type line) _ := ⟨trivial, .type hs'.opened hline⟩
      refine ⟨_, _, .single htype, .keep ?_ .nil, ⟨h.effects, _, _, _, hnext, hnext'⟩, hidle⟩
      intro line' heq
      cases heq
      exact hcmd
    · rw [commandOf_eq_none_iff.mpr hcmd, Option.toList_none, List.append_nil] at hnext
      exact ⟨[], s', .nil s', .line hcmd .nil, ⟨h.effects, _, _, _, hnext, hs'⟩, hidle⟩
  | close => exact henv.elim
  | poll hrun hidle₀ =>
    exact ⟨[], s', .nil s', .right trivial .nil, ⟨h.effects, _, _, _, hs.poll hidle₀, hs'⟩, hidle⟩
  | read hreading hmore hpos hn =>
    obtain ⟨line, rest, -, hfill, -⟩ := hs.fill hreading hmore henv
    exact ⟨[], s', .nil s', .right trivial .nil, ⟨h.effects, _, _, _, hfill, hs'⟩, hidle⟩
  | @pass _ l o hrun hreading hpass =>
    obtain ⟨-, -, ⟨-, hnext, heffect⟩ | ⟨cmd, rest, rfl, hnext, hworld⟩⟩ := hs.pass hpass
    · exact ⟨[], s', .nil s', .pass l o .nil, ⟨heffect.trans h.effects, _, _, _, hnext, hs'⟩, hidle⟩
    · -- The session without the malformed lines makes a whole pass now.
      have hrun' : s'.world.ctrlRunning = true := h.effects.ctrlRunning.symm.trans hrun
      have hpoll : StepIn OneLine s' .poll _ := ⟨trivial, .poll hrun' hidle⟩
      obtain ⟨rs, t', lines'', hrs, hreads, -, hidle', hcase⟩ :=
        (hs'.poll hidle).exists_pass (hs'.inputAvailable hidle) hrun' l o
      rcases hcase with ⟨hfalse, -⟩ | ⟨cmd', rest', heq, hnext', hworld'⟩
      · exact hfalse.elim
      · obtain ⟨rfl, rfl⟩ := List.cons.inj heq
        have hkeep : Without [.pass l o] [.pass l o] := .keep (fun _ hx => Label.noConfusion hx) .nil
        refine ⟨_, t', .cons hpoll hrs, .left trivial (hkeep.reads_left hreads),
          ⟨?_, _, _, _, hnext, hnext'⟩, hidle'⟩
        rw [hworld, hworld']
        exact h.effects.next _
  | @other e he hother hidle₀ =>
    have hstep' : StepIn OneLine s' (.other e) _ :=
      ⟨trivial, .other (h.effects.enabled he) hother fun _ => hidle⟩
    refine ⟨_, _, .single hstep', .keep (fun _ hx => Label.noConfusion hx) .nil, ⟨?_, _, _, _,
      hs.other _, hs'.other _⟩, hidle⟩
    exact h.effects.next e

/-- **A step with the well-formed lines** that types nothing is one with all lines, behind passes
without an effect. -/
theorem Corresponds.back (h : Corresponds s s') (hidle : s.reading = false)
    (hstep : StepIn OneLine s' x t') (hx : ∀ line, x ≠ .type line) :
    ∃ ls t, Run (StepIn OneLine) s ls t ∧ typedLines ls = [] ∧ Without [x] ls ∧ Corresponds t t' ∧
      t.reading = false := by
  obtain ⟨lines, lines', cmds, hs, hs'⟩ := h.left
  obtain ⟨henv, hstep⟩ := hstep
  cases hstep with
  | @type line hopen hline => exact absurd rfl (hx line)
  | close => exact henv.elim
  | poll hrun hidle₀ =>
    exact ⟨[], s, .nil s, rfl, .left trivial .nil, ⟨h.effects, _, _, _, hs, hs'.poll hidle₀⟩, hidle⟩
  | read hreading hmore hpos hn =>
    obtain ⟨line, rest, -, hfill, -⟩ := hs'.fill hreading hmore henv
    exact ⟨[], s, .nil s, rfl, .left trivial .nil, ⟨h.effects, _, _, _, hs, hfill⟩, hidle⟩
  | @pass _ l o hrun hreading hpass =>
    obtain ⟨-, -, ⟨hfalse, -⟩ | ⟨cmd, rest, rfl, hnext', hworld'⟩⟩ := hs'.pass hpass
    · exact hfalse.elim
    · have hrun' : s.world.ctrlRunning = true := h.effects.ctrlRunning.trans hrun
      obtain ⟨ls, t, lines'', hls, hnone, hwithout, hnext, hidle', w, hw, hworld⟩ :=
        hs.exists_run hidle hrun' l o
      refine ⟨ls, t, hls, hnone, hwithout, ⟨?_, _, _, _, hnext, hnext'⟩, hidle'⟩
      rw [hworld, hworld']
      exact (hw.trans h.effects).next _
  | @other e he hother hidle₀ =>
    have hstep' : StepIn OneLine s (.other e) _ :=
      ⟨trivial, .other (h.effects.symm.enabled he) hother fun _ => hidle⟩
    refine ⟨_, _, .single hstep', rfl, .keep (fun _ hx => Label.noConfusion hx) .nil, ⟨?_, _, _, _,
      hs.other _, hs'.other _⟩, hidle⟩
    exact h.effects.next e

/-- Malformed lines are typed. -/
theorem Corresponds.types {pre : List (List UInt8)} (h : Corresponds s s') (hidle : s.reading = false)
    (hline : ∀ line ∈ pre, IsLine line) (htame : ∀ line ∈ pre, Tame line)
    (hbad : ∀ line ∈ pre, ¬ ∃ cmd, WellFormed line cmd) :
    ∃ ls t, Run (StepIn OneLine) s ls t ∧ typedLines ls = pre ∧ Without [] ls ∧ Corresponds t s' ∧
      t.reading = false := by
  induction pre generalizing s with
  | nil => exact ⟨[], s, .nil s, rfl, .nil, h, hidle⟩
  | cons line pre ih =>
    obtain ⟨lines, lines', cmds, hs, hs'⟩ := h.left
    have hcmd := hbad line List.mem_cons_self
    have hnext := hs.type (hline line List.mem_cons_self) (htame line List.mem_cons_self) (.inl trivial)
    rw [commandOf_eq_none_iff.mpr hcmd, Option.toList_none, List.append_nil] at hnext
    have hstep : StepIn OneLine s (.type line) _ :=
      ⟨trivial, .type hs.opened (hline line List.mem_cons_self)⟩
    have hcorresponds : Corresponds { s with descriptor := s.descriptor ++ line } s' :=
      ⟨h.effects, _, _, _, hnext, hs'⟩
    obtain ⟨ls, t, hls, htyped, hwithout, ht, hidle'⟩ := ih hcorresponds hidle
      (fun x hx => hline x (List.mem_cons_of_mem _ hx))
      (fun x hx => htame x (List.mem_cons_of_mem _ hx)) (fun x hx => hbad x (List.mem_cons_of_mem _ hx))
    refine ⟨.type line :: ls, t, .cons hstep hls, ?_, .line hcmd hwithout, ht, hidle'⟩
    show line :: typedLines ls = _
    rw [htyped]

/-- **The well-formed lines and all lines**: a run with the first is one with the others, typed as
they stand between them. -/
theorem Corresponds.exists_run {ms : List Label} {todo : List (List UInt8)} (h : Corresponds s s')
    (hidle : s.reading = false) (hrun : Run (StepIn OneLine) s' ms t')
    (hline : ∀ line ∈ todo, IsLine line) (htame : ∀ line ∈ todo, Tame line)
    (htyped : typedLines ms = wellFormedLines todo) :
    ∃ ls t, Run (StepIn OneLine) s ls t ∧ typedLines ls = todo ∧ Without ms ls ∧
      SameEffects t.world t'.world := by
  induction hrun generalizing s todo with
  | nil s' =>
    -- What is left of the lines is malformed.
    have hbad : ∀ line ∈ todo, ¬ ∃ cmd, WellFormed line cmd := by
      intro line hmem
      have hall := List.filter_eq_nil_iff.mp htyped.symm line hmem
      simpa using hall
    obtain ⟨ls, t, hls, hall, hwithout, ht, -⟩ := h.types hidle hline htame hbad
    exact ⟨ls, t, hls, hall, hwithout, ht.effects⟩
  | @cons s' u' t' x ms hstep hrest ih =>
    by_cases hx : ∀ line, x ≠ .type line
    · obtain ⟨ls, u, hls, hnone, hwithout, hu, hidle'⟩ := h.back hidle hstep hx
      have htail : typedLines ms = wellFormedLines todo := by
        rw [← htyped]
        cases x with
        | type line => exact absurd rfl (hx line)
        | _ => rfl
      obtain ⟨ls', t, hls', hall, hwithout', ht⟩ := ih hu hidle' hline htame htail
      refine ⟨ls ++ ls', t, hls.append hls', ?_, hwithout.append hwithout', ht⟩
      rw [typedLines_append, hnone, hall, List.nil_append]
    · -- The malformed lines in front of this one are typed first.
      push Not at hx
      obtain ⟨line, rfl⟩ := hx
      obtain ⟨pre, rest, rfl, hbad, hcmd, htail⟩ := List.filter_eq_cons_iff.mp htyped.symm
      have hmem : ∀ y ∈ line :: rest, y ∈ pre ++ line :: rest := fun y hy => List.mem_append_right _ hy
      obtain ⟨ls, u, hls, hpre, hwithout, hu, hidle'⟩ := h.types hidle
        (fun y hy => hline y (List.mem_append_left _ hy))
        (fun y hy => htame y (List.mem_append_left _ hy)) (fun y hy => by simpa using hbad y hy)
      have hcmd' : ∃ cmd, WellFormed line cmd := by simpa using hcmd
      have hfirst := hline line (hmem line List.mem_cons_self)
      have hfirst' := htame line (hmem line List.mem_cons_self)
      obtain ⟨lines, lines', cmds, hsu, hs'⟩ := hu.left
      obtain ⟨-, hstep⟩ := hstep
      cases hstep with
      | type hopen hisLine =>
        have hnext : Corresponds { u with descriptor := u.descriptor ++ line }
            { s' with descriptor := s'.descriptor ++ line } :=
          ⟨hu.effects, _, _, _, hsu.type hfirst hfirst' (.inl trivial),
            hs'.type hfirst hfirst' (.inr hcmd')⟩
        obtain ⟨ls', t, hls', hall, hwithout', ht⟩ := ih hnext hidle'
          (fun y hy => hline y (hmem y (List.mem_cons_of_mem _ hy)))
          (fun y hy => htame y (hmem y (List.mem_cons_of_mem _ hy))) htail.symm
        have htype : StepIn OneLine u (.type line) _ := ⟨trivial, .type hsu.opened hfirst⟩
        refine ⟨ls ++ .type line :: ls', t, hls.append (.cons htype hls'), ?_,
          hwithout.append (.keep ?_ hwithout'), ht⟩
        · rw [typedLines_append, hpre]
          show pre ++ line :: typedLines ls' = _
          rw [hall]
        · intro line' heq
          cases heq
          exact hcmd'

end Passes

/-! ## Tame lines -/

/-- Nothing was typed. -/
theorem corresponds_start : Corresponds start start := by
  have hreading : ∀ noise, Reading noise start [] [] := fun noise =>
    ⟨rfl, rfl, rfl, List.forall_mem_nil _, List.forall_mem_nil _, List.forall_mem_nil _,
      ⟨[], .silent (.done (List.forall_mem_nil _)), rfl, fun _ => rfl⟩, fun hfalse => Bool.noConfusion hfalse⟩
  exact ⟨.refl _, [], [], [], hreading True, hreading False⟩

/-- A run that types tame lines. -/
theorem tamed_of_run {env : Session → Label → Prop} {ls : List Label} {s t : Session}
    (h : Run (StepIn env) s ls t) (htame : ∀ line ∈ typedLines ls, Tame line) :
    Run (fun s x t => StepIn env s x t ∧ x.Tamed) s ls t := by
  induction h with
  | nil s => exact .nil s
  | @cons s u t x ls hstep _ ih =>
    have hsplit : typedLines (x :: ls) = typedLines [x] ++ typedLines ls := typedLines_append [x] ls
    rw [hsplit] at htame
    refine .cons ⟨hstep, ?_⟩ (ih fun line hline => htame line (List.mem_append_right _ hline))
    rintro line rfl
    exact htame line (List.mem_append_left _ List.mem_cons_self)

/-- **Malformed lines that are quiet do no harm** where each comes by itself. -/
theorem malformed_lines_do_no_harm {lines : List (List UInt8)} (hlines : ∀ line ∈ lines, IsLine line)
    (h : ∀ line ∈ lines, Tame line) : Unharmed OneLine lines := by
  have hforth : ∀ {ls s}, Run (StepIn OneLine) start ls s → typedLines ls = lines → ∃ ms s',
      Run (StepIn OneLine) start ms s' ∧ Without ms ls ∧ Corresponds s s' ∧ s'.reading = false := by
    intro ls s hrun htyped
    apply (tamed_of_run hrun (htyped ▸ h)).simulate_runs (P := fun ls ms => Without ms ls) .nil
      (fun l ls ms ms' hms hms' => hms.append hms') _ ⟨corresponds_start, rfl⟩
    rintro s x t s' ⟨hs, hidle⟩ ⟨hstep, hx⟩
    exact hs.forth hidle hstep hx
  constructor
  · intro ls s hrun htyped
    obtain ⟨ms, s', hrun', hwithout, hs, hidle⟩ := hforth hrun htyped
    obtain ⟨_, _, _, hreading, hreading'⟩ := hs.left
    exact ⟨ms, s', hrun', hwithout, hs.effects, fun hi => hreading.exhausted hi hreading' hidle⟩
  · intro ms s' hrun htyped
    exact corresponds_start.exists_run rfl hrun hlines h htyped
  · intro ls s hrun htyped hctrl hreading l o
    obtain ⟨_, _, _, _, hs, _⟩ := hforth hrun htyped
    obtain ⟨_, _, _, hleft, -⟩ := hs.left
    obtain ⟨rs, t, _, hrs, hreads, hlt, -⟩ := hleft.exists_pass hreading hctrl l o
    exact ⟨rs, t, hrs, hreads, hlt⟩

/-- A line without an `x` is no `exec` line. -/
theorem tame_of_notMem {line : List UInt8} (hvisible : ∃ c ∈ line, TextStream.isSpace c = false)
    (hx : 120 ∉ line) (hquiet : (∀ cmd, ¬ WellFormed line cmd) → Quiet line) : Tame line := by
  refine ⟨hvisible, ?_, hquiet⟩
  rintro gap t rfl
  have hmem : (120 : UInt8) ∈ execWord := by decide
  exact absurd (List.mem_append_right _ (List.mem_append_left _ hmem)) hx

/-- `foo`. -/
def fooLine : List UInt8 := [102, 111, 111, 10]

/-- `create 1 -1`. -/
def createLine : List UInt8 := [99, 114, 101, 97, 116, 101, 32, 49, 32, 45, 49, 10]

/-- The line creates node 1. -/
theorem wellFormed_createLine : WellFormed createLine (.create 1 (-1)) := by
  have hblank : ∀ c ∈ [(32 : UInt8)], IsBlank c := List.forall_mem_singleton.mpr (by decide)
  have hnil : ∀ c ∈ ([] : List UInt8), IsBlank c := List.forall_mem_nil _
  exact .create ⟨[32], [49], 1, by decide, hblank, ⟨by decide, by decide, by decide⟩⟩
    ⟨[32], [45, 49], -1, by decide, hblank, ⟨by decide, by decide, by decide⟩⟩ hnil hnil

theorem isLine_fooLine : IsLine fooLine := ⟨[102, 111, 111], rfl, by decide⟩

theorem isLine_createLine : IsLine createLine :=
  ⟨[99, 114, 101, 97, 116, 101, 32, 49, 32, 45, 49], rfl, by decide⟩

theorem malformed_lines_do_no_harm_foo : Unharmed OneLine [fooLine, createLine] := by
  apply malformed_lines_do_no_harm
  · intro line hline
    rcases List.mem_cons.mp hline with rfl | hline
    · exact isLine_fooLine
    · exact List.mem_singleton.mp hline ▸ isLine_createLine
  · intro line hline
    rcases List.mem_cons.mp hline with rfl | hline
    · apply tame_of_notMem ⟨102, List.mem_cons_self, by decide⟩ (by decide)
      intro _
      have hnewline : Quiet [10] := .blank (List.forall_mem_singleton.mpr (by decide))
      have hvisible : ∀ c ∈ [(102 : UInt8), 111, 111], TextStream.isSpace c = false := by
        simp [TextStream.isSpace]
      exact .word (List.forall_mem_nil _) (List.cons_ne_nil _ _) hvisible (by decide)
        ⟨10, [], rfl, rfl⟩ hnewline
    · obtain rfl := List.mem_singleton.mp hline
      apply tame_of_notMem ⟨99, List.mem_cons_self, by decide⟩ (by decide)
      intro hno
      exact absurd wellFormed_createLine (hno _)

end Session

end NodeTree
