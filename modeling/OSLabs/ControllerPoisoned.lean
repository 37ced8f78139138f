/-
# How a malformed line does harm

A number that cannot be read makes `std::cin` fail, and nothing clears it: the word of the last command
is carried out again and again, and no later line is.  Lines that one `read` gives to stdio are not seen
by `input_available` any more, so the second one waits there for more input.  A line without a word
keeps the controller in the `read`.
-/
import OSLabs.ControllerMalformed
import OSLabs.NodeTreePending

namespace NodeTree

namespace Session

/-! ## A number that cannot be read -/

section Failed

variable {s t : Session} {l : Locals} {o : Outcome}

/-- After a failure every pass takes the word of the last command again. -/
theorem runPass_of_failed (h : s.stdin.fail = true) (hpass : s.runPass l o = some t) :
    t.stdin.fail = true ∧ t.command = s.command := by
  have hword : s.stdin.extractWord s.command = (s.command, s.stdin) := InputStream.extract_of_fail h
  have hint : ∀ operand, s.stdin.extractInt operand = (operand, s.stdin) :=
    fun operand => InputStream.extract_of_fail h
  rw [Session.runPass] at hpass
  simp only [hword, hint] at hpass
  split_ifs at hpass
  all_goals
    obtain rfl := Option.some_inj.mp hpass
    exact ⟨h, rfl⟩

/-- **After a failure no command is read any more.** -/
theorem failed_for_ever {ls : List Label} (hrun : Run Step s ls t) (h : s.stdin.fail = true) :
    t.stdin.fail = true ∧ t.command = s.command := by
  apply hrun.preserves (I := fun t => t.stdin.fail = true ∧ t.command = s.command) _ ⟨h, rfl⟩
  rintro u x v ⟨hfail, hcommand⟩ hstep
  cases hstep with
  | pass _ _ hpass =>
    obtain ⟨hfail', hcommand'⟩ := runPass_of_failed hfail hpass
    exact ⟨hfail', hcommand'.trans hcommand⟩
  | _ => exact ⟨hfail, hcommand⟩

end Failed

/-! ## The bytes before the first pass -/

/-- No command was carried out, and stdio and the descriptor have what was typed. -/
structure Unread (typed : List (List UInt8)) (s : Session) : Prop where
  good : s.stdin = { bytes := s.stdin.bytes }
  bytes : s.stdin.bytes ++ s.descriptor = typed.flatten
  command : s.command = []
  opened : s.closed = false

section Unread

variable {typed : List (List UInt8)} {s t : Session} {x : Label}

theorem Unread.start : Unread [] start := ⟨rfl, rfl, rfl, rfl⟩

/-- What stdio has is the beginning of what was typed. -/
theorem Unread.isPrefix (h : Unread typed s) : s.stdin.bytes <+: typed.flatten := ⟨_, h.bytes⟩

/-- Before the first pass bytes come and are moved. -/
theorem Unread.next (h : Unread typed s) (hstep : Step s x t) (hpass : ∀ l o, x ≠ .pass l o)
    (hclose : x ≠ .close) : Unread (typed ++ typedLines [x]) t := by
  cases hstep with
  | @type line hopen hline =>
    refine ⟨h.good, ?_, h.command, h.opened⟩
    show s.stdin.bytes ++ (s.descriptor ++ line) = (typed ++ [line]).flatten
    rw [← List.append_assoc, h.bytes, List.flatten_append, List.flatten_singleton]
  | close => exact absurd rfl hclose
  | poll hrun hidle =>
    rw [show typedLines [.poll] = [] from rfl, List.append_nil]
    exact ⟨h.good, h.bytes, h.command, h.opened⟩
  | @read n hreading hmore hpos hn =>
    rw [show typedLines [.read n] = [] from rfl, List.append_nil]
    refine ⟨?_, ?_, h.command, h.opened⟩
    · show ({ s.stdin with bytes := _ } : InputStream) = _
      rw [h.good]
      rfl
    · show s.stdin.bytes ++ s.descriptor.take n ++ s.descriptor.drop n = _
      rw [List.append_assoc, List.take_append_drop, h.bytes]
  | pass hrun hreading hp => exact absurd rfl (hpass _ _)
  | @other e he hother hidle =>
    rw [show typedLines [.other e] = [] from rfl, List.append_nil]
    exact ⟨h.good, h.bytes, h.command, h.opened⟩

/-- A beginning of a text is one of finitely many. -/
theorem exists_take {l text : List UInt8} (h : l <+: text) : ∃ n, n ≤ text.length ∧ l = text.take n :=
  ⟨l.length, h.length_le, List.prefix_iff_eq_take.mp h⟩

end Unread

/-! ## A number that cannot be read, in front of a command -/

/-- `ping a`. -/
def pingLine : List UInt8 := [112, 105, 110, 103, 32, 97, 10]

section Ping

variable {s t : Session} {l : Locals} {o : Outcome}

theorem count_handlePingCommand (w : World) (id : ℤ) : (handlePingCommand w id).count = w.count := by
  rw [handlePingCommand]
  split_ifs
  · exact sendAll_keeps (f := World.count) _ _ (fun _ _ => rfl) _
  · rfl

/-- Without processes, processes come from commands only. -/
theorem count_next_other {w : World} {e : Event} (h : w.count = 0) (he : e.Enabled w)
    (hother : ∀ cmd outcome, e ≠ .command cmd outcome) : (w.next e).count = 0 := by
  cases e with
  | command cmd o => exact absurd rfl (hother cmd o)
  | receiveUp p =>
    show (receiveUp w p).count = 0
    unfold receiveUp
    split <;> exact h
  | receiveDown p o => exact absurd (h ▸ he.1) (Nat.not_lt_zero p)
  | relayUp p c => exact absurd (h ▸ he.1) (Nat.not_lt_zero p)
  | sendBeat p => exact absurd (h ▸ he.1) (Nat.not_lt_zero p)
  | tick now => exact h
  | checkPending => exact h
  | checkBeats => exact h

/-- The first pass on `ping a`: the number is not there, and the stream fails. -/
theorem runPass_pingLine {typed : List (List UInt8)} (h : Unread typed s)
    (htyped : typed <+: [pingLine, createLine]) (hpass : s.runPass l o = some t) :
    t.world = handlePingCommand s.world 0 ∧ t.stdin.fail = true ∧ t.command = pingWord := by
  have hprefix : s.stdin.bytes <+: pingLine ++ createLine := by
    obtain ⟨rest, hrest⟩ := htyped
    refine h.isPrefix.trans ⟨rest.flatten, ?_⟩
    rw [← List.flatten_append, hrest]
    rfl
  obtain ⟨n, hn, hbytes⟩ := exists_take hprefix
  obtain ⟨world, stdin, command, descriptor, closed, reading⟩ := s
  obtain rfl : command = [] := h.command
  obtain rfl : closed = false := h.opened
  obtain rfl : stdin = { bytes := (pingLine ++ createLine).take n } := hbytes ▸ h.good
  replace hn : n ≤ 19 := hn
  clear h hprefix hbytes
  -- The `a` is needed for the pass, and what stands behind it does not matter.
  interval_cases n
  all_goals cases hpass <;> exact ⟨rfl, rfl, rfl⟩

/-- Behind `ping a` the node is never created. -/
theorem count_behind_pingLine {ls : List Label} (hrun : Run Step start ls s)
    (hclose : Label.close ∉ ls) (htyped : typedLines ls <+: [pingLine, createLine]) :
    s.world.count = 0 := by
  have hall := hrun.history (I := fun ls s => Label.close ∉ ls →
    typedLines ls <+: [pingLine, createLine] → s.world.count = 0 ∧
      (Unread (typedLines ls) s ∨ s.stdin.fail = true ∧ s.command = pingWord))
    (fun _ _ => ⟨rfl, .inl Unread.start⟩) ?_ hclose htyped
  · exact hall.1
  · intro ls s x t _ ih hstep hclose htyped
    rw [typedLines_append] at htyped
    rw [List.mem_append, List.mem_singleton, not_or] at hclose
    obtain ⟨hcount, hcase⟩ := ih hclose.1 ((List.prefix_append _ _).trans htyped)
    by_cases hx : ∀ l o, x ≠ .pass l o
    · -- The bytes are moved, or stay where they are.
      refine ⟨?_, ?_⟩
      · cases hstep with
        | other he hother => exact count_next_other hcount he hother
        | pass => exact absurd rfl (hx _ _)
        | _ => exact hcount
      · rcases hcase with hunread | ⟨hfail, hcommand⟩
        · rw [typedLines_append]
          exact .inl (hunread.next hstep hx (Ne.symm hclose.2))
        · obtain ⟨hfail', hcommand'⟩ := failed_for_ever (.single hstep) hfail
          exact .inr ⟨hfail', hcommand'.trans hcommand⟩
    · push Not at hx
      obtain ⟨l, o, rfl⟩ := hx
      cases hstep with
      | pass hctrl hreading hpass =>
        rcases hcase with hunread | ⟨hfail, hcommand⟩
        · obtain ⟨hworld, hfail, hcommand⟩ :=
            runPass_pingLine hunread ((List.prefix_append _ _).trans htyped) hpass
          rw [hworld, count_handlePingCommand]
          exact ⟨hcount, .inr ⟨hfail, hcommand⟩⟩
        · -- From then on every pass is another `ping`.
          obtain ⟨hfail', hcommand'⟩ := runPass_of_failed hfail hpass
          refine ⟨?_, .inr ⟨hfail', hcommand'.trans hcommand⟩⟩
          obtain ⟨world, stdin, command, descriptor, closed, reading⟩ := s
          obtain rfl : command = pingWord := hcommand
          have hword : stdin.extractWord pingWord = (pingWord, stdin) :=
            InputStream.extract_of_fail hfail
          have hint : stdin.extractInt l.id = (l.id, stdin) := InputStream.extract_of_fail hfail
          have hcreate : pingWord ≠ createWord := by decide
          have hexec : pingWord ≠ execWord := by decide
          rw [Session.runPass] at hpass
          simp only [hword, hint, if_neg hcreate, if_neg hexec, if_true] at hpass
          split_ifs at hpass
          obtain rfl := Option.some_inj.mp hpass
          exact (count_handlePingCommand world l.id).trans hcount

/-- `ping a` is malformed. -/
theorem not_wellFormed_pingLine : ¬ ∃ cmd, WellFormed pingLine cmd := by
  rintro ⟨cmd, hcmd⟩
  have htame : Tame pingLine := tame_of_notMem ⟨112, List.mem_cons_self, by decide⟩ (by decide)
    fun hno => absurd hcmd (hno cmd)
  obtain ⟨rest, hreads, -⟩ := hcmd.reads htame.fits
  obtain ⟨world, command, hpass, -⟩ :=
    hreads { start with stdin := { bytes := pingLine } } default .created rfl
  -- A pass that reads a command leaves a stream that has not failed.
  have hfail := congrArg (Option.map fun t : Session => t.stdin.fail) hpass
  cases hfail

/-- `foo` is malformed. -/
theorem not_wellFormed_fooLine : ¬ ∃ cmd, WellFormed fooLine cmd := by
  rintro ⟨cmd, hcmd⟩
  generalize hline : fooLine = line at hcmd
  cases hcmd with
  | create => exact absurd (hline ▸ by simp [createWord] : (99 : UInt8) ∈ fooLine) (by decide)
  | exec => exact absurd (hline ▸ by simp [execWord] : (120 : UInt8) ∈ fooLine) (by decide)
  | ping => exact absurd (hline ▸ by simp [pingWord] : (112 : UInt8) ∈ fooLine) (by decide)
  | heartbeat => exact absurd (hline ▸ by simp [heartbeatWord] : (104 : UInt8) ∈ fooLine) (by decide)

theorem wellFormedLines_createLine {line : List UInt8} (h : ¬ ∃ cmd, WellFormed line cmd) :
    wellFormedLines [line, createLine] = [createLine] := by
  have hcreate : ∃ cmd, WellFormed createLine cmd := ⟨_, wellFormed_createLine⟩
  unfold wellFormedLines
  rw [List.filter_cons_of_neg (by simpa using h), List.filter_cons_of_pos (by simpa using hcreate)]
  rfl

/-- Nothing but what was typed closes the input. -/
theorem Without.close_notMem {ms ls : List Label} (h : Without ms ls) (hms : Label.close ∉ ms) :
    Label.close ∉ ls := by
  induction h with
  | nil => exact hms
  | keep hx _ ih =>
    rw [List.mem_cons, not_or] at hms ⊢
    exact ⟨hms.1, ih hms.2⟩
  | line hline _ ih =>
    rw [List.mem_cons, not_or]
    exact ⟨Label.noConfusion, ih hms⟩
  | pass l o _ ih =>
    rw [List.mem_cons, not_or]
    exact ⟨Label.noConfusion, ih hms⟩
  | left hx _ ih => exact ih fun hmem => hms (List.mem_cons_of_mem _ hmem)
  | right hx _ ih =>
    rw [List.mem_cons, not_or]
    exact ⟨fun heq => by cases heq; exact hx, ih hms⟩

/-- The labels of a session that reads `create 1 -1`. -/
def createLabels : List Label := [.type createLine, .poll, .read 12, .pass default .created]

/-- The line is carried out if nothing else was typed. -/
theorem exists_run_createLine :
    ∃ s, Run (StepIn OneLine) start createLabels s ∧ s.world.count = 1 :=
  ⟨_, .cons ⟨trivial, .type rfl isLine_createLine⟩ (.cons ⟨trivial, .poll rfl rfl⟩
    (.cons ⟨isLine_createLine, .read rfl (fun _ _ => rfl) (by decide) (by decide)⟩
      (.cons ⟨trivial, .pass rfl rfl rfl⟩ (.nil _)))), rfl⟩

/-- **A number that cannot be read** takes the effect of every later line. -/
theorem ping_without_a_number_poisons {env : Session → Label → Prop}
    (henv : ∀ s x, OneLine s x → env s x) : ¬ Unharmed env [pingLine, createLine] := by
  intro h
  obtain ⟨s', hrun, hcount⟩ := exists_run_createLine
  have hrun' : Run (StepIn env) start createLabels s' :=
    hrun.mono fun s x t hstep => ⟨henv s x hstep.1, hstep.2⟩
  obtain ⟨ls, s, hall, htyped, hwithout, heffects⟩ := h.complete _ _ hrun'
    (wellFormedLines_createLine not_wellFormed_pingLine).symm
  have hclose := hwithout.close_notMem (by simp [createLabels])
  have hzero := count_behind_pingLine (hall.mono fun _ _ _ => And.right) hclose
    (htyped ▸ List.prefix_refl _)
  have hsame := congrArg World.count heffects.world
  have hone : s.world.count = 1 := hsame.trans hcount
  omega

end Ping

/-! ## Lines that come together -/

section Together

variable {s t : Session} {l : Locals} {o : Outcome}

/-- The first pass on `create 1 -1` needs the whole line. -/
theorem runPass_createLine {typed : List (List UInt8)} (h : Unread typed s)
    (htyped : typed <+: [createLine]) (hpass : s.runPass l .created = some t) :
    t.world = handleCreateCommand s.world 1 (-1) .created := by
  have hprefix : s.stdin.bytes <+: createLine := by
    obtain ⟨rest, hrest⟩ := htyped
    refine h.isPrefix.trans ⟨rest.flatten, ?_⟩
    rw [← List.flatten_append, hrest]
    rfl
  obtain ⟨n, hn, hbytes⟩ := exists_take hprefix
  obtain ⟨world, stdin, command, descriptor, closed, reading⟩ := s
  obtain rfl : command = [] := h.command
  obtain rfl : closed = false := h.opened
  obtain rfl : stdin = { bytes := createLine.take n } := hbytes ▸ h.good
  replace hn : n ≤ 12 := hn
  clear h hprefix hbytes
  interval_cases n
  all_goals cases hpass <;> rfl

/-- The processes of a session do not get fewer in a pass. -/
theorem count_le_runPass {ls : List Label} (hrun : Run Step start ls s)
    (hctrl : s.world.ctrlRunning = true) (hpass : s.runPass l o = some t) :
    s.world.count ≤ t.world.count := by
  obtain ⟨es, hes⟩ := exists_run hrun
  have hinv : Inv s.world := hes.preserves (I := Inv)
    (fun w e w' hw hst => by obtain ⟨he, rfl⟩ := hst; exact hw.next he) Inv.initial
  rcases world_runPass hpass with hsame | ⟨cmd, hnext⟩
  · rw [hsame]
  · rw [hnext]
    exact hinv.count_le_next (e := .command cmd o) hctrl

/-- What a session does that only reads lines, and where every process can be started. -/
def Label.Plain (x : Label) : Prop := x.OfInput ∨ (∃ line, x = .type line) ∨ ∃ l, x = .pass l .created

/-- A session with `create 1 -1` has not carried it out and has it unread, or it has the node. -/
theorem unread_or_created {ls : List Label} (hrun : Run Step start ls s) (hplain : ∀ x ∈ ls, x.Plain)
    (htyped : typedLines ls <+: [createLine]) :
    Unread (typedLines ls) s ∧ s.world = initial ∨ 0 < s.world.count := by
  refine hrun.history (I := fun ls s => (∀ x ∈ ls, x.Plain) → typedLines ls <+: [createLine] →
    (Unread (typedLines ls) s ∧ s.world = initial ∨ 0 < s.world.count))
    (fun _ _ => .inl ⟨Unread.start, rfl⟩) ?_ hplain htyped
  intro ls s x t hls ih hstep hplain htyped
  rw [typedLines_append] at htyped ⊢
  have hbefore := (List.prefix_append _ _).trans htyped
  have hcase := ih (fun y hy => hplain y (List.mem_append_left _ hy)) hbefore
  have hx := hplain x (List.mem_append_right _ List.mem_cons_self)
  cases hstep with
  -- A pass either finds the line and carries it out, or finds nothing.
  | pass hctrl hreading hpass =>
    rcases hcase with ⟨hunread, hworld⟩ | hpos
    · rcases hx with hx | ⟨line, hx⟩ | ⟨l, hx⟩
      · exact hx.elim
      · cases hx
      · cases hx
        refine .inr ?_
        rw [runPass_createLine hunread hbefore hpass, hworld]
        exact Nat.zero_lt_one
    · exact .inr (lt_of_lt_of_le hpos (count_le_runPass hls hctrl hpass))
  | close =>
    rcases hx with hx | ⟨line, hx⟩ | ⟨l, hx⟩
    · exact hx.elim
    · cases hx
    · cases hx
  | other =>
    rcases hx with hx | ⟨line, hx⟩ | ⟨l, hx⟩
    · exact hx.elim
    · cases hx
    · cases hx
  | type hopen hline =>
    exact hcase.imp_left fun h => ⟨h.1.next (.type hopen hline) (fun _ _ => Label.noConfusion)
      Label.noConfusion, h.2⟩
  | poll hrun hidle =>
    exact hcase.imp_left fun h => ⟨h.1.next (.poll hrun hidle) (fun _ _ => Label.noConfusion)
      Label.noConfusion, h.2⟩
  | read hreading hmore hpos hn =>
    exact hcase.imp_left fun h => ⟨h.1.next (.read hreading hmore hpos hn)
      (fun _ _ => Label.noConfusion) Label.noConfusion, h.2⟩

/-- The labels that are left are among the others, or they are `input_available` and `read`. -/
theorem Without.mem {ms ls : List Label} {x : Label} (h : Without ms ls) (hx : x ∈ ms) :
    x.OfInput ∨ x ∈ ls := by
  induction h with
  | nil => cases hx
  | keep _ _ ih =>
    rcases List.mem_cons.mp hx with rfl | hx
    · exact .inr List.mem_cons_self
    · exact (ih hx).imp_right (List.mem_cons_of_mem _)
  | line _ _ ih => exact (ih hx).imp_right (List.mem_cons_of_mem _)
  | pass _ _ _ ih => exact (ih hx).imp_right (List.mem_cons_of_mem _)
  | left hinput _ ih =>
    rcases List.mem_cons.mp hx with rfl | hx
    · exact .inl hinput
    · exact ih hx
  | right _ _ ih => exact (ih hx).imp_right (List.mem_cons_of_mem _)

/-- The labels of a session that gets both lines in one `read`. -/
def togetherLabels : List Label :=
  [.type fooLine, .type createLine, .poll, .read 16, .pass default .created]

/-- Behind `foo` the controller finds no input, and has no child. -/
theorem exists_run_together :
    ∃ s, Run (StepIn AnyWay) start togetherLabels s ∧ s.Idle ∧ s.world.count = 0 :=
  ⟨_, .cons ⟨trivial, .type rfl isLine_fooLine⟩ (.cons ⟨trivial, .type rfl isLine_createLine⟩
    (.cons ⟨trivial, .poll rfl rfl⟩ (.cons ⟨trivial, .read rfl (fun _ _ => rfl) (by decide) (by decide)⟩
      (.cons ⟨trivial, .pass rfl rfl rfl⟩ (.nil _))))), ⟨rfl, rfl⟩, rfl⟩

/-- **Lines that come together**: the second one is not carried out. -/
theorem together_poisons : ¬ Unharmed AnyWay [fooLine, createLine] := by
  intro h
  obtain ⟨s, hrun, hidle, hcount⟩ := exists_run_together
  obtain ⟨ms, s', hrun', hwithout, heffects, hexhausted⟩ := h.sound _ s hrun rfl
  have htyped : typedLines ms = [createLine] := by
    rw [hwithout.typedLines, show typedLines togetherLabels = [fooLine, createLine] from rfl,
      wellFormedLines_createLine not_wellFormed_fooLine]
  have hplain : ∀ x ∈ ms, x.Plain := by
    intro x hx
    rcases hwithout.mem hx with hinput | hmem
    · exact .inl hinput
    · simp only [togetherLabels, List.mem_cons, List.not_mem_nil, or_false] at hmem
      rcases hmem with rfl | rfl | rfl | rfl | rfl
      · exact .inr (.inl ⟨_, rfl⟩)
      · exact .inr (.inl ⟨_, rfl⟩)
      · exact .inl trivial
      · exact .inl trivial
      · exact .inr (.inr ⟨_, rfl⟩)
  have hcase := unread_or_created (hrun'.mono fun _ _ _ => And.right) hplain
    (htyped ▸ List.prefix_refl _)
  have hsame := congrArg World.count heffects.world
  have hzero : s'.world.count = 0 := hsame.symm.trans hcount
  rcases hcase with ⟨hunread, -⟩ | hpos
  · -- The line is still there, but the controller finds nothing.
    obtain ⟨⟨-, hempty⟩, hblank⟩ := hexhausted hidle
    have hbytes := hunread.bytes
    rw [hempty, List.append_nil, htyped] at hbytes
    rw [hbytes] at hblank
    exact absurd (hblank 99 (by decide)) (by decide)
  · omega

end Together

/-! ## A line without a word -/

/-- **A blank line** keeps the controller in the `read`. -/
theorem blank_line_waits : ¬ Unharmed OneLine [[10]] := by
  intro h
  have hline : IsLine [10] := ⟨[], rfl, List.not_mem_nil⟩
  have hrun : ∃ s, Run (StepIn OneLine) start [.type [10], .poll, .read 1] s ∧
      s.reading = true ∧ s.world.ctrlRunning = true ∧ s.stdin = { bytes := [10] } ∧
      s.closed = false ∧ s.descriptor = [] :=
    ⟨_, .cons ⟨trivial, .type rfl hline⟩ (.cons ⟨trivial, .poll rfl rfl⟩
      (.cons ⟨hline, .read rfl (fun _ _ => rfl) (by decide) (by decide)⟩ (.nil _))),
      rfl, rfl, rfl, rfl, rfl⟩
  obtain ⟨s, hrun, hreading, hctrl, hstdin, hopen, hempty⟩ := hrun
  obtain ⟨rs, t, hpass, hreads, -⟩ := h.progress _ s hrun rfl hctrl hreading default .created
  cases rs with
  | nil =>
    cases hpass with
    | cons hstep _ =>
      obtain ⟨-, hstep⟩ := hstep
      cases hstep with
      | pass _ _ hpass =>
        have hblank : Blank s.stdin.bytes := by
          rw [hstdin]
          exact List.forall_mem_singleton.mpr (by decide)
        rw [runPass_of_blank (by rw [hstdin]) hopen hblank] at hpass
        cases hpass
  | cons x rs =>
    obtain ⟨n, rfl⟩ := hreads x List.mem_cons_self
    cases hpass with
    | cons hstep _ =>
      obtain ⟨-, hstep⟩ := hstep
      cases hstep with
      | read _ _ hpos hn =>
        rw [hempty, List.length_nil] at hn
        omega

/-- **Malformed lines do harm**: a number that cannot be read, even if each line comes by itself; any
line, if others come together with it; and a line without a word. -/
theorem malformed_lines_do_harm :
    (¬ Unharmed AnyWay [pingLine, createLine] ∧ ¬ Unharmed OneLine [pingLine, createLine]) ∧
      ¬ Unharmed AnyWay [fooLine, createLine] ∧ ¬ Unharmed OneLine [[10]] :=
  ⟨⟨ping_without_a_number_poisons fun _ _ _ => trivial, ping_without_a_number_poisons fun _ _ => id⟩,
    together_poisons, blank_line_waits⟩

end Session

end NodeTree
