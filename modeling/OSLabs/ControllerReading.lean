/-
# What is left to be read

The invariant of a session whose lines are tame and come to stdio one by one: the commands that are
still to be carried out are the one that stdio holds and those of the lines in the descriptor.  Every
step keeps it, and a pass that has found input comes to its end without any more.
-/
import OSLabs.ControllerLines

namespace NodeTree

open TextStream

/-! ## Lines and their commands -/

/-- White space only. -/
def Blank (bytes : List UInt8) : Prop := ∀ c ∈ bytes, isSpace c = true

/-- A line is not blank, an `exec` line fits in its arrays, and a malformed line is quiet. -/
structure Tame (line : List UInt8) : Prop where
  visible : ∃ c ∈ line, isSpace c = false
  fits : ∀ gap t, line = gap ++ (execWord ++ ExecTail.bytes t) → (∀ c ∈ gap, IsBlank c) →
    t.before ≠ [] → t.Fits
  quiet : (∀ cmd, ¬ WellFormed line cmd) → Quiet line

open Classical in
/-- The command of a well-formed line. -/
noncomputable def commandOf (line : List UInt8) : Option Command :=
  if h : ∃ cmd, WellFormed line cmd then some h.choose else none

/-- The commands of the well-formed lines. -/
noncomputable def commands (lines : List (List UInt8)) : List Command := lines.filterMap commandOf

section Commands

variable {line : List UInt8} {lines : List (List UInt8)} {cmd : Command}

theorem wellFormed_of_commandOf (h : commandOf line = some cmd) : WellFormed line cmd := by
  unfold commandOf at h
  split_ifs at h with hline
  rw [← Option.some_inj.mp h]
  exact hline.choose_spec

theorem commandOf_eq_none_iff : commandOf line = none ↔ ¬ ∃ cmd, WellFormed line cmd := by
  unfold commandOf
  split_ifs with hline <;> simp [hline]

theorem commands_cons : commands (line :: lines) = (commandOf line).toList ++ commands lines := by
  unfold commands
  rw [List.filterMap_cons]
  cases commandOf line <;> rfl

theorem commands_append (lines' : List (List UInt8)) :
    commands (lines ++ lines') = commands lines ++ commands lines' := List.filterMap_append

theorem IsLine.ne_nil (h : IsLine line) : line ≠ [] := by
  obtain ⟨l, rfl, -⟩ := h
  exact List.append_ne_nil_of_right_ne_nil _ (List.cons_ne_nil _ _)

/-- Texts that start with a line each have the same first line. -/
theorem IsLine.append_inj {line' rest rest' : List UInt8} (h : IsLine line) (h' : IsLine line')
    (heq : line ++ rest = line' ++ rest') : line = line' ∧ rest = rest' := by
  obtain ⟨l, rfl, hl⟩ := h
  obtain ⟨l', rfl, hl'⟩ := h'
  have hbefore : ∀ {l rest : List UInt8}, 10 ∉ l → (l ++ [10] ++ rest).takeWhile (· ≠ 10) = l := by
    intro l rest hl
    rw [List.append_assoc]
    apply takeWhile_of_stops
    · intro c hc
      rw [decide_eq_true_eq]
      rintro rfl
      exact hl hc
    · intro c hc
      rw [← Option.some_inj.mp hc]
      rfl
  have hsame : l = l' := by
    rw [← hbefore hl, heq, hbefore hl']
  subst hsame
  exact ⟨rfl, List.append_cancel_left heq⟩

/-- A line at the beginning of some lines is the first of them. -/
theorem IsLine.eq_of_take {n : ℕ} (hlines : ∀ line ∈ lines, IsLine line)
    (h : IsLine (lines.flatten.take n)) :
    ∃ line rest, lines = line :: rest ∧ lines.flatten.take n = line ∧
      lines.flatten.drop n = rest.flatten := by
  cases lines with
  | nil => exact absurd List.take_nil h.ne_nil
  | cons line rest =>
    have heq := List.take_append_drop n (line :: rest).flatten
    rw [List.flatten_cons] at heq h ⊢
    obtain ⟨htake, hdrop⟩ := h.append_inj (hlines line List.mem_cons_self) heq
    exact ⟨line, rest, rfl, htake, hdrop⟩

end Commands

namespace Session

/-! ## Environments -/

/-- The bytes that no command has taken. -/
def unread (s : Session) : ℕ := s.stdin.bytes.length + s.descriptor.length

/-- A `read` gives one line to stdio, as it does from a terminal, and the input does not end. -/
def OneLine (s : Session) : Label → Prop
  | .read n => IsLine (s.descriptor.take n)
  | .close => False
  | _ => True

/-- The input comes in any way. -/
def AnyWay (_ : Session) (_ : Label) : Prop := True

/-- A step in an environment. -/
def StepIn (env : Session → Label → Prop) (s : Session) (x : Label) (t : Session) : Prop :=
  env s x ∧ Step s x t

/-! ## The invariant -/

/-- What stdio holds: a command, or nothing that has an effect. -/
inductive Holds (noise : Prop) : List UInt8 → List Command → Prop
  | silent {bytes : List UInt8} (h : Silent noise bytes) : Holds noise bytes []
  | command {bytes rest : List UInt8} {cmd : Command} (hreads : Reads bytes (some cmd) rest)
      (hlt : rest.length < bytes.length) (hblank : Blank rest) : Holds noise bytes [cmd]

/-- The commands `cmds` are what is left, and `lines` are in the descriptor; `noise` tells whether
there may be other lines than the well-formed ones. -/
structure Reading (noise : Prop) (s : Session) (lines : List (List UInt8)) (cmds : List Command) :
    Prop where
  good : s.stdin = { bytes := s.stdin.bytes }
  opened : s.closed = false
  descriptor : s.descriptor = lines.flatten
  isLine : ∀ line ∈ lines, IsLine line
  tame : ∀ line ∈ lines, Tame line
  kind : ∀ line ∈ lines, noise ∨ ∃ cmd, WellFormed line cmd
  holds : ∃ held, Holds noise s.stdin.bytes held ∧ cmds = held ++ commands lines ∧
    (s.reading = false → held = [])
  goesOn : s.reading = true → Blank s.stdin.bytes → lines ≠ []

section Reading

variable {noise : Prop} {s t : Session} {lines : List (List UInt8)} {cmds held : List Command}
  {bytes line : List UInt8} {l : Locals} {o : Outcome} {n : ℕ}

/-- Where stdio holds white space only, a pass needs more. -/
theorem runPass_of_blank (hgood : s.stdin = { bytes := s.stdin.bytes }) (hopen : s.closed = false)
    (hblank : Blank s.stdin.bytes) : s.runPass l o = none := by
  have hskip : s.stdin.bytes.dropWhile isSpace = [] := List.dropWhile_eq_nil_iff.mpr hblank
  have hword : (s.stdin.extractWord s.command).2.eof = true := by
    rw [hgood]
    simp only [InputStream.extractWord, InputStream.extract, hskip]
    rfl
  have hend : s.atEnd = false := by
    rw [atEnd, hopen, Bool.false_and]
  unfold runPass
  generalize s.stdin.extractWord s.command = word at hword
  obtain ⟨command, stdin⟩ := word
  dsimp only at hword ⊢
  rw [hword, hend]
  rfl

/-- **A pass on what stdio holds** has no effect, or carries out its command. -/
theorem Holds.runPass (h : Holds noise s.stdin.bytes held)
    (hgood : s.stdin = { bytes := s.stdin.bytes }) (hne : ¬ Blank s.stdin.bytes) (l : Locals)
    (o : Outcome) :
    ∃ (world : World) (command rest : List UInt8), s.runPass l o =
        some { s with world, stdin := { bytes := rest }, command, reading := false } ∧
      rest.length < s.stdin.bytes.length ∧
      ((noise ∧ held = [] ∧ Silent noise rest ∧ SameEffects world s.world) ∨
        ∃ cmd, held = [cmd] ∧ Blank rest ∧ world = s.world.next (.command cmd o)) := by
  cases h with
  | silent hsilent =>
    cases hsilent with
    | done hblank => exact absurd hblank hne
    | @skip _ rest hnoise hreads hlt hrest =>
      obtain ⟨world, command, hpass, heffect⟩ := hreads s l o hgood
      exact ⟨world, command, rest, hpass, hlt, .inl ⟨hnoise, rfl, hrest, heffect⟩⟩
  | @command rest cmd hreads hlt hblank =>
    obtain ⟨world, command, hpass, heffect⟩ := hreads s l o hgood
    exact ⟨world, command, rest, hpass, hlt, .inr ⟨cmd, rfl, hblank, heffect⟩⟩

/-- A line is a command, or it is silent. -/
theorem holds_line (h : Tame line) (hkind : noise ∨ ∃ cmd, WellFormed line cmd)
    (hbytes : Blank bytes) : Holds noise (bytes ++ line) (commandOf line).toList := by
  cases hcmd : commandOf line with
  | none =>
    have hno := commandOf_eq_none_iff.mp hcmd
    have hsilent := (h.quiet (not_exists.mp hno)).silent (hkind.resolve_right hno)
    exact .silent (hsilent.blanks hbytes)
  | some cmd =>
    obtain ⟨rest, hreads, hlt, hblank⟩ := (wellFormed_of_commandOf hcmd).reads h.fits
    refine .command (hreads.blanks hbytes) ?_ hblank
    rw [List.length_append]
    omega

/-! ## What the steps do -/

/-- A line comes. -/
theorem Reading.type (h : Reading noise s lines cmds) (hline : IsLine line) (htame : Tame line)
    (hkind : noise ∨ ∃ cmd, WellFormed line cmd) :
    Reading noise { s with descriptor := s.descriptor ++ line } (lines ++ [line])
      (cmds ++ (commandOf line).toList) := by
  obtain ⟨held, hholds, rfl, hidle⟩ := h.holds
  have hall : ∀ {p : List UInt8 → Prop}, (∀ x ∈ lines, p x) → p line → ∀ x ∈ lines ++ [line], p x := by
    intro p hlines hlast x hx
    rcases List.mem_append.mp hx with hx | hx
    · exact hlines x hx
    · rw [List.mem_singleton.mp hx]
      exact hlast
  refine ⟨h.good, h.opened, ?_, hall h.isLine hline, hall h.tame htame, hall h.kind hkind,
    ⟨held, hholds, ?_, hidle⟩, ?_⟩
  · show s.descriptor ++ line = _
    rw [h.descriptor, List.flatten_append, List.flatten_singleton]
  · rw [commands_append, commands_cons, List.append_assoc, show commands [] = [] from rfl,
      List.append_nil]
  · intro _ _
    exact List.append_ne_nil_of_right_ne_nil _ (List.cons_ne_nil _ _)

/-- `input_available` is called. -/
theorem Reading.poll (h : Reading noise s lines cmds) (hidle : s.reading = false) :
    Reading noise { s with reading := s.inputAvailable } lines cmds := by
  obtain ⟨held, hholds, hcmds, hnone⟩ := h.holds
  refine ⟨h.good, h.opened, h.descriptor, h.isLine, h.tame, h.kind,
    ⟨held, hholds, hcmds, fun _ => hnone hidle⟩, ?_⟩
  rintro havailable - rfl
  have hempty : s.inputAvailable = false := by
    rw [inputAvailable, h.opened, h.descriptor]
    rfl
  rw [show s.inputAvailable = true from havailable] at hempty
  cases hempty

/-- A `read` gives a line to stdio, which holds something visible then. -/
theorem Reading.fill (h : Reading noise s lines cmds) (hreading : s.reading = true)
    (hmore : ∀ l o, s.runPass l o = none) (hone : IsLine (s.descriptor.take n)) :
    ∃ line rest, lines = line :: rest ∧ Reading noise (s.fill n) rest cmds ∧
      ¬ Blank (s.fill n).stdin.bytes := by
  obtain ⟨held, hholds, rfl, hidle⟩ := h.holds
  -- A pass that could not go on has read everything that is visible.
  have hblank : Blank s.stdin.bytes := by
    by_contra hne
    obtain ⟨world, command, rest, hpass, -⟩ := hholds.runPass h.good hne default .created
    rw [hmore] at hpass
    cases hpass
  obtain rfl : held = [] := by
    cases hholds with
    | silent => rfl
    | command hreads =>
      obtain ⟨world, command, hpass, -⟩ := hreads s default .created h.good
      rw [hmore] at hpass
      cases hpass
  rw [h.descriptor] at hone
  obtain ⟨line, rest, rfl, htake, hdrop⟩ := IsLine.eq_of_take h.isLine hone
  have htame := h.tame line List.mem_cons_self
  have hstdin : (s.fill n).stdin.bytes = s.stdin.bytes ++ line := by
    show s.stdin.bytes ++ s.descriptor.take n = _
    rw [h.descriptor, htake]
  -- The line itself is visible.
  have hvisible : ¬ Blank (s.fill n).stdin.bytes := by
    obtain ⟨c, hc, hspace⟩ := htame.visible
    intro hall
    rw [hstdin] at hall
    rw [hall c (List.mem_append_right _ hc)] at hspace
    cases hspace
  have htail : ∀ {p : List UInt8 → Prop}, (∀ x ∈ line :: rest, p x) → ∀ x ∈ rest, p x :=
    fun hlines x hx => hlines x (List.mem_cons_of_mem _ hx)
  refine ⟨line, rest, rfl, ⟨?_, h.opened, ?_, htail h.isLine, htail h.tame, htail h.kind,
    ⟨(commandOf line).toList, ?_, commands_cons, ?_⟩, ?_⟩, hvisible⟩
  · show ({ s.stdin with bytes := _ } : InputStream) = _
    rw [h.good]
    rfl
  · show s.descriptor.drop n = _
    rw [h.descriptor, hdrop]
  · rw [hstdin]
    exact holds_line htame (h.kind line List.mem_cons_self) hblank
  · intro hidle
    rw [show s.reading = false from hidle] at hreading
    cases hreading
  · exact fun _ hall => absurd hall hvisible

/-- **A pass** has no effect, or carries out the next command. -/
theorem Reading.pass (h : Reading noise s lines cmds) (hpass : s.runPass l o = some t) :
    t.unread < s.unread ∧ t.reading = false ∧
      ((noise ∧ Reading noise t lines cmds ∧ SameEffects t.world s.world) ∨
        ∃ cmd rest, cmds = cmd :: rest ∧ Reading noise t lines rest ∧
          t.world = s.world.next (.command cmd o)) := by
  obtain ⟨held, hholds, rfl, -⟩ := h.holds
  have hne : ¬ Blank s.stdin.bytes := by
    intro hblank
    rw [runPass_of_blank h.good h.opened hblank] at hpass
    cases hpass
  obtain ⟨world, command, rest, hpass', hlt, hcase⟩ := hholds.runPass h.good hne l o
  obtain rfl := Option.some_inj.mp (hpass'.symm.trans hpass)
  -- Behind the pass stdio holds no command.
  have hnext : ∀ cmds, Silent noise rest → cmds = commands lines → Reading noise
      { s with world, stdin := { bytes := rest }, command, reading := false } lines cmds := by
    intro cmds hsilent hcmds
    refine ⟨rfl, h.opened, h.descriptor, h.isLine, h.tame, h.kind,
      ⟨[], .silent hsilent, hcmds, fun _ => rfl⟩, ?_⟩
    intro hfalse
    cases hfalse
  refine ⟨Nat.add_lt_add_right hlt _, rfl, ?_⟩
  rcases hcase with ⟨hnoise, rfl, hsilent, heffect⟩ | ⟨cmd, rfl, hblank, hworld⟩
  · exact .inl ⟨hnoise, hnext _ hsilent (List.nil_append _), heffect⟩
  · exact .inr ⟨cmd, _, rfl, hnext _ (.done hblank) rfl, hworld⟩

/-- The world does not matter. -/
theorem Reading.other (h : Reading noise s lines cmds) (w : World) :
    Reading noise { s with world := w } lines cmds :=
  ⟨h.good, h.opened, h.descriptor, h.isLine, h.tame, h.kind, h.holds, h.goesOn⟩

/-! ## Progress -/

/-- **A pass that found input comes to its end**, after a `read` at most. -/
theorem Reading.exists_pass (h : Reading noise s lines cmds) (hreading : s.reading = true)
    (hrun : s.world.ctrlRunning = true) (l : Locals) (o : Outcome) :
    ∃ rs t lines', Run (StepIn OneLine) s (rs ++ [.pass l o]) t ∧ (∀ x ∈ rs, ∃ n, x = .read n) ∧
      t.unread < s.unread ∧ t.reading = false ∧
      ((noise ∧ Reading noise t lines' cmds ∧ SameEffects t.world s.world) ∨
        ∃ cmd rest, cmds = cmd :: rest ∧ Reading noise t lines' rest ∧
          t.world = s.world.next (.command cmd o)) := by
  -- Where something visible is held, the pass comes at once.
  have hvisible : ∀ {u lines}, Reading noise u lines cmds → ¬ Blank u.stdin.bytes →
      ∃ t, u.runPass l o = some t := by
    intro u lines hu hne
    obtain ⟨held, hholds, -⟩ := hu.holds
    obtain ⟨world, command, rest, hpass, -⟩ := hholds.runPass hu.good hne l o
    exact ⟨_, hpass⟩
  by_cases hblank : Blank s.stdin.bytes
  · have hmore : ∀ l o, s.runPass l o = none := fun l o =>
      runPass_of_blank h.good h.opened hblank
    obtain ⟨line, rest, rfl⟩ := List.exists_cons_of_ne_nil (h.goesOn hreading hblank)
    have hline := h.isLine line List.mem_cons_self
    have htake : s.descriptor.take line.length = line := by
      rw [h.descriptor, List.flatten_cons, List.take_left]
    have hone : IsLine (s.descriptor.take line.length) := htake.symm ▸ hline
    have hle : line.length ≤ s.descriptor.length := by
      rw [h.descriptor, List.flatten_cons, List.length_append]
      exact Nat.le_add_right _ _
    have hpos := List.length_pos_of_ne_nil hline.ne_nil
    obtain ⟨_, rest', -, hfill, hne⟩ := h.fill hreading hmore hone
    obtain ⟨t, hpass⟩ := hvisible hfill hne
    obtain ⟨hlt, hidle, hcase⟩ := hfill.pass hpass
    refine ⟨[.read line.length], t, rest', ?_, ?_, ?_, hidle, hcase⟩
    · exact .cons ⟨hone, .read hreading hmore hpos hle⟩ (.single ⟨trivial, .pass hrun hreading hpass⟩)
    · intro x hx
      exact ⟨line.length, List.mem_singleton.mp hx⟩
    · have hsame : (s.fill line.length).unread = s.unread := by
        unfold unread Session.fill
        rw [List.length_append, List.length_take, List.length_drop]
        omega
      rw [← hsame]
      exact hlt
  · obtain ⟨t, hpass⟩ := hvisible h hblank
    obtain ⟨hlt, hidle, hcase⟩ := h.pass hpass
    exact ⟨[], t, lines, .single ⟨trivial, .pass hrun hreading hpass⟩, List.forall_mem_nil _, hlt,
      hidle, hcase⟩

end Reading

end Session

end NodeTree
