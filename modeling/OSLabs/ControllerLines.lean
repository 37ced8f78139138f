/-
# What a pass makes of a line

A line with a command and its arguments is carried out by one pass, which leaves white space at
most; a `Quiet` text, whose words are no commands, is read without an effect.  `Reads` says what a
pass makes of the bytes that stdio holds, whatever the descriptor has.
-/
import OSLabs.ControllerRun
import OSLabs.NodeTreeOutput

namespace NodeTree

open TextStream

/-! ## Lines -/

/-- The words of the four commands. -/
def commandWords : List (List UInt8) := [createWord, execWord, pingWord, heartbeatWord]

/-- White space comes first. -/
def SpaceFirst (text : List UInt8) : Prop := ∃ c rest, text = c :: rest ∧ isSpace c = true

/-- A number with the blanks in front of it. -/
def ValText.bytes (v : ValText) : List UInt8 := v.gap ++ v.text

/-- **The line is well formed**: a command, its arguments and nothing else. -/
inductive WellFormed : List UInt8 → Command → Prop
  | create {gap after : List UInt8} (child parent : ValText) (hgap : ∀ c ∈ gap, IsBlank c)
      (hafter : ∀ c ∈ after, IsBlank c) :
      WellFormed (gap ++ (createWord ++ (child.bytes ++ (parent.bytes ++ (after ++ [10])))))
        (.create child.value parent.value)
  | exec {gap : List UInt8} (t : ExecTail) (hgap : ∀ c ∈ gap, IsBlank c) (hbefore : t.before ≠ []) :
      WellFormed (gap ++ (execWord ++ t.bytes)) (.exec t.id t.key (t.val.map ValText.value))
  | ping {gap after : List UInt8} (id : ValText) (hgap : ∀ c ∈ gap, IsBlank c)
      (hafter : ∀ c ∈ after, IsBlank c) :
      WellFormed (gap ++ (pingWord ++ (id.bytes ++ (after ++ [10])))) (.ping id.value)
  | heartbeat {gap after : List UInt8} (time : ValText) (hgap : ∀ c ∈ gap, IsBlank c)
      (hafter : ∀ c ∈ after, IsBlank c) :
      WellFormed (gap ++ (heartbeatWord ++ (time.bytes ++ (after ++ [10])))) (.heartbeat time.value)

/-- No word of the text is a command, or it is `exec` and no id and key follow in the line. -/
inductive Quiet : List UInt8 → Prop
  | blank {text : List UInt8} (h : ∀ c ∈ text, isSpace c = true) : Quiet text
  | word {gap word rest : List UInt8} (hgap : ∀ c ∈ gap, isSpace c = true) (hne : word ≠ [])
      (hword : ∀ c ∈ word, isSpace c = false)
      (hunknown : word ∉ commandWords) (hrest : SpaceFirst rest)
      (h : Quiet rest) : Quiet (gap ++ (word ++ rest))
  | exec {gap rest : List UInt8} (hgap : ∀ c ∈ gap, isSpace c = true) (hrest : SpaceFirst rest)
      (hline : 10 ∈ rest)
      (hnone : ∀ key, scanIdKey ((takeLine 99 rest).takeWhile (· ≠ 0)) key = none)
      (h : Quiet (rest.drop (takeLine 99 rest).length)) : Quiet (gap ++ (execWord ++ rest))

/-- A command is carried out, or nothing has an effect. -/
def HasEffect (o : Outcome) (w w' : World) : Option Command → Prop
  | some cmd => w' = w.next (.command cmd o)
  | none => SameEffects w' w

/-- A pass on these bytes reads `cmd`, or nothing that has an effect, and leaves `rest`. -/
def Reads (bytes : List UInt8) (cmd : Option Command) (rest : List UInt8) : Prop :=
  ∀ (s : Session) (l : Locals) (o : Outcome), s.stdin = { bytes := bytes } →
    ∃ (world : World) (command : List UInt8),
      s.runPass l o =
        some { s with world, stdin := { bytes := rest }, command, reading := false } ∧
      HasEffect o s.world world cmd

/-- The passes on these bytes have no effect, until white space is left; `noise` tells whether there
may be any. -/
inductive Silent (noise : Prop) : List UInt8 → Prop
  | done {bytes : List UInt8} (h : ∀ c ∈ bytes, isSpace c = true) : Silent noise bytes
  | skip {bytes rest : List UInt8} (hnoise : noise) (hreads : Reads bytes none rest)
      (hlt : rest.length < bytes.length) (h : Silent noise rest) : Silent noise bytes

section Lines

variable {noise : Prop} {gap word rest bytes : List UInt8} {cmd : Option Command}

/-! ## Words and numbers in front of white space -/

theorem isSpace_of_blank {l : List UInt8} (h : ∀ c ∈ l, IsBlank c) : ∀ c ∈ l, isSpace c = true :=
  fun c hc => (h c hc).1

/-- Blanks and something behind them. -/
theorem spaceFirst_of_blanks (hne : gap ≠ []) (hgap : ∀ c ∈ gap, isSpace c = true) :
    SpaceFirst (gap ++ rest) := by
  cases gap with
  | nil => exact absurd rfl hne
  | cons c gap => exact ⟨c, gap ++ rest, rfl, hgap c List.mem_cons_self⟩

/-- The end of a line. -/
theorem spaceFirst_end (hgap : ∀ c ∈ gap, IsBlank c) : SpaceFirst (gap ++ [10]) := by
  cases gap with
  | nil => exact ⟨10, [], rfl, rfl⟩
  | cons c gap => exact ⟨c, gap ++ [10], rfl, (hgap c List.mem_cons_self).1⟩

theorem SpaceFirst.isEmpty (h : SpaceFirst rest) : rest.isEmpty = false := by
  obtain ⟨c, tail, rfl, -⟩ := h
  rfl

theorem SpaceFirst.stops (h : SpaceFirst rest) : Stops (fun c => !isSpace c) rest := by
  obtain ⟨c, tail, rfl, hc⟩ := h
  intro d hd
  show (!isSpace d) = false
  rw [← Option.some_inj.mp hd, hc]
  rfl

theorem SpaceFirst.stops_isDigit (h : SpaceFirst rest) : Stops isDigit rest := by
  obtain ⟨c, tail, rfl, hc⟩ := h
  intro d hd
  rw [← Option.some_inj.mp hd]
  exact isDigit_of_isSpace hc

/-- Something visible behind blanks is what an extraction finds. -/
theorem dropWhile_gap (hgap : ∀ c ∈ gap, isSpace c = true) (hne : word ≠ [])
    (hword : ∀ c ∈ word, isSpace c = false) :
    (gap ++ (word ++ rest)).dropWhile isSpace = word ++ rest := by
  apply dropWhile_of_stops hgap
  intro c hc
  rw [List.head?_append_of_ne_nil _ hne] at hc
  exact hword c (List.mem_of_mem_head? hc)

theorem extractWord_word (hne : word ≠ []) (hword : ∀ c ∈ word, isSpace c = false)
    (hrest : SpaceFirst rest) (operand : List UInt8) :
    InputStream.extractWord { bytes := word ++ rest } operand = (word, { bytes := rest }) := by
  have hskip : (word ++ rest).dropWhile isSpace = word ++ rest :=
    @dropWhile_gap [] _ _ (fun _ hc => absurd hc List.not_mem_nil) hne hword
  have hvisible : ∀ c ∈ word, (!isSpace c) = true := by
    intro c hc
    rw [hword c hc]
    rfl
  have hnil : (word ++ rest).dropWhile isSpace ≠ [] := by
    rw [hskip]
    exact List.append_ne_nil_of_left_ne_nil hne _
  rw [InputStream.extractWord, (InputStream.fresh_mk _).extract_eq hnil]
  simp only [hskip, parseWord, takeWhile_of_stops hvisible hrest.stops,
    dropWhile_of_stops hvisible hrest.stops, hrest.isEmpty, Bool.not_true]

theorem visible_of_mem_commandWords (h : word ∈ commandWords) :
    word ≠ [] ∧ ∀ c ∈ word, isSpace c = false := by
  simp only [commandWords, List.mem_cons, List.not_mem_nil, or_false] at h
  rcases h with rfl | rfl | rfl | rfl
  · simp [createWord, isSpace]
  · simp [execWord, isSpace]
  · simp [pingWord, isSpace]
  · simp [heartbeatWord, isSpace]

/-- The word of a command at the beginning. -/
theorem extractWord_command (h : word ∈ commandWords) (hrest : SpaceFirst rest)
    (operand : List UInt8) :
    InputStream.extractWord { bytes := word ++ rest } operand = (word, { bytes := rest }) := by
  obtain ⟨hne, hword⟩ := visible_of_mem_commandWords h
  exact extractWord_word hne hword hrest operand

theorem extractInt_val (v : ValText) (hrest : SpaceFirst rest) (operand : ℤ) :
    InputStream.extractInt { bytes := v.bytes ++ rest } operand = (v.value, { bytes := rest }) := by
  have hint := v.isInt.isInt
  have hskip : (v.bytes ++ rest).dropWhile isSpace = v.text ++ rest := by
    rw [ValText.bytes, List.append_assoc]
    exact dropWhile_gap (isSpace_of_blank v.gap_blank) hint.ne_nil fun c hc => (hint.visible hc).1
  have hnil : (v.bytes ++ rest).dropWhile isSpace ≠ [] := by
    rw [hskip]
    exact List.append_ne_nil_of_left_ne_nil hint.ne_nil _
  have hparse : parseInt (-2 ^ 31) (2 ^ 31 - 1) (v.text ++ rest) = ⟨v.value, true, rest⟩ := by
    have hlow := v.isInt.low
    have hhigh := v.isInt.high
    rw [parseInt, hint.scan_append hrest.stops_isDigit]
    simp only [if_neg (not_lt.mpr hlow), if_neg (not_lt.mpr (Int.le_sub_one_of_lt hhigh))]
  rw [InputStream.extractInt, (InputStream.fresh_mk _).extract_eq hnil]
  simp only [hskip, hparse, hrest.isEmpty, Bool.not_true]

theorem ValText.spaceFirst (v : ValText) (rest : List UInt8) : SpaceFirst (v.bytes ++ rest) := by
  rw [ValText.bytes, List.append_assoc]
  exact spaceFirst_of_blanks v.gap_ne (isSpace_of_blank v.gap_blank)

/-! ## White space in front -/

/-- White space in front changes nothing. -/
theorem Reads.blanks (h : Reads bytes cmd rest) (hgap : ∀ c ∈ gap, isSpace c = true) :
    Reads (gap ++ bytes) cmd rest := by
  intro s l o hs
  have hword : s.stdin.extractWord s.command =
      InputStream.extractWord { bytes := bytes } s.command := by
    have hskip : (gap ++ bytes).dropWhile isSpace = bytes.dropWhile isSpace :=
      List.dropWhile_append_of_pos hgap
    rw [hs]
    simp only [InputStream.extractWord, InputStream.extract, hskip]
    rfl
  -- The pass that finds only `bytes` does the same.
  obtain ⟨world, command, hpass, heffect⟩ := h { s with stdin := { bytes := bytes } } l o rfl
  refine ⟨world, command, ?_, heffect⟩
  rw [← hpass]
  simp only [Session.runPass, hword]
  rfl

theorem Silent.blanks (h : Silent noise bytes) (hgap : ∀ c ∈ gap, isSpace c = true) :
    Silent noise (gap ++ bytes) := by
  cases h with
  | done hblank =>
    apply Silent.done
    intro c hc
    rcases List.mem_append.mp hc with hc | hc
    · exact hgap c hc
    · exact hblank c hc
  | skip hnoise hreads hlt hrest =>
    refine .skip hnoise (hreads.blanks hgap) (lt_of_lt_of_le hlt ?_) hrest
    rw [List.length_append]
    exact Nat.le_add_left _ _

/-! ## Quiet text -/

/-- A word that is no command. -/
theorem reads_unknown (hne : word ≠ []) (hword : ∀ c ∈ word, isSpace c = false)
    (hunknown : word ∉ commandWords) (hrest : SpaceFirst rest) :
    Reads (word ++ rest) none rest := by
  intro s l o hs
  have hextract := extractWord_word hne hword hrest s.command
  simp only [commandWords, List.mem_cons, List.not_mem_nil, or_false, not_or] at hunknown
  obtain ⟨hcreate, hexec, hping, hheartbeat⟩ := hunknown
  refine ⟨s.world.updateCtrl (·.print .unknownCommand), word, ?_, SameEffects.print s.world⟩
  rw [Session.runPass]
  simp only [hs, hextract, if_neg hcreate, if_neg hexec, if_neg hping, if_neg hheartbeat,
    Bool.false_and, Bool.false_eq_true, if_false]

/-- `exec` with whatever its handler makes of the line. -/
theorem runPass_exec {s : Session} {w : World} {l : Locals} {o : Outcome} {tail : List UInt8}
    {key : CharBuffer} (hs : s.stdin = { bytes := execWord ++ rest }) (hrest : SpaceFirst rest)
    (hline : 10 ∈ rest) (h : execCommand s.world rest l.input l.key = (w, key, tail)) :
    s.runPass l o = some { s with
      world := w, stdin := { bytes := tail }, command := execWord, reading := false } := by
  have hextract := extractWord_command (by decide : execWord ∈ commandWords) hrest s.command
  have hcreate : execWord ≠ createWord := by decide
  have henough : ¬ (rest.length < 99 ∧ 10 ∉ rest ∧ s.atEnd = false) := fun h => h.2.1 hline
  rw [Session.runPass]
  simp only [hs, hextract, if_neg hcreate, if_neg henough, h, if_true, Bool.false_and,
    Bool.false_eq_true, if_false]

/-- `exec` without an id and a key. -/
theorem reads_exec_none (hrest : SpaceFirst rest) (hline : 10 ∈ rest)
    (hnone : ∀ key, scanIdKey ((takeLine 99 rest).takeWhile (· ≠ 0)) key = none) :
    Reads (execWord ++ rest) none (rest.drop (takeLine 99 rest).length) := by
  intro s l o hs
  have hexec : execCommand s.world rest l.input l.key =
      (s.world, .alloc 30 l.key, rest.drop (takeLine 99 rest).length) := by
    have hlen := length_takeLine_le 99 rest
    rw [execCommand, fgets_eq _ (List.ne_nil_of_mem hline)]
    simp only [Nat.add_one_sub_one, Option.getD_some]
    rw [Chars.text_store _ (hlen.trans (Nat.le_succ 99)), scanExec, hnone]
  exact ⟨s.world, execWord, runPass_exec hs hrest hline hexec, .refl s.world⟩

/-- **A quiet text** is read without an effect. -/
theorem Quiet.silent {text : List UInt8} (h : Quiet text) (hnoise : noise) : Silent noise text := by
  induction h with
  | blank h => exact .done h
  | @word gap word rest hgap hne hword hunknown hrest _ ih =>
    have hlt : rest.length < (word ++ rest).length := by
      have hpos := List.length_pos_of_ne_nil hne
      simp only [List.length_append]
      omega
    have hreads := reads_unknown hne hword hunknown hrest
    exact (Silent.skip hnoise hreads hlt ih).blanks hgap
  | @exec gap rest hgap hrest hline hnone _ ih =>
    have hlt : (rest.drop (takeLine 99 rest).length).length < (execWord ++ rest).length := by
      simp only [List.length_append, List.length_drop]
      have hpos : 0 < execWord.length := by decide
      omega
    have hreads := reads_exec_none hrest hline hnone
    exact (Silent.skip hnoise hreads hlt ih).blanks hgap

/-! ## Well-formed lines -/

theorem reads_create (child parent : ValText) (hrest : SpaceFirst rest) :
    Reads (createWord ++ (child.bytes ++ (parent.bytes ++ rest)))
      (some (.create child.value parent.value)) rest := by
  intro s l o hs
  have hextract := extractWord_command (by decide : createWord ∈ commandWords)
    (child.spaceFirst (parent.bytes ++ rest)) s.command
  refine ⟨_, createWord, ?_, rfl⟩
  rw [Session.runPass]
  simp only [hs, hextract, extractInt_val child (parent.spaceFirst rest),
    extractInt_val parent hrest, if_true, Bool.false_and, Bool.false_eq_true, if_false]
  rfl

theorem reads_ping (id : ValText) (hrest : SpaceFirst rest) :
    Reads (pingWord ++ (id.bytes ++ rest)) (some (.ping id.value)) rest := by
  intro s l o hs
  have hextract := extractWord_command (by decide : pingWord ∈ commandWords)
    (id.spaceFirst rest) s.command
  have hcreate : pingWord ≠ createWord := by decide
  have hexec : pingWord ≠ execWord := by decide
  refine ⟨_, pingWord, ?_, rfl⟩
  rw [Session.runPass]
  simp only [hs, hextract, extractInt_val id hrest, if_neg hcreate, if_neg hexec, if_true,
    Bool.false_and, Bool.false_eq_true, if_false]
  rfl

theorem reads_heartbeat (time : ValText) (hrest : SpaceFirst rest) :
    Reads (heartbeatWord ++ (time.bytes ++ rest)) (some (.heartbeat time.value)) rest := by
  intro s l o hs
  have hextract := extractWord_command (by decide : heartbeatWord ∈ commandWords)
    (time.spaceFirst rest) s.command
  have hcreate : heartbeatWord ≠ createWord := by decide
  have hexec : heartbeatWord ≠ execWord := by decide
  have hping : heartbeatWord ≠ pingWord := by decide
  refine ⟨_, heartbeatWord, ?_, rfl⟩
  rw [Session.runPass]
  simp only [hs, hextract, extractInt_val time hrest, if_neg hcreate, if_neg hexec, if_neg hping,
    if_true, Bool.false_and, Bool.false_eq_true, if_false]
  rfl

theorem reads_exec (t : ExecTail) (hfits : t.Fits) (hbefore : t.before ≠ []) :
    Reads (execWord ++ t.bytes) (some (.exec t.id t.key (t.val.map ValText.value)))
      (t.bytes.drop 99) := by
  intro s l o hs
  have hkey := ExecTail.takeWhile_key hfits.key_noZero
  have hspace : SpaceFirst t.bytes := by
    rw [ExecTail.bytes, ExecTail.args, List.append_assoc]
    exact spaceFirst_of_blanks hbefore (isSpace_of_blank t.before_blank)
  have hline : 10 ∈ t.bytes := by
    rw [ExecTail.bytes]
    simp
  obtain ⟨key, heq⟩ := @ExecTail.execCommand_of_short t s.world [] l.input l.key hfits.args_short
    (by rw [hkey]; exact t.key_ne) (by rw [hkey]; exact hfits.key_short)
  rw [hkey, if_neg hfits.key_noZero, List.append_nil, List.append_nil] at heq
  exact ⟨_, execWord, runPass_exec hs hspace hline heq, rfl⟩

/-- **A well-formed line** that fits is carried out by one pass, which leaves white space. -/
theorem WellFormed.reads {line : List UInt8} {cmd : Command} (h : WellFormed line cmd)
    (hfits : ∀ gap t, line = gap ++ (execWord ++ ExecTail.bytes t) → (∀ c ∈ gap, IsBlank c) →
      t.before ≠ [] → t.Fits) :
    ∃ rest, Reads line (some cmd) rest ∧ rest.length < line.length ∧
      ∀ c ∈ rest, isSpace c = true := by
  cases h with
  | @create gap after child parent hgap hafter =>
    have hreads := reads_create child parent (spaceFirst_end hafter)
    refine ⟨after ++ [10], hreads.blanks (isSpace_of_blank hgap), ?_, isSpace_after hafter⟩
    simp only [List.length_append, createWord, List.length_cons]
    omega
  | @exec gap t hgap hbefore =>
    have hf := hfits gap t rfl hgap hbefore
    refine ⟨t.bytes.drop 99, (reads_exec t hf hbefore).blanks (isSpace_of_blank hgap), ?_,
      t.isSpace_left hf.args_short⟩
    simp only [List.length_append, List.length_drop, execWord, List.length_cons]
    omega
  | @ping gap after id hgap hafter =>
    have hreads := reads_ping id (spaceFirst_end hafter)
    refine ⟨after ++ [10], hreads.blanks (isSpace_of_blank hgap), ?_, isSpace_after hafter⟩
    simp only [List.length_append, pingWord, List.length_cons]
    omega
  | @heartbeat gap after time hgap hafter =>
    have hreads := reads_heartbeat time (spaceFirst_end hafter)
    refine ⟨after ++ [10], hreads.blanks (isSpace_of_blank hgap), ?_, isSpace_after hafter⟩
    simp only [List.length_append, heartbeatWord, List.length_cons]
    omega

end Lines

end NodeTree
