/-
# Exec commands

The reading part of `Controller::handle_exec_command` in `Labs/Lab5/src/control.cpp`: `fgets` into a
line buffer of 100 bytes, and two calls of `sscanf` that write into a key buffer of 30 bytes.  A
command line of an id, a key and an optional value is read faithfully exactly if its arguments fit in
the line buffer and its key leaves room for the terminating zero.  A longer key overruns its array,
and what does not fit in the line is read as another command.
-/
import OSLabs.CharBuffer
import OSLabs.NodeTree
import OSLabs.NodeTreePackets
import OSLabs.NumberText

namespace NodeTree

open TextStream

/-! ## `handle_exec_command` -/

/-- `"%d"`: the value is cut to a `long` and then to an `int`. -/
def scanfInt (v : ℤ) : ℤ := (max (-2 ^ 63) (min v (2 ^ 63 - 1))).bmod (2 ^ 32)

/-- `sscanf` with `"%d %30s"`: the id, the array `key` and the rest of the text, if both are
there. -/
def scanIdKey (text : List UInt8) (key : CharBuffer) : Option (ℤ × CharBuffer × List UInt8) :=
  match scanInt (text.dropWhile isSpace) with
  | (none, _) => none
  | (some id, rest) =>
    let (word, rest) := scanWord 30 rest
    if word = [] then none else some (scanfInt id, key.writeAll 0 (word ++ [0]), rest)

/-- `" %d"`, the last conversion of the first `sscanf`. -/
def scanVal (text : List UInt8) : Option ℤ :=
  (scanInt (text.dropWhile isSpace)).1.map scanfInt

/-- What the two calls of `sscanf` find in the line: the arguments, and the array `key`. -/
def scanExec (text : List UInt8) (key : CharBuffer) : Option (ℤ × Option ℤ) × CharBuffer :=
  match scanIdKey text key with
  | none => (none, key)
  | some (id, key, rest) =>
    match scanVal rest with
    | some val => (some (id, some val), key)
    | none =>
      -- the second call writes the same key again
      match scanIdKey text key with
      | none => (none, key)
      | some (id, key, _) => (some (id, none), key)

/-- `handle_exec_command` on the rest of the standard input: the world, the array `key`, and the
input that is left. -/
def execCommand (w : World) (input : List UInt8) (inputBytes keyBytes : Chars) :
    World × CharBuffer × List UInt8 :=
  -- at the end of the input the array stays as it was
  let (line, rest) := (fgets 100 inputBytes input).getD (inputBytes, input)
  match scanExec (line.text 100) (.alloc 30 keyBytes) with
  | (none, key) => (w, key, rest)
  | (some (id, val), key) => (handleExecCommand w id key.text val, key, rest)

/-! ## Command lines -/

/-- White space inside a line. -/
def IsBlank (c : UInt8) : Prop := isSpace c = true ∧ c ≠ 10

instance : DecidablePred IsBlank :=
  fun c => inferInstanceAs (Decidable (isSpace c = true ∧ c ≠ 10))

/-- The end of a line. -/
theorem isSpace_after {after : List UInt8} (h : ∀ c ∈ after, IsBlank c) :
    ∀ c ∈ after ++ [10], isSpace c = true := by
  intro c hc
  rcases List.mem_append.mp hc with hc | hc
  · exact (h c hc).1
  · rw [List.mem_singleton.mp hc]
    decide

/-- The text is an `int`. -/
structure IsIntText (text : List UInt8) (v : ℤ) : Prop where
  isInt : IsInt text v
  low : -2 ^ 31 ≤ v
  high : v < 2 ^ 31

/-- The value at the end of the arguments, with the blanks in front of it. -/
structure ValText where
  gap : List UInt8
  text : List UInt8
  value : ℤ
  gap_ne : gap ≠ []
  gap_blank : ∀ c ∈ gap, IsBlank c
  isInt : IsIntText text value

/-- What follows the word `exec` in a line: an id, a key and an optional value, with blanks between
them. -/
structure ExecTail where
  before : List UInt8
  idText : List UInt8
  id : ℤ
  gap : List UInt8
  key : List UInt8
  val : Option ValText
  after : List UInt8
  before_blank : ∀ c ∈ before, IsBlank c
  isInt : IsIntText idText id
  gap_ne : gap ≠ []
  gap_blank : ∀ c ∈ gap, IsBlank c
  key_ne : key ≠ []
  key_visible : ∀ c ∈ key, isSpace c = false
  after_blank : ∀ c ∈ after, IsBlank c

namespace ExecTail

variable (t : ExecTail)

/-- The value with the blanks in front of it. -/
def valPart : List UInt8 := (t.val.map fun v => v.gap ++ v.text).getD []

/-- The arguments. -/
def args : List UInt8 := t.before ++ (t.idText ++ (t.gap ++ (t.key ++ t.valPart)))

/-- The bytes up to the end of the line. -/
def bytes : List UInt8 := t.args ++ (t.after ++ [10])

/-- The arguments fit in the line buffer, and the key in its array. -/
structure Fits : Prop where
  key_short : t.key.length ≤ 29
  key_noZero : 0 ∉ t.key
  args_short : t.args.length ≤ 99

end ExecTail

/-- The message carries the arguments of the line. -/
structure Carries (t : ExecTail) (m : Message) : Prop where
  command : m.command = if t.val.isSome then .execAdd else .execFnd
  id : m.id = t.id
  val : m.val = t.key
  addData : ∀ v, t.val = some v → m.addData = v.value

/-- **The line is read faithfully** in front of the input `next`: one message carries it or it is
rejected with an error, the array `key` is not overrun, and nothing of the line is left but white
space. -/
structure ReadFaithfully (t : ExecTail) (w : World) (next : List UInt8) (inputBytes keyBytes : Chars) :
    Prop where
  carried : (∃ m, Carries t m ∧
      (execCommand w (t.bytes ++ next) inputBytes keyBytes).1 = broadcastMessage w m) ∨
    ∃ line, (execCommand w (t.bytes ++ next) inputBytes keyBytes).1 = w.updateCtrl (·.print line)
  inside : (execCommand w (t.bytes ++ next) inputBytes keyBytes).2.1.Inside
  consumed : ∃ blanks, (execCommand w (t.bytes ++ next) inputBytes keyBytes).2.2 = blanks ++ next ∧
    ∀ c ∈ blanks, isSpace c = true

/-! ## Effects of a command -/

section Effects

variable (w : World)

theorem issued_broadcastMessage (m : Message) :
    (broadcastMessage w m).issued = w.issued ++ [⟨w.issued.length, m⟩] :=
  sendAll_keeps (f := World.issued) _ _ (fun _ _ => rfl) _

variable {w} {m m' : Message}

/-- Different messages have different effects. -/
theorem broadcastMessage_inj (h : broadcastMessage w m = broadcastMessage w m') : m = m' := by
  have hissued := congrArg World.issued h
  rw [issued_broadcastMessage, issued_broadcastMessage] at hissued
  have hlast := List.append_cancel_left hissued
  exact congrArg Request.msg (List.cons.inj hlast).1

theorem broadcastMessage_ne (w' : World) (h : w'.issued = w.issued) :
    w' ≠ broadcastMessage w m := by
  intro heq
  rw [heq, issued_broadcastMessage] at h
  have hlen := congrArg List.length h
  rw [List.length_append, List.length_singleton] at hlen
  omega

/-- Nothing happened: that is no message and no error. -/
theorem ne_print (line : Output) : w ≠ w.updateCtrl (·.print line) := by
  intro heq
  have hlen := congrArg (fun w : World => w.ctrl.output.length) heq
  have hprint : (w.updateCtrl (·.print line)).ctrl.output = w.ctrl.output ++ [line] := rfl
  simp only [hprint, List.length_append, List.length_singleton] at hlen
  omega

end Effects

/-! ## The line buffer -/

namespace ExecTail

variable (t : ExecTail) {w : World} {next : List UInt8} {inputBytes keyBytes : Chars}

theorem newline_notMem : 10 ∉ t.args ++ t.after := by
  have hint : ∀ {text v}, IsIntText text v → (10 : UInt8) ∉ text := by
    intro text v h hmem
    exact absurd (h.isInt.visible hmem).1 (by decide)
  have hval : (10 : UInt8) ∉ t.valPart := by
    intro hmem
    rw [valPart] at hmem
    cases hv : t.val with
    | none =>
        rw [hv] at hmem
        cases hmem
    | some v =>
        rw [hv] at hmem
        rcases List.mem_append.mp hmem with hmem | hmem
        · exact (v.gap_blank 10 hmem).2 rfl
        · exact hint v.isInt hmem
  intro hmem
  simp only [args, List.mem_append] at hmem
  rcases hmem with (hmem | hmem | hmem | hmem | hmem) | hmem
  · exact (t.before_blank 10 hmem).2 rfl
  · exact hint t.isInt hmem
  · exact (t.gap_blank 10 hmem).2 rfl
  · exact absurd (t.key_visible 10 hmem) (by decide)
  · exact hval hmem
  · exact (t.after_blank 10 hmem).2 rfl

/-- The handler works on the string of the first 99 bytes, and leaves the others. -/
theorem execCommand_eq : execCommand w (t.bytes ++ next) inputBytes keyBytes =
    match scanExec ((t.bytes.take 99).takeWhile (· ≠ 0)) (.alloc 30 keyBytes) with
    | (none, key) => (w, key, t.bytes.drop 99 ++ next)
    | (some (id, val), key) => (handleExecCommand w id key.text val, key, t.bytes.drop 99 ++ next) := by
  have hinput : t.bytes ++ next = (t.args ++ t.after) ++ 10 :: next := by
    simp only [bytes, List.append_assoc, List.singleton_append]
  have hline : takeLine 99 (t.bytes ++ next) = t.bytes.take 99 := by
    rw [hinput, takeLine_line t.newline_notMem]
    simp only [bytes, List.append_assoc]
  have hne : t.bytes ++ next ≠ [] := by
    rw [hinput]
    exact List.append_ne_nil_of_right_ne_nil _ (List.cons_ne_nil _ _)
  have hrest : (t.bytes ++ next).drop (t.bytes.take 99).length = t.bytes.drop 99 ++ next := by
    rw [List.length_take]
    rcases Nat.le_total 99 t.bytes.length with hle | hle
    · rw [min_eq_left hle, List.drop_append_of_le_length hle]
    · rw [min_eq_right hle, List.drop_left, List.drop_of_length_le hle, List.nil_append]
  have hlen : (t.bytes.take 99).length < 100 := by
    rw [List.length_take]
    omega
  have htext := Chars.text_store inputBytes hlen.le
  rw [execCommand, fgets_eq _ hne]
  rcases hscan : scanExec ((t.bytes.take 99).takeWhile (· ≠ 0)) (.alloc 30 keyBytes) with
    ⟨_ | ⟨id, val⟩, key⟩
  · simp only [hline, hrest, Option.getD_some, htext, hscan]
  · simp only [hline, hrest, Option.getD_some, htext, hscan]

/-- The arguments do not end with white space. -/
theorem exists_last : ∃ init c, t.args = init ++ [c] ∧ isSpace c = false := by
  have hconcat : ∀ l : List UInt8, l ≠ [] → (∀ c ∈ l, isSpace c = false) →
      ∃ init c, l = init ++ [c] ∧ isSpace c = false := by
    intro l hne hvisible
    rcases List.eq_nil_or_concat' l with rfl | ⟨init, c, rfl⟩
    · exact absurd rfl hne
    · exact ⟨init, c, rfl, hvisible c (List.mem_append_right _ List.mem_cons_self)⟩
  cases hv : t.val with
  | none =>
      obtain ⟨init, c, hkey, hc⟩ := hconcat t.key t.key_ne t.key_visible
      refine ⟨t.before ++ (t.idText ++ (t.gap ++ init)), c, ?_, hc⟩
      rw [args, valPart, hv, hkey]
      simp
  | some v =>
      obtain ⟨init, c, htext, hc⟩ := hconcat v.text v.isInt.isInt.ne_nil
        fun c hc => (v.isInt.isInt.visible hc).1
      refine ⟨t.before ++ (t.idText ++ (t.gap ++ (t.key ++ (v.gap ++ init)))), c, ?_, hc⟩
      rw [args, valPart, hv, Option.map_some, Option.getD_some, htext]
      simp

/-- What does not fit in the line is left, and is not only white space. -/
theorem args_short_of_consumed (h : ∃ blanks, t.bytes.drop 99 ++ next = blanks ++ next ∧
    ∀ c ∈ blanks, isSpace c = true) : t.args.length ≤ 99 := by
  obtain ⟨blanks, heq, hblanks⟩ := h
  have hdrop := List.append_cancel_right heq
  by_contra hlong
  -- The last byte of the arguments is in the part that is left.
  obtain ⟨init, c, hargs, hc⟩ := t.exists_last
  rw [hargs, List.length_append, List.length_singleton] at hlong
  have hmem : c ∈ t.bytes.drop 99 := by
    rw [bytes, hargs, List.append_assoc, List.drop_append_of_le_length (by omega)]
    exact List.mem_append_right _ (List.mem_append_left _ List.mem_cons_self)
  rw [hdrop] at hmem
  rw [hblanks c hmem] at hc
  cases hc

/-- A line whose arguments fit: the buffer holds them with some white space behind. -/
theorem take_bytes (h : t.args.length ≤ 99) : ∃ tail, t.bytes.take 99 = t.args ++ tail ∧
    ∀ c ∈ tail, isSpace c = true := by
  refine ⟨(t.after ++ [10]).take (99 - t.args.length), ?_, ?_⟩
  · rw [bytes, List.take_append, List.take_of_length_le h]
  · intro c hc
    exact isSpace_after t.after_blank c (List.mem_of_mem_take hc)

/-- What the buffer does not hold of such a line is white space too. -/
theorem isSpace_left (h : t.args.length ≤ 99) : ∀ c ∈ t.bytes.drop 99, isSpace c = true := by
  intro c hc
  rw [bytes, List.drop_append, List.drop_of_length_le h, List.nil_append] at hc
  exact isSpace_after t.after_blank c (List.mem_of_mem_drop hc)

theorem zero_notMem_idText : 0 ∉ t.idText := fun h => (t.isInt.isInt.visible h).2 rfl

/-- White space has no zero in it. -/
theorem zero_notMem_of_blank {l : List UInt8} (h : ∀ c ∈ l, isSpace c = true) : 0 ∉ l :=
  fun hzero => absurd (h 0 hzero) (by decide)

theorem zero_notMem_valPart : 0 ∉ t.valPart := by
  rw [valPart]
  cases hv : t.val with
  | none => exact List.not_mem_nil
  | some v =>
      intro hmem
      rcases List.mem_append.mp hmem with hmem | hmem
      · exact zero_notMem_of_blank (fun c hc => (v.gap_blank c hc).1) hmem
      · exact (v.isInt.isInt.visible hmem).2 rfl

/-- The string in the line buffer: it ends at the first zero of the key. -/
theorem takeWhile_args {tail : List UInt8} (htail : ∀ c ∈ tail, isSpace c = true) :
    ∃ rest, (t.args ++ tail).takeWhile (· ≠ 0) =
        t.before ++ (t.idText ++ (t.gap ++ (t.key.takeWhile (· ≠ 0) ++ rest))) ∧
      (0 ∈ t.key → rest = []) ∧ (0 ∉ t.key → rest = t.valPart ++ tail) := by
  have hpos : ∀ {l : List UInt8}, 0 ∉ l → ∀ c ∈ l, decide (c ≠ 0) = true := by
    intro l hl c hc
    rw [decide_eq_true_eq]
    rintro rfl
    exact hl hc
  have hassoc : t.args ++ tail =
      t.before ++ (t.idText ++ (t.gap ++ (t.key ++ (t.valPart ++ tail)))) := by
    simp only [args, List.append_assoc]
  have hbefore := hpos (zero_notMem_of_blank fun c hc => (t.before_blank c hc).1)
  have hgap := hpos (zero_notMem_of_blank fun c hc => (t.gap_blank c hc).1)
  rw [hassoc, List.takeWhile_append_of_pos hbefore,
    List.takeWhile_append_of_pos (hpos t.zero_notMem_idText), List.takeWhile_append_of_pos hgap]
  by_cases hzero : 0 ∈ t.key
  · refine ⟨[], ?_, fun _ => rfl, absurd hzero⟩
    have hne : (t.key.takeWhile (· ≠ 0)).length ≠ t.key.length := by
      intro hlen
      have heq := (List.takeWhile_prefix (p := (· ≠ 0)) (l := t.key)).eq_of_length hlen
      have hmem : (0 : UInt8) ∈ t.key.takeWhile (· ≠ 0) := by rwa [heq]
      have hzero' := List.mem_takeWhile_imp hmem
      simp at hzero'
    rw [List.takeWhile_append, if_neg hne, List.append_nil]
  · refine ⟨t.valPart ++ tail, ?_, fun h => absurd h hzero, fun _ => rfl⟩
    have hrest : (t.valPart ++ tail).takeWhile (· ≠ 0) = t.valPart ++ tail := by
      rw [List.takeWhile_append_of_pos (hpos t.zero_notMem_valPart)]
      congr 1
      exact List.takeWhile_eq_self_iff.mpr (hpos (zero_notMem_of_blank htail))
    have hkey : t.key.takeWhile (· ≠ 0) = t.key := List.takeWhile_eq_self_iff.mpr (hpos hzero)
    rw [List.takeWhile_append_of_pos (hpos hzero), hrest, hkey]

/-! ## The conversions -/

/-- An `int` is read as it is. -/
theorem scanfInt_of_int {text : List UInt8} {v : ℤ} (h : IsIntText text v) : scanfInt v = v := by
  have hlow := h.low
  have hhigh := h.high
  have hlong : max (-2 ^ 63) (min v (2 ^ 63 - 1)) = v := by omega
  rw [scanfInt, hlong]
  exact Int.bmod_eq_of_le (by omega) (by omega)

section Conversions

variable {word rest : List UInt8} {b : CharBuffer}

theorem scanInt_id (hrest : Stops isDigit rest) :
    scanInt ((t.before ++ (t.idText ++ rest)).dropWhile isSpace) = (some t.id, rest) := by
  have hskip : (t.before ++ (t.idText ++ rest)).dropWhile isSpace = t.idText ++ rest := by
    apply dropWhile_of_stops fun c hc => (t.before_blank c hc).1
    intro c hc
    have hhead : (t.idText ++ rest).head? = t.idText.head? :=
      List.head?_append_of_ne_nil _ t.isInt.isInt.ne_nil
    rw [hhead] at hc
    exact (t.isInt.isInt.visible (List.mem_of_mem_head? hc)).1
  rw [hskip, t.isInt.isInt.scan_append hrest]

/-- Blanks in front of anything stop a number. -/
theorem stops_gap : Stops isDigit (t.gap ++ rest) := by
  have hgap := stops_of_blanks fun c hc => (t.gap_blank c hc).1
  intro c hc
  rw [List.head?_append_of_ne_nil _ t.gap_ne] at hc
  exact hgap c hc

/-- A word behind the id: at most 30 bytes and a zero are written. -/
theorem scanIdKey_eq (hne : word ≠ []) (hword : ∀ c ∈ word, isSpace c = false)
    (hrest : Stops (fun c => !isSpace c) rest) :
    scanIdKey (t.before ++ (t.idText ++ (t.gap ++ (word ++ rest)))) b =
      some (t.id, b.writeAll 0 (word.take 30 ++ [0]), word.drop 30 ++ rest) := by
  have htake : word.take 30 ≠ [] := by
    rw [Ne, List.take_eq_nil_iff]
    rintro (h | h)
    · cases h
    · exact hne h
  simp only [scanIdKey, t.scanInt_id t.stops_gap,
    scanWord_append (fun c hc => (t.gap_blank c hc).1) hne hword hrest, if_neg htake,
    scanfInt_of_int t.isInt]

/-- Without a word behind the id nothing is written. -/
theorem scanIdKey_of_nil : scanIdKey (t.before ++ (t.idText ++ (t.gap ++ []))) b = none := by
  have hskip : (t.gap ++ []).dropWhile isSpace = [] :=
    dropWhile_of_stops (fun c hc => (t.gap_blank c hc).1) (stops_nil _)
  have hword : scanWord 30 (t.gap ++ []) = ([], []) := by
    simp only [scanWord, hskip]
    rfl
  simp only [scanIdKey, t.scanInt_id t.stops_gap, hword, if_pos]

/-- What the two calls of `sscanf` leave in the array: the word was written once or twice. -/
theorem scanExec_eq (hne : word ≠ []) (hword : ∀ c ∈ word, isSpace c = false)
    (hrest : Stops (fun c => !isSpace c) rest) :
    scanExec (t.before ++ (t.idText ++ (t.gap ++ (word ++ rest)))) b =
      match scanVal (word.drop 30 ++ rest) with
      | some val => (some (t.id, some val), b.writeAll 0 (word.take 30 ++ [0]))
      | none => (some (t.id, none),
          (b.writeAll 0 (word.take 30 ++ [0])).writeAll 0 (word.take 30 ++ [0])) := by
  have hscan : ∀ b, scanIdKey (t.before ++ (t.idText ++ (t.gap ++ (word ++ rest)))) b =
      some (t.id, b.writeAll 0 (word.take 30 ++ [0]), word.drop 30 ++ rest) :=
    fun b => t.scanIdKey_eq hne hword hrest
  rw [scanExec]
  cases hval : scanVal (word.drop 30 ++ rest) with
  | some val => simp only [hscan, hval]
  | none => simp only [hscan, hval]

theorem scanExec_of_nil : scanExec (t.before ++ (t.idText ++ (t.gap ++ []))) b = (none, b) := by
  simp only [scanExec, t.scanIdKey_of_nil]

/-- The array is not overrun exactly if the word leaves room for the zero. -/
theorem inside_scanExec_iff (hne : word ≠ []) (hword : ∀ c ∈ word, isSpace c = false)
    (hrest : Stops (fun c => !isSpace c) rest) :
    (scanExec (t.before ++ (t.idText ++ (t.gap ++ (word ++ rest)))) (.alloc 30 keyBytes)).2.Inside ↔
      word.length ≤ 29 := by
  have hnil : word.take 30 ++ [0] ≠ [] := List.append_ne_nil_of_right_ne_nil _ (List.cons_ne_nil _ _)
  have hlen : 0 + (word.take 30 ++ [0]).length ≤ 30 ↔ word.length ≤ 29 := by
    rw [List.length_append, List.length_take, List.length_singleton]
    omega
  rw [t.scanExec_eq hne hword hrest]
  cases scanVal (word.drop 30 ++ rest) with
  | some val =>
      rw [CharBuffer.inside_writeAll_iff hnil, CharBuffer.size_alloc, hlen]
      exact and_iff_right CharBuffer.inside_alloc
  | none =>
      rw [CharBuffer.inside_writeAll_iff hnil, CharBuffer.inside_writeAll_iff hnil,
        CharBuffer.size_writeAll, CharBuffer.size_alloc, hlen, and_assoc, and_self]
      exact and_iff_right CharBuffer.inside_alloc

/-- A word that leaves room for the zero is in the array, and what follows it is read as the
value. -/
theorem scanExec_of_short (hne : word ≠ []) (hword : ∀ c ∈ word, isSpace c = false)
    (hrest : Stops (fun c => !isSpace c) rest) (hzero : 0 ∉ word) (hshort : word.length ≤ 29) :
    ∃ key : CharBuffer, scanExec (t.before ++ (t.idText ++ (t.gap ++ (word ++ rest)))) (.alloc 30 keyBytes) =
      (some (t.id, scanVal rest), key) ∧ key.text = word := by
  rw [t.scanExec_eq hne hword hrest, List.take_of_length_le (by omega),
    List.drop_of_length_le (by omega), List.nil_append]
  cases scanVal rest with
  | some val =>
      refine ⟨_, rfl, CharBuffer.text_writeAll hzero ?_⟩
      rw [CharBuffer.size_alloc]
      omega
  | none =>
      refine ⟨_, rfl, CharBuffer.text_writeAll hzero ?_⟩
      rw [CharBuffer.size_writeAll, CharBuffer.size_alloc]
      omega

/-- The value is read if it is there. -/
theorem scanVal_eq {tail : List UInt8} (htail : ∀ c ∈ tail, isSpace c = true) :
    scanVal (t.valPart ++ tail) = t.val.map ValText.value := by
  rw [scanVal, valPart]
  cases t.val with
  | none =>
      have hskip : tail.dropWhile isSpace = [] := List.dropWhile_eq_nil_iff.mpr htail
      rw [Option.map_none, Option.getD_none, List.nil_append, hskip]
      rfl
  | some v =>
      have hskip : (v.gap ++ v.text ++ tail).dropWhile isSpace = v.text ++ tail := by
        rw [List.append_assoc]
        apply dropWhile_of_stops fun c hc => (v.gap_blank c hc).1
        intro c hc
        rw [List.head?_append_of_ne_nil _ v.isInt.isInt.ne_nil] at hc
        exact (v.isInt.isInt.visible (List.mem_of_mem_head? hc)).1
      rw [Option.map_some, Option.getD_some, hskip,
        v.isInt.isInt.scan_append (stops_of_blanks htail), Option.map_some, Option.map_some,
        scanfInt_of_int v.isInt]

/-- What follows the key stops it. -/
theorem stops_valPart {tail : List UInt8} (htail : ∀ c ∈ tail, isSpace c = true) :
    Stops (fun c => !isSpace c) (t.valPart ++ tail) := by
  have hblank : ∀ {l : List UInt8}, (∀ c ∈ l, isSpace c = true) → Stops (fun c => !isSpace c) l := by
    intro l hl c hc
    show (!isSpace c) = false
    rw [hl c (List.mem_of_mem_head? hc)]
    rfl
  apply Stops.append ?_ (hblank htail)
  rw [valPart]
  cases t.val with
  | none => exact stops_nil _
  | some v =>
      intro c hc
      rw [Option.map_some, Option.getD_some, List.head?_append_of_ne_nil _ v.gap_ne] at hc
      exact hblank (fun c hc => (v.gap_blank c hc).1) c hc

end Conversions

/-! ## Faithful lines -/

section Faithful

variable {t}

/-- Both calls of `sscanf` on a line whose arguments fit. -/
theorem exists_scanExec (h : t.args.length ≤ 99) : ∃ rest,
    (t.bytes.take 99).takeWhile (· ≠ 0) =
      t.before ++ (t.idText ++ (t.gap ++ (t.key.takeWhile (· ≠ 0) ++ rest))) ∧
    Stops (fun c => !isSpace c) rest ∧ (0 ∈ t.key → rest = []) ∧
    (0 ∉ t.key → scanVal rest = t.val.map ValText.value) := by
  obtain ⟨tail, hbytes, htail⟩ := t.take_bytes h
  obtain ⟨rest, hstring, hzero, hnoZero⟩ := t.takeWhile_args htail
  refine ⟨rest, by rw [hbytes, hstring], ?_, hzero, ?_⟩
  · by_cases hmem : 0 ∈ t.key
    · rw [hzero hmem]
      exact stops_nil _
    · rw [hnoZero hmem]
      exact t.stops_valPart htail
  · intro hmem
    rw [hnoZero hmem, t.scanVal_eq htail]

/-- The key up to its first zero. -/
theorem visible_takeWhile : ∀ c ∈ t.key.takeWhile (· ≠ 0), isSpace c = false :=
  fun c hc => t.key_visible c ((List.takeWhile_prefix _).subset hc)

theorem zero_notMem_takeWhile : 0 ∉ t.key.takeWhile (· ≠ 0) := by
  intro hmem
  have hne := List.mem_takeWhile_imp hmem
  simp at hne

theorem takeWhile_key (hzero : 0 ∉ t.key) : t.key.takeWhile (· ≠ 0) = t.key := by
  rw [List.takeWhile_eq_self_iff]
  intro c hc
  rw [decide_eq_true_eq]
  rintro rfl
  exact hzero hc

/-- The handler on a line whose key, up to its first zero, leaves room for the zero of the array. -/
theorem execCommand_of_short (hargs : t.args.length ≤ 99) (hne : t.key.takeWhile (· ≠ 0) ≠ [])
    (hshort : (t.key.takeWhile (· ≠ 0)).length ≤ 29) :
    ∃ key : CharBuffer, execCommand w (t.bytes ++ next) inputBytes keyBytes =
      (handleExecCommand w t.id (t.key.takeWhile (· ≠ 0))
        (if 0 ∈ t.key then none else t.val.map ValText.value), key, t.bytes.drop 99 ++ next) := by
  obtain ⟨rest, hstring, hstops, hzero, hnoZero⟩ := exists_scanExec hargs
  obtain ⟨key, hscan, htext⟩ := @scanExec_of_short t keyBytes _ rest hne visible_takeWhile hstops
    zero_notMem_takeWhile hshort
  refine ⟨key, ?_⟩
  rw [execCommand_eq, hstring, hscan]
  simp only [htext]
  by_cases hmem : 0 ∈ t.key
  · rw [if_pos hmem, hzero hmem]
    rfl
  · rw [if_neg hmem, hnoZero hmem]

/-- The array stays inside exactly if the key, up to its first zero, leaves room. -/
theorem inside_execCommand_iff (hargs : t.args.length ≤ 99) :
    (execCommand w (t.bytes ++ next) inputBytes keyBytes).2.1.Inside ↔
      (t.key.takeWhile (· ≠ 0)).length ≤ 29 := by
  obtain ⟨rest, hstring, hstops, hzero, -⟩ := exists_scanExec hargs
  have hkey : (execCommand w (t.bytes ++ next) inputBytes keyBytes).2.1 =
      (scanExec ((t.bytes.take 99).takeWhile (· ≠ 0)) (.alloc 30 keyBytes)).2 := by
    rw [execCommand_eq]
    rcases scanExec ((t.bytes.take 99).takeWhile (· ≠ 0)) (.alloc 30 keyBytes) with
      ⟨_ | ⟨id, val⟩, key⟩
    · rfl
    · rfl
  rw [hkey, hstring]
  by_cases hne : t.key.takeWhile (· ≠ 0) = []
  · have hmem : 0 ∈ t.key := by
      by_contra hmem
      exact t.key_ne ((takeWhile_key hmem).symm.trans hne)
    rw [hne, hzero hmem, List.nil_append, t.scanExec_of_nil]
    constructor
    · intro _
      exact Nat.zero_le _
    · intro _
      exact CharBuffer.inside_alloc
  · exact t.inside_scanExec_iff hne visible_takeWhile hstops

/-- The string that a key of at most 29 bytes without a zero leaves in a message. -/
theorem truncate_key (hzero : 0 ∉ t.key) (hshort : t.key.length ≤ 29) : truncate t.key = t.key := by
  rw [truncate, takeWhile_key hzero, List.take_of_length_le hshort]

/-- Registered: the command is broadcast. -/
theorem handleExecCommand_of_mem {id : ℤ} {key : List UInt8} {val : Option ℤ}
    (hid : id ∈ w.ctrl.nodeIds) : handleExecCommand w id key val =
      broadcastMessage w (.ofString w.clock (if val.isSome then .execAdd else .execFnd) id
        (val.getD (-1)) key) := by
  cases val with
  | none => exact if_neg (not_not.mpr hid)
  | some val => exact if_neg (not_not.mpr hid)

/-- **What fits is read faithfully.** -/
theorem Fits.readFaithfully (h : t.Fits) (hid : t.id ∈ w.ctrl.nodeIds) :
    ReadFaithfully t w next inputBytes keyBytes := by
  have hkey := takeWhile_key h.key_noZero
  obtain ⟨key, heq⟩ := @execCommand_of_short t w next inputBytes keyBytes h.args_short
    (by rw [hkey]; exact t.key_ne) (by rw [hkey]; exact h.key_short)
  rw [hkey, if_neg h.key_noZero, handleExecCommand_of_mem hid] at heq
  constructor
  · left
    refine ⟨_, ?_, by rw [heq]⟩
    constructor
    · show (if (t.val.map ValText.value).isSome then CommandType.execAdd else .execFnd) = _
      rw [Option.isSome_map]
    · rfl
    · exact truncate_key h.key_noZero h.key_short
    · intro v hv
      show (t.val.map ValText.value).getD (-1) = v.value
      rw [hv]
      rfl
  · rw [inside_execCommand_iff h.args_short, hkey]
    exact h.key_short
  · rw [heq]
    exact ⟨t.bytes.drop 99, rfl, t.isSpace_left h.args_short⟩

/-- A line that fits and is broadcast: its key is the value of the message. -/
theorem val_of_fits {m : Message} (h : t.Fits) (hid : t.id ∈ w.ctrl.nodeIds)
    (hm : (execCommand w (t.bytes ++ next) inputBytes keyBytes).1 = broadcastMessage w m) :
    m.val = t.key := by
  rcases (h.readFaithfully hid).carried with ⟨m', hcarries, hm'⟩ | ⟨line, hline⟩
  · rw [broadcastMessage_inj (hm.symm.trans hm')]
    exact hcarries.val
  · exact absurd (hline.symm.trans hm) (broadcastMessage_ne _ rfl)

/-- Only one message is broadcast, and its value is the key without what follows a zero. -/
theorem noZero_of_carried (hid : t.id ∈ w.ctrl.nodeIds) (hargs : t.args.length ≤ 99)
    (hshort : (t.key.takeWhile (· ≠ 0)).length ≤ 29)
    (h : (∃ m, Carries t m ∧
      (execCommand w (t.bytes ++ next) inputBytes keyBytes).1 = broadcastMessage w m) ∨
    ∃ line, (execCommand w (t.bytes ++ next) inputBytes keyBytes).1 = w.updateCtrl (·.print line)) :
    0 ∉ t.key := by
  intro hmem
  by_cases hne : t.key.takeWhile (· ≠ 0) = []
  · -- The key is lost, and nothing happens.
    obtain ⟨rest, hstring, -, hzero, -⟩ := exists_scanExec hargs
    have hnothing : (execCommand w (t.bytes ++ next) inputBytes keyBytes).1 = w := by
      rw [execCommand_eq, hstring, hne, hzero hmem, List.nil_append, t.scanExec_of_nil]
    rw [hnothing] at h
    rcases h with ⟨m, -, hm⟩ | ⟨line, hline⟩
    · exact broadcastMessage_ne w rfl hm
    · exact ne_print line hline
  · obtain ⟨key, heq⟩ := @execCommand_of_short t w next inputBytes keyBytes hargs hne hshort
    rw [heq, handleExecCommand_of_mem hid] at h
    rcases h with ⟨m, hcarries, hm⟩ | ⟨line, hline⟩
    · -- The value of the message ends before the zero.
      have hval : truncate (t.key.takeWhile (· ≠ 0)) = t.key := by
        have hkey := hcarries.val
        rw [← broadcastMessage_inj hm] at hkey
        exact hkey
      have hzero : 0 ∉ truncate (t.key.takeWhile (· ≠ 0)) := by
        intro hmem'
        exact zero_notMem_takeWhile ((List.takeWhile_prefix _).subset (List.mem_of_mem_take hmem'))
      rw [hval] at hzero
      exact hzero hmem
    · exact broadcastMessage_ne (w := w) (w.updateCtrl (·.print line)) rfl hline.symm

/-- **Exec lines are read faithfully exactly if they fit**, and then different keys stay different in
the messages. -/
theorem exec_reads_faithfully_iff (hid : t.id ∈ w.ctrl.nodeIds) :
    (ReadFaithfully t w next inputBytes keyBytes ↔ t.Fits) ∧
    ∀ (t' : ExecTail) (w' : World) (next' : List UInt8) (m m' : Message), t.Fits → t'.Fits →
      t'.id ∈ w'.ctrl.nodeIds → t.key ≠ t'.key →
      (execCommand w (t.bytes ++ next) inputBytes keyBytes).1 = broadcastMessage w m →
      (execCommand w' (t'.bytes ++ next') inputBytes keyBytes).1 = broadcastMessage w' m' →
      m.val ≠ m'.val := by
  constructor
  · constructor
    · intro h
      have hleft : (execCommand w (t.bytes ++ next) inputBytes keyBytes).2.2 =
          t.bytes.drop 99 ++ next := by
        rw [execCommand_eq]
        rcases scanExec ((t.bytes.take 99).takeWhile (· ≠ 0)) (.alloc 30 keyBytes) with
          ⟨_ | ⟨id, val⟩, key⟩
        · rfl
        · rfl
      have hconsumed := h.consumed
      rw [hleft] at hconsumed
      have hargs := t.args_short_of_consumed hconsumed
      have hshort := (inside_execCommand_iff hargs).mp h.inside
      have hnoZero := noZero_of_carried hid hargs hshort h.carried
      rw [takeWhile_key hnoZero] at hshort
      exact ⟨hshort, hnoZero, hargs⟩
    · intro h
      exact h.readFaithfully hid
  · intro t' w' next' m m' ht ht' hid' hne hm hm'
    rw [val_of_fits ht hid hm, val_of_fits ht' hid' hm']
    exact hne

/-- `exec 1 a…a` with a key of `n` letters. -/
def oneKey (n : ℕ) (h : n ≠ 0) : ExecTail where
  before := [32]
  idText := [49]
  id := 1
  gap := [32]
  key := List.replicate n 97
  val := none
  after := []
  before_blank := List.forall_mem_singleton.mpr (by decide)
  isInt := ⟨by decide, by decide, by decide⟩
  gap_ne := by decide
  gap_blank := List.forall_mem_singleton.mpr (by decide)
  key_ne := by
    rw [Ne, List.replicate_eq_nil_iff]
    exact h
  key_visible := by
    intro c hc
    rw [List.eq_of_mem_replicate hc]
    decide
  after_blank := List.forall_mem_nil _

/-- The controller with one child, the node 1. -/
def oneChild : World := initial.next (.command (.create 1 (-1)) .created)

theorem exec_reads_faithfully_one : oneChild.ctrl.nodeIds = {1, -1} ∧
    (ReadFaithfully (oneKey 29 (by decide)) oneChild [] (fun _ => 0) (fun _ => 0) ↔
      (oneKey 29 (by decide)).Fits) :=
  ⟨by decide, (@exec_reads_faithfully_iff (oneKey 29 (by decide)) oneChild [] (fun _ => 0)
    (fun _ => 0) (by decide)).1⟩

/-- **A key of 30 bytes overruns its array.** -/
theorem thirty_bytes_overrun : (1 : ℤ) ∈ oneChild.ctrl.nodeIds ∧
    ¬ ReadFaithfully (oneKey 30 (by decide)) oneChild [] (fun _ => 0) (fun _ => 0) := by
  refine ⟨by decide, ?_⟩
  intro h
  exact absurd ((inside_execCommand_iff (by decide)).mp h.inside) (by decide)

end Faithful

end ExecTail

end NodeTree
