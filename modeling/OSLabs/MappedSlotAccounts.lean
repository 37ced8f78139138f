/-
# What becomes of the lines in a mapped file

A line is taken by one child, or written over by a later line, or still there: the numbers of
the lines are split among the three, whatever the order of the steps.  What a child takes is
one line, whole; and a child only leaves its loop when there is nothing left to take.
-/
import OSLabs.MappedSlot

namespace MappedSlot

open Chars VowelFilter

/-! ## Lines and buffers -/

section Buffers

variable {bytes l : List UInt8} {buffer data : Chars}

theorem lineText_noZero (bytes : List UInt8) : 0 ∉ lineText bytes := text_noZero _ _

theorem length_textFrom_le (s : Chars) (n i : ℕ) : (textFrom s n i).length ≤ n := by
  induction n generalizing i with
  | zero => exact Nat.le_refl _
  | succ n ih =>
      rw [textFrom]
      split_ifs
      · exact Nat.zero_le _
      · exact Nat.succ_le_succ (ih (i + 1))

theorem length_lineText_le (bytes : List UInt8) : (lineText bytes).length ≤ maxLine :=
  length_textFrom_le _ _ _

/-- A line without zero bytes that fits into the array is the string in it. -/
theorem lineText_eq (hzero : 0 ∉ bytes) (hlen : bytes.length ≤ 999) : lineText bytes = bytes :=
  IsString.text_eq ⟨has_store _ 0 _, hzero⟩ (by unfold maxLine; omega)

/-- What a child prints for the bytes that it finds. -/
def printed (buffer data : Chars) (size : ℕ) : List UInt8 :=
  text maxLine (removeVowels maxLine (Function.update (strncpy buffer data size) size 0))

/-- A line that stands in the file is printed without its vowels. -/
theorem printed_eq (h : Has data 0 l) (hzero : 0 ∉ l) (hlen : l.length ≤ maxLine) :
    printed buffer data l.length = consonants l :=
  (isString_removeVowels (isString_strncpy h hzero) hlen).text_eq
    ((length_consonants_le l).trans hlen)

/-- When the size is zero, nothing is printed, whatever bytes are left in the file. -/
theorem printed_zero (buffer data : Chars) : printed buffer data 0 = [] :=
  printed_eq (has_nil data 0) List.not_mem_nil (Nat.zero_le _)

end Buffers

/-! ## What a step does to one file -/

/-- A step does not concern the lines of the file. -/
structure SameFile (f : MappedFile) (w w' : World) : Prop where
  size : (w'.shared f).size = (w.shared f).size
  data : (w'.shared f).data = (w.shared f).data
  written : w'.written f = w.written f
  overwritten : w'.overwritten f = w.overwritten f
  taken : w'.taken f = w.taken f

/-- The parent writes the line `l` into the file; a line that is still there is lost. -/
structure NewLine (f : MappedFile) (w w' : World) (l : List UInt8) : Prop where
  size : (w'.shared f).size = l.length
  data : Has (w'.shared f).data 0 l
  written : w'.written f = w.written f ++ [l]
  overwritten : w'.overwritten f = w.overwritten f ++ w.unread f
  taken : w'.taken f = w.taken f

/-- A child takes what is in the file. -/
structure TakenLine (f : MappedFile) (w w' : World) (x : Consumption) : Prop where
  pos : (w.shared f).size > 0
  size : (w'.shared f).size = 0
  written : w'.written f = w.written f
  overwritten : w'.overwritten f = w.overwritten f
  taken : w'.taken f = w.taken f ++ [x]
  index : x.index = (w.written f).length - 1
  text : ∃ buffer, x.text = printed buffer (w.shared f).data (w.shared f).size

/-- **What a step can do to a file.** -/
inductive FileChange (f : MappedFile) (w w' : World) : Prop
  | same (h : SameFile f w w')
  | line (below : Bool) (bytes : List UInt8) (hmem : (below, bytes) ∈ w.input)
      (hf : target below = f) (h : NewLine f w w' (lineText bytes))
  | taken (x : Consumption) (h : TakenLine f w w' x)

section Changes

variable {f : MappedFile} {w : World}

theorem fileChange_write (f : MappedFile) (w : World) : FileChange f w (write w) := by
  unfold write
  split
  · exact .same ⟨rfl, rfl, rfl, rfl, rfl⟩
  next below bytes input hinput =>
    dsimp only
    by_cases hf : target below = f
    · subst hf
      -- `size` and the bytes are those of the string, whatever was in the file before.
      refine .line below bytes (by rw [hinput]; exact List.mem_cons_self) rfl
        ⟨?_, ?_, ?_, ?_, rfl⟩
      all_goals dsimp only
      · rw [Function.update_self]
        rfl
      · rw [Function.update_self]
        have hcopy : strncpy (w.shared (target below)).data (lineArray bytes)
            (strlen maxLine (lineArray bytes)) = _ :=
          strncpy_eq (has_text maxLine (lineArray bytes)) (lineText_noZero bytes)
        rw [hcopy]
        exact has_store _ 0 _
      · rw [Function.update_self]
      · unfold World.unread
        split_ifs
        · rw [Function.update_self]
        · rw [List.append_nil]
    · have hf' : f ≠ target below := Ne.symm hf
      refine .same ⟨?_, ?_, ?_, ?_, rfl⟩
      all_goals dsimp only
      · rw [Function.update_of_ne hf']
      · rw [Function.update_of_ne hf']
      · rw [Function.update_of_ne hf']
      · split_ifs
        · rw [Function.update_of_ne hf']
        · rfl

theorem fileChange_close (f : MappedFile) (w : World) : FileChange f w (close w) := by
  have hset : ∀ (p : ParentPhase) (g : MappedFile), SameFile f w { w with
      parent := p, shared := Function.update w.shared g { w.shared g with done := true } } := by
    intro p g
    refine ⟨?_, ?_, rfl, rfl, rfl⟩
    all_goals
      dsimp only
      by_cases hg : f = g
      · rw [hg, Function.update_self]
      · rw [Function.update_of_ne hg]
  unfold close
  split
  · exact .same (hset _ _)
  · exact .same (hset _ _)
  · exact .same ⟨rfl, rfl, rfl, rfl, rfl⟩

theorem fileChange_consume (f : MappedFile) (w : World) (c : Child) :
    FileChange f w (consume w c) := by
  unfold consume
  dsimp only
  by_cases hf : c.mapped = f
  · subst hf
    by_cases hsize : (w.shared c.mapped).size > 0
    · rw [if_pos hsize]
      refine .taken ⟨c, c.mapped, (w.written c.mapped).length - 1,
          printed (w.child c).buffer (w.shared c.mapped).data (w.shared c.mapped).size⟩
        ⟨hsize, ?_, rfl, rfl, ?_, rfl, (w.child c).buffer, rfl⟩
      · dsimp only
        rw [Function.update_self]
      · unfold World.taken
        rw [List.filter_append, List.filter_cons_of_pos (by simp), List.filter_nil]
        rfl
    · -- The other child was faster: `size = 0` is written over zero, and nothing is printed.
      rw [if_neg hsize]
      refine .same ⟨?_, ?_, rfl, rfl, rfl⟩
      · dsimp only
        rw [Function.update_self]
        exact (Nat.eq_zero_of_not_pos hsize).symm
      · dsimp only
        rw [Function.update_self]
  · refine .same ⟨?_, ?_, rfl, rfl, ?_⟩
    · dsimp only
      rw [Function.update_of_ne (Ne.symm hf)]
    · dsimp only
      rw [Function.update_of_ne (Ne.symm hf)]
    · unfold World.taken
      dsimp only
      split_ifs
      · rw [List.filter_append, List.filter_cons_of_neg (by simpa using hf), List.filter_nil,
          List.append_nil]
      · rfl

/-- **Every step does one of three things** to a file. -/
theorem fileChange_next (f : MappedFile) (w : World) (e : Event) : FileChange f w (w.next e) := by
  cases e with
  | write => exact fileChange_write f w
  | close => exact fileChange_close f w
  | advance c =>
    show FileChange f w (advance w c)
    unfold advance
    dsimp only
    split
    · exact .same ⟨rfl, rfl, rfl, rfl, rfl⟩
    · exact .same ⟨rfl, rfl, rfl, rfl, rfl⟩
    · exact .same ⟨rfl, rfl, rfl, rfl, rfl⟩
    · exact fileChange_consume f w c
    · exact .same ⟨rfl, rfl, rfl, rfl, rfl⟩

/-- A child that goes on to another place keeps the rest. -/
theorem goto_child (w : World) (c : Child) (p : Phase) (c' : Child) :
    (w.goto c p).child c' = if c' = c then { w.child c with phase := p } else w.child c' :=
  Function.update_apply _ _ _ _

/-- The input of the parent only becomes shorter. -/
theorem input_next (w : World) (e : Event) : (w.next e).input ⊆ w.input := by
  cases e with
  | write =>
    show (write w).input ⊆ w.input
    unfold write
    split
    · exact List.Subset.refl _
    · next below bytes input hinput =>
      rw [hinput]
      exact List.subset_cons_self _ _
  | close =>
    show (close w).input ⊆ w.input
    unfold close
    split <;> exact List.Subset.refl _
  | advance c =>
    show (advance w c).input ⊆ w.input
    unfold advance
    dsimp only
    split <;> exact List.Subset.refl _

end Changes

/-! ## The accounts of one file -/

/-- **The accounts of a file**: its lines are taken, written over, or unread. -/
structure Accounts (f : MappedFile) (w : World) : Prop where
  input : ∀ x ∈ w.input, target x.1 = f → lineText x.2 ≠ []
  clean : ∀ l ∈ w.written f, 0 ∉ l ∧ l.length ≤ maxLine
  held : (w.shared f).size > 0 → ∃ ls l, w.written f = ls ++ [l] ∧
    l.length = (w.shared f).size ∧ Has (w.shared f).data 0 l
  all : ((w.taken f).map Consumption.index ++ w.overwritten f ++ w.unread f).Perm
    (List.range (w.written f).length)
  order : ((w.taken f).map Consumption.index ++ w.unread f).Pairwise (· < ·)
  later : ∀ i ∈ w.overwritten f, i + 1 < (w.written f).length
  intact : ∀ x ∈ w.taken f, ∃ l, (w.written f)[x.index]? = some l ∧ x.text = consonants l

theorem World.unread_of_pos {w : World} {f : MappedFile} (h : (w.shared f).size > 0) :
    w.unread f = [(w.written f).length - 1] := if_pos h

theorem World.unread_of_zero {w : World} {f : MappedFile} (h : (w.shared f).size = 0) :
    w.unread f = [] := if_neg (Nat.not_lt_of_le (Nat.le_of_eq h))

theorem SameFile.unread {f : MappedFile} {w w' : World} (h : SameFile f w w') :
    w'.unread f = w.unread f := by
  unfold World.unread
  rw [h.size, h.written]

namespace Accounts

variable {f : MappedFile} {w w' : World} {l : List UInt8} {x : Consumption}

theorem initial {stack : Child → Chars} {input : List (Bool × List UInt8)}
    (hinput : ∀ x ∈ input, target x.1 = f → lineText x.2 ≠ []) :
    Accounts f (initial stack input) := by
  refine ⟨hinput, fun l hl => absurd hl List.not_mem_nil,
    fun hsize => absurd hsize (Nat.lt_irrefl 0), List.Perm.refl _, List.Pairwise.nil,
    fun i hi => absurd hi List.not_mem_nil, fun x hx => absurd hx List.not_mem_nil⟩

/-- A line that was taken or written over has been written. -/
theorem index_lt (h : Accounts f w) {i : ℕ}
    (hi : i ∈ (w.taken f).map Consumption.index ++ w.overwritten f ++ w.unread f) :
    i < (w.written f).length :=
  List.mem_range.mp (h.all.mem_iff.mp hi)

/-- The unread line is the last one. -/
theorem succ_of_unread (h : Accounts f w) {i : ℕ} (hi : i ∈ w.unread f) :
    i + 1 = (w.written f).length := by
  unfold World.unread at hi
  split_ifs at hi with hsize
  · obtain ⟨ls, l, hl, -⟩ := h.held hsize
    rw [List.mem_singleton.mp hi, hl, List.length_append]
    simp
  · exact absurd hi List.not_mem_nil

theorem same (h : Accounts f w) (hs : SameFile f w w') (hinput : w'.input ⊆ w.input) :
    Accounts f w' := by
  refine ⟨fun x hx => h.input x (hinput hx), ?_, ?_, ?_, ?_, ?_, ?_⟩
  · rw [hs.written]
    exact h.clean
  · rw [hs.size, hs.data, hs.written]
    exact h.held
  · rw [hs.taken, hs.overwritten, hs.unread, hs.written]
    exact h.all
  · rw [hs.taken, hs.unread]
    exact h.order
  · rw [hs.overwritten, hs.written]
    exact h.later
  · rw [hs.taken, hs.written]
    exact h.intact

/-- **A new line**: the line that nobody has taken counts as written over from now on. -/
theorem line (h : Accounts f w) (hn : NewLine f w w' l) (hinput : w'.input ⊆ w.input)
    (hne : l ≠ []) (hzero : 0 ∉ l) (hlen : l.length ≤ maxLine) : Accounts f w' := by
  have hpos : (w'.shared f).size > 0 := by
    rw [hn.size]
    exact List.length_pos_of_ne_nil hne
  have hlength : (w'.written f).length = (w.written f).length + 1 := by
    rw [hn.written, List.length_append, List.length_singleton]
  have hunread : w'.unread f = [(w.written f).length] := by
    rw [World.unread_of_pos hpos, hlength, Nat.add_sub_cancel]
  have hold : ∀ x ∈ w.taken f, x.index < (w.written f).length := by
    intro x hx
    refine h.index_lt (List.mem_append_left _ (List.mem_append_left _ ?_))
    exact List.mem_map_of_mem hx
  refine ⟨fun x hx => h.input x (hinput hx), ?_, fun _ => ⟨_, l, hn.written, hn.size.symm, hn.data⟩,
    ?_, ?_, ?_, ?_⟩
  · intro l' hl'
    rw [hn.written] at hl'
    rcases List.mem_append.mp hl' with hmem | hnew
    · exact h.clean l' hmem
    · rw [List.mem_singleton.mp hnew]
      exact ⟨hzero, hlen⟩
  · -- The line before it moves from the unread ones to those written over.
    rw [hn.taken, hn.overwritten, hunread, hlength, List.range_succ, ← List.append_assoc]
    exact h.all.append_right _
  · -- The new line is behind every line that was taken.
    rw [hn.taken, hunread]
    refine List.pairwise_append.mpr
      ⟨(List.pairwise_append.mp h.order).1, List.pairwise_singleton _ _, fun i hi j hj => ?_⟩
    obtain ⟨x, hx, rfl⟩ := List.mem_map.mp hi
    rw [List.mem_singleton.mp hj]
    exact hold x hx
  · rw [hn.overwritten, hlength]
    intro i hi
    rcases List.mem_append.mp hi with hmem | hmem
    · have := h.later i hmem
      omega
    · have := h.succ_of_unread hmem
      omega
  · rw [hn.taken, hn.written]
    intro x hx
    obtain ⟨l', hl', htext⟩ := h.intact x hx
    exact ⟨l', by rw [List.getElem?_append_left (hold x hx), hl'], htext⟩

/-- **A child takes the unread line.** -/
theorem taken (h : Accounts f w) (ht : TakenLine f w w' x) (hinput : w'.input ⊆ w.input) :
    Accounts f w' := by
  obtain ⟨ls, l, hl, hlen, hhas⟩ := h.held ht.pos
  have hunread := World.unread_of_pos ht.pos
  rw [← ht.index] at hunread
  have hunread' := World.unread_of_zero ht.size
  refine ⟨fun x hx => h.input x (hinput hx), ?_, ?_, ?_, ?_, ?_, ?_⟩
  · rw [ht.written]
    exact h.clean
  · rw [ht.size]
    exact fun hpos => absurd hpos (Nat.lt_irrefl 0)
  · -- The number moves from the unread ones behind the taken ones, past those written over.
    have hall := h.all
    rw [hunread] at hall
    rw [ht.taken, ht.overwritten, ht.written, hunread', List.map_append, List.append_nil]
    refine List.Perm.trans ?_ hall
    rw [List.append_assoc, List.append_assoc]
    exact List.Perm.append_left _ List.perm_append_comm
  · have horder := h.order
    rw [hunread] at horder
    rwa [ht.taken, hunread', List.map_append, List.append_nil]
  · rw [ht.overwritten, ht.written]
    exact h.later
  · rw [ht.taken, ht.written]
    intro y hy
    rcases List.mem_append.mp hy with hmem | hnew
    · exact h.intact y hmem
    · rw [List.mem_singleton.mp hnew]
      obtain ⟨buffer, htext⟩ := ht.text
      obtain ⟨hzero, hle⟩ := h.clean l (by rw [hl]; simp)
      refine ⟨l, ?_, ?_⟩
      · rw [ht.index, hl]
        simp
      · rw [htext, ← hlen]
        exact printed_eq hhas hzero hle

/-- **Every step keeps the accounts.** -/
theorem next (h : Accounts f w) (e : Event) : Accounts f (w.next e) := by
  have hinput := input_next w e
  cases fileChange_next f w e with
  | same hs => exact h.same hs hinput
  | line below bytes hmem hf hn =>
    exact h.line hn hinput (h.input _ hmem hf) (lineText_noZero bytes) (length_lineText_le bytes)
  | taken x ht => exact h.taken ht hinput

end Accounts

/-! ## The processes -/

/-- The lines of the input that the parent writes to a file. -/
def linesFor (f : MappedFile) (input : List (Bool × List UInt8)) : List (List UInt8) :=
  (input.filter fun x => target x.1 = f).map fun x => lineText x.2

/-- **How far the processes have got**, from the given input on. -/
structure Story (input : List (Bool × List UInt8)) (w : World) : Prop where
  written : ∀ f, w.written f ++ linesFor f w.input = linesFor f input
  ended : w.parent ≠ .reading → w.input = []
  done : ∀ f, (w.shared f).done = true → w.parent ≠ .reading
  atSize : ∀ c, (w.child c).phase = .atSize → (w.shared c.mapped).done = true
  left : ∀ c, (w.child c).phase = .left →
    (w.shared c.mapped).done = true ∧ (w.shared c.mapped).size = 0
  outFile : ∀ c, (w.child c).outFile = ((w.takenBy c).map Consumption.text).flatten
  mapped : ∀ x ∈ w.consumed, x.file = x.child.mapped

namespace Story

variable {input : List (Bool × List UInt8)} {w : World} {c : Child}

theorem initial (stack : Child → Chars) : Story input (initial stack input) := by
  refine ⟨fun f => List.nil_append _, fun h => absurd rfl h, fun f h => ?_, fun c h => ?_,
    fun c h => ?_, fun c => rfl, fun x hx => absurd hx List.not_mem_nil⟩
  · exact absurd h Bool.false_ne_true
  · cases h
  · cases h

/-- While the parent writes, no child has seen `done`. -/
theorem write (h : Story input w) (hreading : w.parent = .reading) :
    Story input (write w) := by
  have hdone : ∀ f, (w.shared f).done ≠ true := fun f hf => h.done f hf hreading
  unfold MappedSlot.write
  split
  · exact h
  next below bytes rest hinput =>
    have hkept : ∀ f, (Function.update w.shared (target below)
        { w.shared (target below) with
          data := strncpy (w.shared (target below)).data (lineArray bytes)
            (strlen maxLine (lineArray bytes))
          size := strlen maxLine (lineArray bytes) } f).done = (w.shared f).done := by
      intro f
      by_cases hf : f = target below
      · rw [hf, Function.update_self]
      · rw [Function.update_of_ne hf]
    refine ⟨fun f => ?_, fun hne => absurd hreading hne, fun f hf => ?_, fun c hc => ?_,
      fun c hc => ?_, h.outFile, h.mapped⟩
    · have hw := h.written f
      rw [hinput] at hw
      rw [← hw]
      dsimp only
      unfold linesFor
      by_cases hf : f = target below
      · subst hf
        rw [Function.update_self, List.filter_cons_of_pos (by simp), List.map_cons,
          List.append_assoc]
        rfl
      · rw [Function.update_of_ne hf, List.filter_cons_of_neg (by simpa using Ne.symm hf)]
    · exact absurd ((hkept f).symm.trans hf) (hdone f)
    · exact absurd (h.atSize c hc) (hdone _)
    · exact absurd (h.left c hc).1 (hdone _)

theorem close (h : Story input w) (he : Event.close.Enabled w) : Story input (close w) := by
  have hset : ∀ (p : ParentPhase) (g : MappedFile), p ≠ .reading → w.input = [] →
      Story input { w with
        parent := p, shared := Function.update w.shared g { w.shared g with done := true } } := by
    intro p g hp hnil
    have hdone : ∀ f, (w.shared f).done = true →
        (Function.update w.shared g { w.shared g with done := true } f).done = true := by
      intro f hf
      by_cases hg : f = g
      · rw [hg, Function.update_self]
      · rwa [Function.update_of_ne hg]
    have hsize : ∀ f, (Function.update w.shared g { w.shared g with done := true } f).size =
        (w.shared f).size := by
      intro f
      by_cases hg : f = g
      · rw [hg, Function.update_self]
      · rw [Function.update_of_ne hg]
    refine ⟨h.written, fun _ => hnil, fun _ _ => hp, fun c hc => hdone _ (h.atSize c hc),
      fun c hc => ?_, h.outFile, h.mapped⟩
    obtain ⟨h₁, h₂⟩ := h.left c hc
    exact ⟨hdone _ h₁, (hsize _).trans h₂⟩
  unfold MappedSlot.close
  rcases he with ⟨hreading, hnil⟩ | hclosing
  · rw [hreading]
    exact hset .closing .file1 (by decide) hnil
  · rw [hclosing]
    exact hset .waiting .file2 (by decide) (h.ended (by rw [hclosing]; decide))

/-- A child goes on to the next place. -/
theorem goto (h : Story input w) (c : Child) (p : Phase)
    (hatSize : p = .atSize → (w.shared c.mapped).done = true)
    (hleft : p = .left → (w.shared c.mapped).done = true ∧ (w.shared c.mapped).size = 0) :
    Story input (w.goto c p) := by
  have hchild := goto_child w c p
  refine ⟨h.written, h.ended, h.done, fun c' hc' => ?_, fun c' hc' => ?_, fun c' => ?_, h.mapped⟩
  · rw [hchild] at hc'
    split_ifs at hc' with heq
    · rw [heq]
      exact hatSize hc'
    · exact h.atSize c' hc'
  · rw [hchild] at hc'
    split_ifs at hc' with heq
    · rw [heq]
      exact hleft hc'
    · exact h.left c' hc'
  · rw [hchild]
    split_ifs with heq
    · rw [heq]
      exact h.outFile c
    · exact h.outFile c'

/-- A child prints what it takes, and nothing when the size is zero. -/
theorem consume (h : Story input w) (c : Child) : Story input (consume w c) := by
  set d := w.shared c.mapped with hd
  set text := printed (w.child c).buffer d.data d.size with htext
  have hshared : ∀ f, ((MappedSlot.consume w c).shared f).done = (w.shared f).done ∧
      ((w.shared f).size = 0 → ((MappedSlot.consume w c).shared f).size = 0) := by
    intro f
    unfold MappedSlot.consume
    dsimp only
    by_cases hf : f = c.mapped
    · rw [hf, Function.update_self]
      exact ⟨rfl, fun _ => rfl⟩
    · rw [Function.update_of_ne hf]
      exact ⟨rfl, fun hsize => hsize⟩
  have hchild : ∀ c', c' ≠ c → (MappedSlot.consume w c).child c' = w.child c' := by
    intro c' hc'
    exact Function.update_of_ne hc' _ _
  have hself : (MappedSlot.consume w c).child c = _ := Function.update_self _ _ _
  have hconsumed : (MappedSlot.consume w c).consumed = if d.size > 0 then
      w.consumed ++ [⟨c, c.mapped, (w.written c.mapped).length - 1, text⟩]
      else w.consumed := rfl
  refine ⟨h.written, h.ended, fun f hf => h.done f ?_, fun c' hc' => ?_, fun c' hc' => ?_,
    fun c' => ?_, fun x hx => ?_⟩
  · rwa [(hshared f).1] at hf
  · rw [(hshared _).1]
    by_cases heq : c' = c
    · rw [heq, hself] at hc'
      cases hc'
    · rw [hchild c' heq] at hc'
      exact h.atSize c' hc'
  · rw [(hshared _).1]
    by_cases heq : c' = c
    · rw [heq, hself] at hc'
      cases hc'
    · rw [hchild c' heq] at hc'
      obtain ⟨h₁, h₂⟩ := h.left c' hc'
      exact ⟨h₁, (hshared _).2 h₂⟩
  · -- Only the file of the child that prints grows, by what it takes.
    unfold World.takenBy
    rw [hconsumed]
    by_cases heq : c' = c
    · subst heq
      rw [hself]
      show (w.child c').outFile ++ text = _
      rw [h.outFile c']
      split_ifs with hsize
      · rw [List.filter_append, List.filter_cons_of_pos (by simp), List.filter_nil,
          List.map_append, List.flatten_append]
        simp [World.takenBy]
      · rw [htext, Nat.eq_zero_of_not_pos hsize, printed_zero, List.append_nil]
        rfl
    · rw [hchild c' heq, h.outFile c']
      split_ifs
      · rw [List.filter_append, List.filter_cons_of_neg (by simpa using Ne.symm heq),
          List.filter_nil, List.append_nil]
        rfl
      · rfl
  · rw [hconsumed] at hx
    split_ifs at hx
    · rcases List.mem_append.mp hx with hold | hnew
      · exact h.mapped x hold
      · rw [List.mem_singleton.mp hnew]
    · exact h.mapped x hx

theorem advance (h : Story input w) (c : Child) : Story input (advance w c) := by
  unfold MappedSlot.advance
  dsimp only
  cases hphase : (w.child c).phase with
  | atDone =>
    dsimp only
    split_ifs with hdone
    · exact h.goto c _ (fun _ => hdone) fun heq => by cases heq
    · exact h.goto c _ (fun heq => by cases heq) fun heq => by cases heq
  | atSize =>
    dsimp only
    split_ifs with hsize
    · exact h.goto c _ (fun heq => by cases heq) fun heq => by cases heq
    · refine h.goto c _ (fun heq => by cases heq) fun _ => ⟨h.atSize c hphase, ?_⟩
      exact Nat.eq_zero_of_not_pos hsize
  | atTest =>
    dsimp only
    split_ifs
    · exact h.goto c _ (fun heq => by cases heq) fun heq => by cases heq
    · exact h.goto c _ (fun heq => by cases heq) fun heq => by cases heq
  | atLock => exact h.consume c
  | left => exact h

/-- **Every step goes on with the story.** -/
theorem next (h : Story input w) {e : Event} (he : e.Enabled w) : Story input (w.next e) := by
  cases e with
  | write => exact h.write he.1
  | close => exact h.close he
  | advance c => exact h.advance c

theorem of_run {stack : Child → Chars} {es : List Event} {w : World}
    (h : Run Step (MappedSlot.initial stack input) es w) : Story input w := by
  refine h.preserves (fun w e w' hs hstep => ?_) (initial stack)
  obtain ⟨he, rfl⟩ := hstep
  exact hs.next he

end Story

theorem Accounts.of_run {f : MappedFile} {stack : Child → Chars} {es : List Event}
    {input : List (Bool × List UInt8)} {w : World}
    (h : Run Step (MappedSlot.initial stack input) es w)
    (hinput : ∀ x ∈ input, target x.1 = f → lineText x.2 ≠ []) : Accounts f w := by
  refine h.preserves (fun w e w' ha hstep => ?_) (Accounts.initial hinput)
  obtain ⟨-, rfl⟩ := hstep
  exact ha.next e

/-! ## Every line is accounted for -/

/-- A list without its places: every element by its number. -/
theorem map_range_getD {α β : Type*} (g : α → β) (l : List α) (d : α) :
    (List.range l.length).map (fun i => g (l.getD i d)) = l.map g := by
  apply List.ext_getElem (by simp)
  intro i h₁ h₂
  simp only [List.length_map] at h₂
  simp [h₂]

/-- What was printed for the lines, read off their numbers. -/
theorem Accounts.map_text {f : MappedFile} {w : World} (h : Accounts f w) {xs : List Consumption}
    (hxs : xs ⊆ w.taken f) : xs.map Consumption.text =
      (xs.map Consumption.index).map fun i => consonants ((w.written f).getD i []) := by
  rw [List.map_map]
  apply List.map_congr_left
  intro x hx
  obtain ⟨l, hl, htext⟩ := h.intact x (hxs hx)
  rw [htext, Function.comp_apply, List.getD_eq_getElem?_getD, hl, Option.getD_some]

/-- What is taken one after the other from a file is a subsequence of what was written. -/
theorem Accounts.texts_sublist {f : MappedFile} {w : World} (h : Accounts f w)
    {xs : List Consumption} (hxs : xs.Sublist (w.taken f)) :
    (xs.map Consumption.text).Sublist ((w.written f).map consonants) := by
  have hsorted : (xs.map Consumption.index).Pairwise (· < ·) :=
    (List.pairwise_append.mp h.order).1.sublist (hxs.map _)
  have hsubset : xs.map Consumption.index ⊆ List.range (w.written f).length := by
    intro i hi
    refine List.mem_range.mpr (h.index_lt ?_)
    exact List.mem_append_left _ (List.mem_append_left _ ((hxs.map _).subset hi))
  have hindex : (xs.map Consumption.index).Sublist (List.range (w.written f).length) :=
    List.sublist_of_subperm_of_pairwise (List.subperm_of_subset hsorted.nodup hsubset)
      hsorted List.pairwise_lt_range
  rw [h.map_text hxs.subset, ← map_range_getD consonants _ []]
  exact hindex.map _

theorem target_eq_file1 (x : Bool × List UInt8) : target x.1 = .file1 ↔ x.1 = true := by
  obtain ⟨below, bytes⟩ := x
  cases below <;> simp [target]

/-- The first file gets the lines whose draws are below the bound. -/
theorem linesFor_file1 (input : List (Bool × List UInt8)) :
    linesFor .file1 input = (input.filter Prod.fst).map fun x => lineText x.2 := by
  have hfilter : (input.filter fun x => target x.1 = .file1) = input.filter Prod.fst := by
    apply List.filter_congr
    intro x _
    rw [Bool.eq_iff_iff, decide_eq_true_iff]
    exact target_eq_file1 x
  unfold linesFor
  rw [hfilter]

/-- **What becomes of the lines that the parent writes to the first file.** -/
structure ExactAccounts (input : List (Bool × List UInt8)) (w : World) : Prop where
  /-- What was written are the first of the lines that the draws send there. -/
  written : w.written .file1 <+: (input.filter Prod.fst).map Prod.snd
  /-- Both children take from this file only. -/
  file : ∀ x ∈ w.consumed, x.file = .file1
  /-- Every line was taken once, by one child, or written over, or is unread. -/
  all : (w.consumed.map Consumption.index ++ w.overwritten .file1 ++ w.unread .file1).Perm
    (List.range (w.written .file1).length)
  /-- What was written over was written over by a later line. -/
  later : ∀ i ∈ w.overwritten .file1, i + 1 < (w.written .file1).length
  /-- What a child prints for a line is that line, whole, without its vowels. -/
  intact : ∀ x ∈ w.consumed, ∃ l, (w.written .file1)[x.index]? = some l ∧ x.text = consonants l
  outFile : ∀ c, (w.child c).outFile = ((w.takenBy c).map Consumption.text).flatten
  order : ∀ c, ((w.takenBy c).map Consumption.text).Sublist ((w.written .file1).map consonants)
  /-- A child that has left its loop leaves nothing unread behind, now or later. -/
  left : ∀ c, (w.child c).phase = .left → w.parent ≠ .reading ∧ w.unread .file1 = []

/-- **Exact accounting**: after any steps of the parent and the children every line written to
the first file was taken exactly once and whole, or written over, or is still there. -/
theorem lines_are_accounted_exactly {stack : Child → Chars} {input : List (Bool × List UInt8)}
    {es : List Event} {w : World}
    (hinput : ∀ x ∈ input, x.1 = true → x.2 ≠ [] ∧ 0 ∉ x.2 ∧ x.2.length ≤ 999)
    (h : Run Step (initial stack input) es w) : ExactAccounts input w := by
  have htext : ∀ x ∈ input, x.1 = true → lineText x.2 = x.2 := by
    intro x hx hbelow
    obtain ⟨-, hzero, hlen⟩ := hinput x hx hbelow
    exact lineText_eq hzero hlen
  have haccounts : Accounts .file1 w := by
    apply Accounts.of_run h
    intro x hx hfile
    have hbelow := (target_eq_file1 x).mp hfile
    rw [htext x hx hbelow]
    exact (hinput x hx hbelow).1
  have hstory := Story.of_run h
  -- Both children map the first file, so nobody takes a line of the second one.
  have hfile : ∀ x ∈ w.consumed, x.file = .file1 := by
    intro x hx
    rw [hstory.mapped x hx]
    cases x.child <;> rfl
  have htaken : w.taken .file1 = w.consumed :=
    List.filter_eq_self.mpr fun x hx => by simpa using hfile x hx
  have hlines : linesFor .file1 input = (input.filter Prod.fst).map Prod.snd := by
    rw [linesFor_file1]
    apply List.map_congr_left
    intro x hx
    obtain ⟨hmem, hbelow⟩ := List.mem_filter.mp hx
    exact htext x hmem hbelow
  refine ⟨⟨_, (hstory.written .file1).trans hlines⟩, hfile, ?_, haccounts.later, ?_,
    hstory.outFile, fun c => haccounts.texts_sublist ?_, fun c hc => ?_⟩
  · rw [← htaken]
    exact haccounts.all
  · rw [← htaken]
    exact haccounts.intact
  · rw [htaken]
    exact List.filter_sublist
  · obtain ⟨hdone, hsize⟩ := hstory.left c hc
    have hmapped : c.mapped = .file1 := by cases c <;> rfl
    rw [hmapped] at hsize
    exact ⟨hstory.done _ hdone, World.unread_of_zero hsize⟩

/-- Two lines are written, and the second child takes what is there. -/
def twoLines : List (Bool × List UInt8) := [(true, [97, 98, 10]), (true, [99, 10])]

/-- The first line is written over before a child looks. -/
def secondLineTaken : List Event :=
  [.write, .write, .advance .child2, .advance .child2, .advance .child2]

theorem lines_are_accounted_exactly_two_lines :
    let w := secondLineTaken.foldl World.next (initial (fun _ _ => 0) twoLines)
    (w.child .child2).outFile = [99, 10] ∧ w.overwritten .file1 = [0] ∧
      ExactAccounts twoLines w := by
  have hrun : Run.Possible (fun w e => e.Enabled w) World.next (initial (fun _ _ => 0) twoLines)
      secondLineTaken := by decide
  exact ⟨by decide, by decide, lines_are_accounted_exactly (by decide) hrun.run⟩

end MappedSlot
