/-
# What is left when a process fails

A call may fail at any point: a child that cannot be forked or cannot start is missing, and the
parent is killed when it writes to such a child.  The others are not harmed.  A child that comes to
its end has filtered all that was written to its pipe, the parent writes every line unless it is
killed, and whatever fails, the processes that are left come to their end.
-/
import OSLabs.PipeFilterFlow
import OSLabs.PipeFilterImage

namespace PipeFilter
namespace Processes

open Chars TextStream VowelFilter

/-! ## What is to be sent -/

/-- What the parent writes for a child: of each line, the bytes in front of its first zero. -/
def toSend (c : Child) (draws : ℕ → Bool) (input : List UInt8) : List UInt8 :=
  ((routed c draws (chunks (maxLine - 1) input)).map (List.takeWhile fun b => b ≠ 0)).flatten

/-- The first line goes to the child that is drawn for it. -/
theorem toSend_eq (c : Child) (draws : ℕ → Bool) {input : List UInt8} (hne : input ≠ []) :
    toSend c draws input =
      (if target (draws 0) = c then
        (takeLine (maxLine - 1) input).takeWhile fun b => b ≠ 0 else []) ++
      toSend c (laterDraws draws) (input.drop (takeLine (maxLine - 1) input).length) := by
  unfold toSend
  rw [chunks_eq_cons (n := maxLine - 1) (by decide) hne, routed]
  split_ifs
  · rw [List.map_cons, List.flatten_cons]
  · rw [List.nil_append]

variable {n : ℕ}

/-- A child that could be started gets all, and what failed is what was not sent. -/
structure Kept (draws : ℕ → Bool) (input : List UInt8) (w : World n) : Prop where
  bytesZero : ∀ c, 0 ∉ w.bytes c
  stdinZero : ∀ c, 0 ∉ (w.child c).stdin
  file : ∀ c, (w.child c).file ++ consonants ((w.child c).stdin ++ w.bytes c) =
    consonants (w.sent c)
  ended : ∀ c, (w.child c).place = .ended → (w.child c).stdin = [] ∧ w.bytes c = []
  sent : w.place ≠ .killed → w.place ≠ .failed → ∀ c,
    w.sent c ++ toSend c w.draws w.rest = toSend c draws input
  part : ∀ c, w.sent c <+: toSend c draws input
  killed : w.place = .killed → ∃ c, (w.child c).place = .failed ∧ w.sent c ≠ toSend c draws input

/-! ## Calls of the parent -/

/-- How many calls the parent has before it, without the passes of its loop. -/
def ParentPlace.left : ParentPlace → ℕ
  | .pipe .child1 => 12
  | .pipe .child2 => 11
  | .names => 10
  | .fork .child1 => 9
  | .fork .child2 => 8
  | .closeRead .child1 => 7
  | .closeRead .child2 => 6
  | .loop => 5
  | .closeWrite .child1 => 4
  | .closeWrite .child2 => 3
  | .wait .child1 => 2
  | .wait .child2 => 1
  | .ended => 0
  | .failed => 0
  | .killed => 0

/-- A call of the parent that sends nothing. -/
structure Quiet (w w' : World n) : Prop where
  draws : w'.draws = w.draws
  bytes : w'.bytes = w.bytes
  sent : w'.sent = w.sent
  rest : w'.place ≠ .failed → w'.rest = w.rest
  live : w'.place ≠ .killed
  child : ∀ c, (w'.child c).stdin = (w.child c).stdin ∧ (w'.child c).file = (w.child c).file ∧
    ((w'.child c).place = (w.child c).place ∨
      ((w.child c).place = .unborn ∧ (w'.child c).place = .closeWrite))
  shorter : w'.input.length ≤ w.input.length
  left : w'.place.left < w.place.left

section Parent

variable {w : World n} {c : Child}

theorem length_scanWord_le (k : ℕ) (input : List UInt8) :
    (scanWord k input).2.length ≤ input.length := by
  unfold scanWord
  dsimp only
  rw [List.length_drop]
  have hskip := (List.dropWhile_suffix (l := input) isSpace).length_le
  omega

theorem length_readNames_le (input : List UInt8) :
    (readNames input).2.2.length ≤ input.length := by
  have hfirst := length_scanWord_le 255 input
  have hsecond := length_scanWord_le 255 (scanWord 255 input).2
  show (scanWord 255 (scanWord 255 input).2).2.length ≤ _
  omega

/-- A call that changes only the place and the descriptors of the parent. -/
theorem quiet_of_place {place p : ParentPlace} (hplace : w.place = place) {w' : World n}
    (hp : w'.place = p)
    (hsame : w'.draws = w.draws ∧ w'.bytes = w.bytes ∧ w'.sent = w.sent ∧ w'.input = w.input ∧
      w'.child = w.child)
    (hnamed : p.named = place.named) (hlive : p ≠ .killed) (hleft : p.left < place.left) :
    Quiet w w' := by
  obtain ⟨hdraws, hbytes, hsent, hinput, hchild⟩ := hsame
  refine ⟨hdraws, hbytes, hsent, fun _ => rest_congr hplace hp hnamed hinput, ?_, ?_, ?_, ?_⟩
  · rw [hp]
    exact hlive
  · intro c
    rw [hchild]
    exact ⟨rfl, rfl, Or.inl rfl⟩
  · rw [hinput]
  · rw [hp, hplace]
    exact hleft

variable [NeZero n]

omit [NeZero n] in
/-- What the parent writes of a line. -/
theorem text_readLine (w : World n) :
    text maxLine w.readLine.line =
      (takeLine (maxLine - 1) w.input).takeWhile fun b => b ≠ 0 :=
  text_store w.line ((length_takeLine_le _ _).trans (Nat.sub_le maxLine 1))

omit [NeZero n] in
/-- `pipe` sends nothing, whether it fails or not. -/
theorem quiet_pipe (hplace : w.place = .pipe c) : Quiet w (parentNext w) := by
  unfold parentNext
  rw [hplace]
  dsimp only
  cases w.table.pipe c with
  | none =>
    refine ⟨rfl, rfl, rfl, fun hne => absurd rfl hne, ParentPlace.noConfusion,
      fun _ => ⟨rfl, rfl, Or.inl rfl⟩, le_rfl, ?_⟩
    rw [hplace]
    cases c <;> exact Nat.succ_pos _
  | some made =>
    obtain ⟨fds, table⟩ := made
    refine quiet_of_place hplace rfl ⟨rfl, rfl, rfl, rfl, rfl⟩ ?_ ?_ ?_
    · cases c <;> rfl
    · cases c <;> exact ParentPlace.noConfusion
    · cases c <;> exact Nat.lt_succ_self _

omit [NeZero n] in
/-- The names are read. -/
theorem quiet_names (hplace : w.place = .names) : Quiet w (parentNext w) := by
  unfold parentNext
  rw [hplace]
  refine ⟨rfl, rfl, rfl, ?_, ParentPlace.noConfusion, fun _ => ⟨rfl, rfl, Or.inl rfl⟩,
    length_readNames_le w.input, ?_⟩
  · intro _
    unfold World.rest
    rw [hplace]
    rfl
  · rw [hplace]
    exact Nat.lt_succ_self _

/-- `fork` makes a child that has read nothing. -/
theorem quiet_fork (h : Wiring w) (hplace : w.place = .fork c) : Quiet w (parentNext w) := by
  have hunborn : (w.child c).place = .unborn := by
    apply h.before
    rw [hplace]
    cases c <;> rfl
  have hchild : ∀ d, ((w.setChild c { w.child c with
      place := .closeWrite, table := w.table }).child d).stdin = (w.child d).stdin ∧
      ((w.setChild c { w.child c with
        place := .closeWrite, table := w.table }).child d).file = (w.child d).file ∧
      (((w.setChild c { w.child c with
        place := .closeWrite, table := w.table }).child d).place = (w.child d).place ∨
        ((w.child d).place = .unborn ∧ ((w.setChild c { w.child c with
          place := .closeWrite, table := w.table }).child d).place = .closeWrite)) := by
    intro d
    unfold World.setChild
    dsimp only
    by_cases hd : d = c
    · rw [hd, Function.update_self]
      exact ⟨rfl, rfl, Or.inr ⟨hunborn, rfl⟩⟩
    · rw [Function.update_of_ne hd]
      exact ⟨rfl, rfl, Or.inl rfl⟩
  unfold parentNext
  rw [hplace]
  refine ⟨rfl, rfl, rfl, fun _ => rest_congr hplace rfl ?_ rfl, ?_, hchild, le_rfl, ?_⟩
  · cases c <;> rfl
  · cases c <;> exact ParentPlace.noConfusion
  · rw [hplace]
    cases c <;> exact Nat.lt_succ_self _

omit [NeZero n] in
/-- `close` and `wait` send nothing. -/
theorem quiet_close (hplace : w.place = .closeRead c ∨ w.place = .closeWrite c ∨ w.place = .wait c) :
    Quiet w (parentNext w) := by
  unfold parentNext
  rcases hplace with hplace | hplace | hplace
  · rw [hplace]
    refine quiet_of_place hplace rfl ⟨rfl, rfl, rfl, rfl, rfl⟩ ?_ ?_ ?_
    · cases c <;> rfl
    · cases c <;> exact ParentPlace.noConfusion
    · cases c <;> exact Nat.lt_succ_self _
  · rw [hplace]
    refine quiet_of_place hplace rfl ⟨rfl, rfl, rfl, rfl, rfl⟩ ?_ ?_ ?_
    · cases c <;> rfl
    · cases c <;> exact ParentPlace.noConfusion
    · cases c <;> exact Nat.lt_succ_self _
  · rw [hplace]
    cases c with
    | child1 =>
      exact quiet_of_place hplace rfl ⟨rfl, rfl, rfl, rfl, rfl⟩ rfl ParentPlace.noConfusion
        (Nat.lt_succ_self _)
    | child2 =>
      exact quiet_of_place hplace rfl ⟨rfl, rfl, rfl, rfl, rfl⟩ rfl ParentPlace.noConfusion
        (Nat.lt_succ_self _)

/-- **The calls of the parent**: it sends nothing, or a line, or it is killed by one. -/
theorem parentNext_cases (h : Wiring w) (hover : w.place.over = false) :
    Quiet w (parentNext w) ∨
      (w.place = .loop ∧ w.input ≠ [] ∧
        ((text maxLine w.readLine.line = [] ∨ w.Held (target (w.draws 0)) .read) ∧
            parentNext w =
              w.readLine.append (target (w.draws 0)) (text maxLine w.readLine.line) ∨
          ¬ w.Held (target (w.draws 0)) .read ∧ text maxLine w.readLine.line ≠ [] ∧
            parentNext w = w.readLine.exit .killed)) := by
  cases hplace : w.place with
  | pipe c => exact Or.inl (quiet_pipe hplace)
  | names => exact Or.inl (quiet_names hplace)
  | fork c => exact Or.inl (quiet_fork h hplace)
  | closeRead c => exact Or.inl (quiet_close (Or.inl hplace))
  | loop =>
    have hnext : parentNext w = sendLine w := by
      unfold parentNext
      rw [hplace]
    rw [hnext]
    by_cases hnil : w.input = []
    · left
      rw [sendLine_of_nil hnil]
      exact quiet_of_place hplace rfl ⟨rfl, rfl, rfl, rfl, rfl⟩ rfl ParentPlace.noConfusion
        (Nat.lt_succ_self _)
    · exact Or.inr ⟨rfl, hnil, sendLine_cases h hplace hnil⟩
  | closeWrite c => exact Or.inl (quiet_close (Or.inr (Or.inl hplace)))
  | wait c => exact Or.inl (quiet_close (Or.inr (Or.inr hplace)))
  | _ =>
    rw [hplace] at hover
    cases hover

end Parent

/-! ## Nothing is lost but what a failed child should have got -/

namespace Kept

variable [NeZero n] {draws : ℕ → Bool} {input : List UInt8} {w : World n} {c : Child}

omit [NeZero n] in
theorem initial (stack : Stack) (pipes : Child → PipeEnd → Fin n) (table : Table n)
    (draws : ℕ → Bool) (stdin : List UInt8) :
    Kept draws (readNames stdin).2.2 (initial stack pipes table draws stdin) := by
  refine ⟨fun c => List.not_mem_nil, fun c => List.not_mem_nil, fun c => rfl, ?_, ?_, ?_, ?_⟩
  · intro c hc
    cases hc
  · intro _ _ c
    rfl
  · intro c
    exact List.nil_prefix
  · intro hc
    cases hc

omit [NeZero n] in
/-- A call of the parent that sends nothing. -/
theorem quiet (h : Kept draws input w) {w' : World n} (hquiet : Quiet w w')
    (hfailed : w.place ≠ .failed) (hlive : w.place ≠ .killed) : Kept draws input w' := by
  refine ⟨?_, ?_, ?_, ?_, ?_, ?_, fun hkilled => absurd hkilled hquiet.live⟩
  · rw [hquiet.bytes]
    exact h.bytesZero
  · intro c
    rw [(hquiet.child c).1]
    exact h.stdinZero c
  · intro c
    rw [(hquiet.child c).1, (hquiet.child c).2.1, hquiet.bytes, hquiet.sent]
    exact h.file c
  · intro c hc
    rw [(hquiet.child c).1, hquiet.bytes]
    rcases (hquiet.child c).2.2 with hsame | ⟨-, hnew⟩
    · exact h.ended c (hsame.symm.trans hc)
    · rw [hnew] at hc
      cases hc
  · intro _ hfailed' c
    rw [hquiet.sent, hquiet.draws, hquiet.rest hfailed']
    exact h.sent hlive hfailed c
  · rw [hquiet.sent]
    exact h.part

omit [NeZero n] in
/-- The line that is sent, or that kills the parent, is the next one of its child. -/
theorem next_line (h : Kept draws input w) (hplace : w.place = .loop) (hne : w.input ≠ [])
    (c : Child) :
    w.sent c ++ (if target (w.draws 0) = c then text maxLine w.readLine.line else []) ++
      toSend c w.readLine.draws w.readLine.input = toSend c draws input := by
  have hsent := h.sent (by rw [hplace]; exact ParentPlace.noConfusion)
    (by rw [hplace]; exact ParentPlace.noConfusion) c
  rw [rest_eq (by rw [hplace]; rfl), toSend_eq c w.draws hne, ← text_readLine,
    ← List.append_assoc] at hsent
  exact hsent

/-- **A line is sent**, and its child is there to read it. -/
theorem sendLine (h : Kept draws input w) (horderly : Orderly w) (hplace : w.place = .loop)
    (hne : w.input ≠ []) :
    Kept draws input (w.readLine.append (target (w.draws 0)) (text maxLine w.readLine.line)) := by
  set c := target (w.draws 0) with hc
  set line := text maxLine w.readLine.line with hline
  have hzero : 0 ∉ line := text_noZero maxLine w.readLine.line
  have hself : ∀ f : Child → List UInt8,
      Function.update f c (f c ++ line) c = f c ++ line := fun f => Function.update_self _ _ _
  have hother : ∀ (f : Child → List UInt8) {d : Child}, d ≠ c →
      Function.update f c (f c ++ line) d = f d := fun f d hd => Function.update_of_ne hd _ _
  have hsent : ∀ d, Function.update w.sent c (w.sent c ++ line) d ++
      toSend d w.readLine.draws w.readLine.input = toSend d draws input := by
    intro d
    have hnext := h.next_line hplace hne d
    by_cases hd : d = c
    · subst hd
      rw [if_pos rfl] at hnext
      rw [hself]
      exact hnext
    · rw [if_neg (fun heq => hd heq.symm), List.append_nil] at hnext
      rw [hother _ hd]
      exact hnext
  refine ⟨?_, h.stdinZero, ?_, ?_, ?_, ?_, ?_⟩
  · intro d
    show 0 ∉ Function.update w.bytes c (w.bytes c ++ line) d
    by_cases hd : d = c
    · rw [hd, hself]
      intro hmem
      exact (List.mem_append.mp hmem).elim (h.bytesZero c) hzero
    · rw [hother _ hd]
      exact h.bytesZero d
  · intro d
    show (w.child d).file ++ consonants ((w.child d).stdin ++
      Function.update w.bytes c (w.bytes c ++ line) d) =
        consonants (Function.update w.sent c (w.sent c ++ line) d)
    by_cases hd : d = c
    · subst hd
      rw [hself, hself, ← List.append_assoc, consonants_append, ← List.append_assoc, h.file,
        ← consonants_append]
    · rw [hother _ hd, hother _ hd]
      exact h.file d
  · -- Nobody has ended as long as the parent can still write.
    intro d hd
    have hholds := horderly.ended d hd
    rw [hplace] at hholds
    cases hholds
  · intro _ _ d
    have hrest : (w.readLine.append c line).rest = w.readLine.input :=
      rest_eq (show w.place.named = true by rw [hplace]; rfl)
    rw [hrest]
    exact hsent d
  · intro d
    exact ⟨_, hsent d⟩
  · intro hkilled
    have hloop : w.place = .killed := hkilled
    rw [hplace] at hloop
    cases hloop

/-- **The parent is killed** by a line for a child that has failed. -/
theorem killedBy (h : Kept draws input w) (horderly : Orderly w) (hplace : w.place = .loop)
    (hne : w.input ≠ []) (hheld : ¬ w.Held (target (w.draws 0)) .read)
    (hline : text maxLine w.readLine.line ≠ []) :
    Kept draws input (w.readLine.exit .killed) := by
  refine ⟨h.bytesZero, h.stdinZero, h.file, h.ended, fun hk => absurd rfl hk, h.part, ?_⟩
  intro _
  refine ⟨target (w.draws 0), ?_, ?_⟩
  · by_contra hfailed
    apply hheld
    have hafter : w.place.after (target (w.draws 0)) = true := by
      rw [hplace]
      rfl
    apply horderly.wiring.held_read (horderly.wiring.after _ hafter)
    cases hchild : (w.child (target (w.draws 0))).place with
    | ended =>
      have hholds := horderly.ended _ hchild
      rw [hplace] at hholds
      cases hholds
    | failed => exact absurd hchild hfailed
    | _ => rfl
  · intro heq
    have hnext := h.next_line hplace hne (target (w.draws 0))
    have hlength := congrArg List.length hnext
    have hsame := congrArg List.length heq
    have hpos := List.length_pos_of_ne_nil hline
    rw [if_pos rfl, List.length_append, List.length_append] at hlength
    have hsame' : (w.sent (target (w.draws 0))).length =
        (toSend (target (w.draws 0)) draws input).length := hsame
    omega

omit [NeZero n] in
/-- **A child goes on**, with what is left in its pipe. -/
theorem childTo (h : Kept draws input w) {q : ChildState n} {bytes : List UInt8}
    (hbytes : 0 ∉ bytes) (hstdin : 0 ∉ q.stdin)
    (hfile : q.file ++ consonants (q.stdin ++ bytes) = consonants (w.sent c))
    (hended : q.place = .ended → q.stdin = [] ∧ bytes = [])
    (hfailed : (w.child c).place ≠ .failed) :
    Kept draws input { w.setChild c q with bytes := Function.update w.bytes c bytes } := by
  have hchild : (w.setChild c q).child = Function.update w.child c q := rfl
  refine ⟨?_, ?_, ?_, ?_, h.sent, h.part, ?_⟩
  · intro d
    dsimp only
    by_cases hd : d = c
    · rw [hd, Function.update_self]
      exact hbytes
    · rw [Function.update_of_ne hd]
      exact h.bytesZero d
  · intro d
    dsimp only
    rw [hchild]
    by_cases hd : d = c
    · rw [hd, Function.update_self]
      exact hstdin
    · rw [Function.update_of_ne hd]
      exact h.stdinZero d
  · intro d
    dsimp only
    rw [hchild]
    by_cases hd : d = c
    · subst hd
      rw [Function.update_self, Function.update_self]
      exact hfile
    · rw [Function.update_of_ne hd, Function.update_of_ne hd]
      exact h.file d
  · intro d
    dsimp only
    rw [hchild]
    by_cases hd : d = c
    · rw [hd, Function.update_self, Function.update_self]
      exact hended
    · rw [Function.update_of_ne hd, Function.update_of_ne hd]
      exact h.ended d
  · -- the child the signal is about has failed, so it is not this one
    intro hkilled
    obtain ⟨d, hd, hmissing⟩ := h.killed hkilled
    refine ⟨d, ?_, hmissing⟩
    have hne : d ≠ c := by
      rintro rfl
      exact hfailed hd
    dsimp only
    rw [hchild, Function.update_of_ne hne]
    exact hd

omit [NeZero n] in
/-- A child goes on, and its pipe stays as it is. -/
theorem setChild (h : Kept draws input w) {q : ChildState n} (hstdin : 0 ∉ q.stdin)
    (hfile : q.file ++ consonants (q.stdin ++ w.bytes c) = consonants (w.sent c))
    (hended : q.place = .ended → q.stdin = [] ∧ w.bytes c = [])
    (hfailed : (w.child c).place ≠ .failed) : Kept draws input (w.setChild c q) := by
  have hto := h.childTo (c := c) (h.bytesZero c) hstdin hfile hended hfailed
  rw [Function.update_eq_self] at hto
  exact hto

omit [NeZero n] in
/-- **One pass of the loop of a child**: its line goes to the file without the vowels. -/
theorem filterLine (h : Kept draws input w) (hplace : (w.child c).place = .running) :
    Kept draws input (w.setChild c (w.child c).filtered) := by
  have hstring := isString_takeLine (w.child c).line (maxLine - 1) (h.stdinZero c)
  have hle := (length_takeLine_le (maxLine - 1) (w.child c).stdin).trans (Nat.sub_le maxLine 1)
  have htext := (isString_removeVowels hstring hle).text_eq ((length_consonants_le _).trans hle)
  have hsplit := takeLine_append_drop (maxLine - 1) (w.child c).stdin
  have hne : ∀ p : ChildPlace, p ≠ .running → (w.child c).place ≠ p := by
    intro p hp heq
    exact hp (heq.symm.trans hplace)
  apply h.setChild
  · exact fun hmem => h.stdinZero c (List.mem_of_mem_drop hmem)
  · have hfile := h.file c
    rw [← hsplit, List.append_assoc, consonants_append, ← List.append_assoc] at hfile
    show _ ++ text maxLine (removeVowels maxLine _) ++ _ = _
    rw [htext]
    exact hfile
  · exact fun hended => absurd hended (hne _ ChildPlace.noConfusion)
  · exact hne _ ChildPlace.noConfusion

/-- **Every step**, also one that fails. -/
theorem next (h : Kept draws input w) (horderly : Orderly w) {capacity : ℕ} {e : Event}
    (he : e.Enabled capacity w) : Kept draws input (w.next e) := by
  have hrunning : ∀ {c}, (w.child c).place = .running → (w.child c).place ≠ .failed := by
    intro c hc
    rw [hc]
    exact ChildPlace.noConfusion
  cases e with
  | parent =>
    have hover := he.1
    have hnot : w.place ≠ .failed ∧ w.place ≠ .killed := by
      constructor
      all_goals
        intro hplace
        rw [hplace] at hover
        cases hover
    rcases parentNext_cases horderly.wiring hover with hquiet | ⟨hplace, hne, hline⟩
    · exact h.quiet hquiet hnot.1 hnot.2
    · rcases hline with ⟨-, hnext⟩ | ⟨hheld, hline, hnext⟩
      · rw [show w.next .parent = _ from hnext]
        exact h.sendLine horderly hplace hne
      · rw [show w.next .parent = _ from hnext]
        exact h.killedBy horderly hplace hne hheld hline
  | forkFails =>
    exact ⟨h.bytesZero, h.stdinZero, h.file, h.ended, fun _ hf => absurd rfl hf, h.part,
      fun hkilled => by cases hkilled⟩
  | child c =>
    obtain ⟨q, hnext, ⟨hq, -⟩, hstdin, -, hfile⟩ := childNext_eq w c he
    rw [show w.next (.child c) = _ from hnext]
    apply h.setChild
    · rw [hstdin]
      exact h.stdinZero c
    · rw [hfile, hstdin]
      exact h.file c
    · exact fun hended => absurd hended hq
    · intro hfailed
      have hstarting : (w.child c).place.starting = true := he
      rw [hfailed] at hstarting
      cases hstarting
  | startFails c =>
    refine h.setChild (h.stdinZero c) (h.file c) ?_ ?_
    · intro hended
      cases hended
    · rcases he with hc | hc
      all_goals
        rw [hc]
        exact ChildPlace.noConfusion
  | fill c k =>
    rw [show w.next (.fill c k) = _ from fill_eq horderly.wiring he.1 k]
    apply h.childTo
    · exact fun hmem => h.bytesZero c (List.mem_of_mem_drop hmem)
    · intro hmem
      rcases List.mem_append.mp hmem with hmem | hmem
      · exact h.stdinZero c hmem
      · exact h.bytesZero c (List.mem_of_mem_take hmem)
    · -- The bytes move from the front of the pipe to the end of what was read.
      show (w.child c).file ++
        consonants ((w.child c).stdin ++ (w.bytes c).take k ++ (w.bytes c).drop k) = _
      rw [List.append_assoc, List.take_append_drop]
      exact h.file c
    · intro hended
      have hsame : (w.child c).place = .ended := hended
      rw [he.1] at hsame
      cases hsame
    · exact hrunning he.1
  | filterLine c =>
    rw [show w.next (.filterLine c) = _ from filterLine_eq he.2.1]
    exact h.filterLine he.1
  | finish c =>
    obtain ⟨hplace, hnil, d, hsource, hdry⟩ := he
    rw [horderly.wiring.source_eq hplace] at hsource
    obtain rfl := Option.mem_some.mp hsource
    exact h.setChild (h.stdinZero c) (h.file c) (fun _ => ⟨hnil, hdry.1⟩) (hrunning hplace)

end Kept

/-! ## Every run ends -/

def childWeight (w : World n) (c : Child) : ℕ :=
  childWork (w.bytes c) (w.child c).stdin (w.child c).place.left

/-- What is still to be done by the three processes, with all their calls. -/
def weight (w : World n) : ℕ := work w.input w.place.left (childWeight w)

section Ends

variable {w w' : World n} {c : Child}

/-- A step of a child. -/
theorem weight_childTo {q : ChildState n} {bytes : List UInt8}
    (hlt : childWork bytes q.stdin q.place.left < childWeight w c) :
    weight { w.setChild c q with bytes := Function.update w.bytes c bytes } < weight w := by
  apply work_lt (c := c)
  · intro d hd
    unfold childWeight
    dsimp only [World.setChild]
    rw [Function.update_of_ne hd, Function.update_of_ne hd]
  · have hself : childWeight { w.setChild c q with bytes := Function.update w.bytes c bytes } c =
        childWork bytes q.stdin q.place.left := by
      unfold childWeight
      dsimp only [World.setChild]
      rw [Function.update_self, Function.update_self]
    rw [hself]
    exact hlt

theorem weight_setChild {q : ChildState n}
    (hlt : childWork (w.bytes c) q.stdin q.place.left < childWeight w c) :
    weight (w.setChild c q) < weight w := by
  have hto := weight_childTo hlt
  rw [Function.update_eq_self] at hto
  exact hto

theorem Quiet.childWeight_le (h : Quiet w w') (c : Child) : childWeight w' c ≤ childWeight w c := by
  obtain ⟨hstdin, -, hplace⟩ := h.child c
  unfold childWeight
  rw [hstdin, h.bytes]
  rcases hplace with hsame | ⟨hold, hnew⟩
  · rw [hsame]
  · rw [hold, hnew]
    exact le_rfl

theorem Quiet.weight_lt (h : Quiet w w') : weight w' < weight w := by
  have hchild1 := h.childWeight_le .child1
  have hchild2 := h.childWeight_le .child2
  have hshorter := h.shorter
  have hleft := h.left
  unfold weight work
  omega

/-- What is left of the input after a line. -/
theorem length_readLine (w : World n) (hne : w.input ≠ []) :
    w.readLine.input.length < w.input.length ∧
      w.readLine.input.length + (text maxLine w.readLine.line).length ≤ w.input.length := by
  have hpos := List.length_pos_of_ne_nil
    (takeLine_ne_nil (n := maxLine - 1) (by decide) hne)
  have hlength := congrArg List.length (takeLine_append_drop (maxLine - 1) w.input)
  have hcut := (List.takeWhile_prefix (l := takeLine (maxLine - 1) w.input)
    fun b : UInt8 => b ≠ 0).length_le
  rw [List.length_append] at hlength
  rw [text_readLine]
  have hinput : w.readLine.input = w.input.drop (takeLine (maxLine - 1) w.input).length := rfl
  rw [hinput]
  omega

theorem weight_sendLine (hne : w.input ≠ []) (c : Child) :
    weight (w.readLine.append c (text maxLine w.readLine.line)) < weight w := by
  obtain ⟨hlt, hle⟩ := length_readLine w hne
  refine work_sent (c := c) ?_ ?_ hlt hle
  · intro d hd
    unfold childWeight World.append
    dsimp only
    rw [Function.update_of_ne hd]
    rfl
  · unfold childWeight childWork World.append
    dsimp only
    rw [Function.update_self, List.length_append]
    show 2 * ((w.bytes c).length + (text maxLine w.readLine.line).length) +
      (w.child c).stdin.length + (w.child c).place.left = _
    omega

variable [NeZero n]

/-- **Every step leaves less to be done.** -/
theorem weight_next (h : Orderly w) {capacity : ℕ} {e : Event} (he : e.Enabled capacity w) :
    weight (w.next e) < weight w := by
  have hrunning : ∀ {c}, (w.child c).place = .running → (w.child c).place.left = 1 := by
    intro c hc
    rw [hc]
    rfl
  cases e with
  | parent =>
    rcases parentNext_cases h.wiring he.1 with hquiet | ⟨hplace, hne, hline⟩
    · exact hquiet.weight_lt
    · rcases hline with ⟨-, hnext⟩ | ⟨-, -, hnext⟩
      · rw [show w.next .parent = _ from hnext]
        -- sent: a byte counts three times in the input and twice in a pipe
        exact weight_sendLine hne _
      · rw [show w.next .parent = _ from hnext]
        -- lost: nobody reads, and the parent is killed
        have hlt := (length_readLine w hne).1
        show 3 * w.readLine.input.length + 0 + _ < 3 * w.input.length + w.place.left + _
        exact Nat.add_lt_add_of_lt_of_le (by omega) le_rfl
  | forkFails =>
    have hpos : 0 < w.place.left := by
      have hforking : w.place.forking = true := he
      cases hplace : w.place with
      | fork c => cases c <;> exact Nat.succ_pos _
      | _ =>
        rw [hplace] at hforking
        cases hforking
    show 3 * w.input.length + 0 + _ < 3 * w.input.length + w.place.left + _
    exact Nat.add_lt_add_of_lt_of_le (by omega) le_rfl
  | child c =>
    obtain ⟨q, hnext, ⟨-, hlt⟩, hstdin, -⟩ := childNext_eq w c he
    rw [show w.next (.child c) = _ from hnext]
    apply weight_setChild
    rw [hstdin]
    unfold childWeight childWork
    omega
  | startFails c =>
    have hpos : 0 < (w.child c).place.left := by
      rcases he with hc | hc
      all_goals
        rw [hc]
        exact Nat.succ_pos _
    refine weight_setChild ?_
    show childWork (w.bytes c) (w.child c).stdin 0 < _
    unfold childWeight childWork
    omega
  | fill c k =>
    obtain ⟨hplace, hpos, d, hsource, hle⟩ := he
    rw [h.wiring.source_eq hplace] at hsource
    obtain rfl := Option.mem_some.mp hsource
    rw [show w.next (.fill c k) = _ from fill_eq h.wiring hplace k]
    apply weight_childTo
    show childWork ((w.bytes c).drop k) ((w.child c).stdin ++ (w.bytes c).take k)
      (w.child c).place.left < _
    unfold childWeight childWork
    rw [List.length_drop, List.length_append, List.length_take_of_le hle]
    omega
  | filterLine c =>
    obtain ⟨hplace, hne, -⟩ := he
    rw [show w.next (.filterLine c) = _ from filterLine_eq hne]
    have hshort := length_drop_takeLine (n := maxLine - 1) (by decide) hne
    apply weight_setChild
    show childWork (w.bytes c)
      ((w.child c).stdin.drop (takeLine (maxLine - 1) (w.child c).stdin).length)
      (w.child c).place.left < _
    unfold childWeight childWork
    omega
  | finish c =>
    have hleft := hrunning he.1
    refine weight_setChild ?_
    show childWork (w.bytes c) (w.child c).stdin 0 < _
    unfold childWeight childWork
    omega

end Ends

/-! ## Nobody waits in vain -/

section Progress

variable [NeZero n] {w : World n} {c : Child} {capacity : ℕ} {e : PipeEnd}

theorem ChildPlace.holds_eq_false {place : ChildPlace} (hnot : place.starting = false)
    (c d : Child) (e : PipeEnd) : place.holds c d e = false := by
  cases place <;> first | rfl | cases hnot

theorem ChildPlace.input_eq_some {place : ChildPlace} {d : Child} (hnot : place.starting = false)
    (hinput : place.input d = some c) : d = c ∧ place = .running := by
  cases place with
  | running => exact ⟨Option.some.inj hinput, rfl⟩
  | unborn => cases hinput
  | ended => cases hinput
  | failed => cases hinput
  | _ => cases hnot

/-- A child that is not starting holds no end of a pipe but the one that it reads from. -/
theorem Wiring.eq_of_holds (h : Wiring w) {d : Child}
    (hnot : (w.child d).place.starting = false) (hholds : (w.child d).table.Holds (.pipe c e)) :
    d = c ∧ e = .read ∧ (w.child d).place = .running := by
  rcases (holds_iff (h.child d)).mp hholds with hheld | ⟨hinput, hread⟩
  · rw [ChildPlace.holds_eq_false hnot] at hheld
    cases hheld
  · obtain ⟨hd, hrunning⟩ := ChildPlace.input_eq_some hnot hinput
    exact ⟨hd, hread, hrunning⟩

/-- A running child can go on when the parent has closed its pipe and no child is starting. -/
theorem Wiring.running_enabled (h : Wiring w)
    (hstarted : ∀ d, (w.child d).place.starting = false)
    (hplace : (w.child c).place = .running)
    (hready : w.bytes c ≠ [] ∨ w.place.holds c .write = false) :
    ∃ e : Event, e.Enabled capacity w := by
  have hsource := h.source_eq hplace
  by_cases hbytes : w.bytes c = []
  · have hdry : w.Dry c := by
      refine ⟨hbytes, ?_⟩
      rintro (hparent | ⟨d, hd⟩)
      · have hnone := hready.resolve_left fun hne => hne hbytes
        rcases (holds_iff h.parent).mp hparent with hheld | ⟨hinput, -⟩
        · rw [hnone] at hheld
          cases hheld
        · cases hinput
      · cases (h.eq_of_holds (hstarted d) hd).2.1
    have hend : w.AtEnd c := ⟨c, hsource, hdry⟩
    by_cases hnil : (w.child c).stdin = []
    · exact ⟨.finish c, hplace, hnil, hend⟩
    · exact ⟨.filterLine c, hplace, hnil, Or.inr (Or.inr hend)⟩
  · have hpos := List.length_pos_of_ne_nil hbytes
    exact ⟨.fill c 1, hplace, Nat.one_pos, c, hsource, hpos⟩

/-- A child that is there, not gone and not starting is in its loop. -/
theorem ChildPlace.running_of {place : ChildPlace} (hborn : place ≠ .unborn)
    (hover : place.over = false) (hstarted : place.starting = false) : place = .running := by
  cases place with
  | running => rfl
  | unborn => exact absurd rfl hborn
  | ended => cases hover
  | failed => cases hover
  | _ => cases hstarted

omit [NeZero n] in
/-- A line is shorter than its array. -/
theorem length_line_le {line : Chars × List UInt8} (hline : line ∈ fgets maxLine w.line w.input) :
    (text maxLine line.1).length ≤ maxLine - 1 := by
  have hne : w.input ≠ [] := by
    intro hnil
    rw [hnil] at hline
    cases hline
  rw [fgets_eq w.line hne] at hline
  obtain rfl := Option.mem_some.mp hline
  have hcut := (List.takeWhile_prefix (l := takeLine (maxLine - 1) w.input)
    fun b : UInt8 => b ≠ 0).length_le
  have htext := text_readLine w
  unfold World.readLine at htext
  dsimp only at htext
  rw [htext]
  exact hcut.trans (length_takeLine_le _ _)

omit [NeZero n] in
/-- A parent that has to wait has no room for a line, or a child to wait for. -/
theorem waits_of_not_ready (hlive : w.place.over = false) (hready : ¬ w.Ready capacity) :
    (w.place = .loop ∧ ∃ line ∈ fgets maxLine w.line w.input,
        ¬ w.Writable capacity (w.pipes (target (w.draws 0)) .write) (text maxLine line.1)) ∨
      ∃ c, w.place.awaited = some c ∧ (w.child c).place.over = false := by
  by_contra hnot
  rw [not_or] at hnot
  refine hready ⟨hlive, fun hloop line hline => ?_, fun c hc => ?_⟩
  · by_contra hfull
    exact hnot.1 ⟨hloop, line, hline, hfull⟩
  · by_contra hthere
    exact hnot.2 ⟨c, hc, by simpa using hthere⟩

/-- A parent waits for room in a pipe: there is something in the pipe, and its child can read it. -/
theorem Wiring.blocked_enabled (h : Wiring w) (hcapacity : maxLine - 1 ≤ capacity)
    (hstarted : ∀ d, (w.child d).place.starting = false) (hplace : w.place = .loop)
    {line : Chars × List UInt8} (hline : line ∈ fgets maxLine w.line w.input)
    (hfull : ¬ w.Writable capacity (w.pipes (target (w.draws 0)) .write) (text maxLine line.1)) :
    ∃ e : Event, e.Enabled capacity w := by
  have hsink := h.sink_eq hplace (target (w.draws 0))
  set c := target (w.draws 0)
  have hheld : w.Held c .read ∧ capacity < (w.bytes c).length + (text maxLine line.1).length := by
    by_contra hnot
    apply hfull
    intro d hd hread
    rw [hsink] at hd
    obtain rfl := Option.mem_some.mp hd
    by_contra hlong
    exact hnot ⟨hread, by omega⟩
  obtain ⟨hread, hlong⟩ := hheld
  -- A pipe with nothing in it has room for the line.
  have hbytes : w.bytes c ≠ [] := by
    intro hnil
    have hshort := length_line_le hline
    rw [hnil, List.length_nil] at hlong
    omega
  rcases hread with hparent | ⟨d, hd⟩
  · rcases (holds_iff h.parent).mp hparent with hholds | ⟨hinput, -⟩
    · rw [hplace] at hholds
      cases hholds
    · cases hinput
  · obtain ⟨rfl, -, hrunning⟩ := h.eq_of_holds (hstarted d) hd
    exact h.running_enabled hstarted hrunning (Or.inl hbytes)

/-- A child that is there can go on when the parent holds no end that is written to. -/
theorem Wiring.left_enabled (h : Wiring w) (hstarted : ∀ d, (w.child d).place.starting = false)
    (hborn : (w.child c).place ≠ .unborn) (hthere : (w.child c).place.over = false)
    (hclosed : w.place.holds c .write = false) : ∃ e : Event, e.Enabled capacity w :=
  h.running_enabled hstarted (ChildPlace.running_of hborn hthere (hstarted c)) (Or.inr hclosed)

omit [NeZero n] in
/-- Who is gone, or waits for a child, holds no end of a pipe. -/
theorem ParentPlace.holds_eq_false {place : ParentPlace}
    (hplace : place.over = true ∨ place.awaited ≠ none) (d : Child) (e : PipeEnd) :
    place.holds d e = false := by
  cases place with
  | wait c => rfl
  | ended => rfl
  | failed => rfl
  | killed => rfl
  | _ => rcases hplace with hover | hawaited <;> contradiction

/-- **Somebody can go on** until all are gone, if a pipe has room for a line. -/
theorem Orderly.progress (h : Orderly w) (hcapacity : maxLine - 1 ≤ capacity) :
    w.Finished ∨ ∃ e : Event, e.Enabled capacity w := by
  by_cases hstarting : ∃ d, (w.child d).place.starting = true
  · obtain ⟨d, hd⟩ := hstarting
    exact Or.inr ⟨.child d, hd⟩
  have hstarted : ∀ d, (w.child d).place.starting = false := by
    intro d
    by_contra hne
    exact hstarting ⟨d, by simpa using hne⟩
  by_cases hover : w.place.over = true
  · by_cases hgone : ∀ d, (w.child d).place.over = true ∨ (w.child d).place = .unborn
    · exact Or.inl ⟨hover, hgone⟩
    · right
      rw [not_forall] at hgone
      obtain ⟨d, hd⟩ := hgone
      rw [not_or] at hd
      exact h.wiring.left_enabled hstarted hd.2 (by simpa using hd.1)
        (ParentPlace.holds_eq_false (Or.inl hover) d .write)
  · right
    have hlive : w.place.over = false := by simpa using hover
    by_cases hready : w.Ready capacity
    · exact ⟨.parent, hready⟩
    · rcases waits_of_not_ready hlive hready with ⟨hplace, line, hline, hfull⟩ | ⟨c, hc, hthere⟩
      · exact h.wiring.blocked_enabled hcapacity hstarted hplace hline hfull
      · have hborn : (w.child c).place ≠ .unborn := by
          apply h.wiring.after
          cases hplace : w.place with
          | wait d => rfl
          | _ =>
            rw [hplace] at hc
            cases hc
        exact h.wiring.left_enabled hstarted hborn hthere
          (ParentPlace.holds_eq_false (Or.inr (by rw [hc]; exact Option.some_ne_none c)) c .write)

end Progress

/-! ## Runs -/

section Runs

variable [NeZero n] {capacity : ℕ} {stack : Stack} {pipes : Child → PipeEnd → Fin n}
  {table : Table n} {draws : ℕ → Bool} {stdin : List UInt8} {es : List Event} {w : World n}

theorem Kept.of_run (hstandard : Standard table)
    (hrun : Run (Step capacity) (Processes.initial stack pipes table draws stdin) es w) :
    Orderly w ∧ Kept draws (readNames stdin).2.2 w := by
  apply hrun.preserves (I := fun w => Orderly w ∧ Kept draws (readNames stdin).2.2 w) _
    ⟨Orderly.initial hstandard draws stdin, Kept.initial stack pipes table draws stdin⟩
  rintro s e t ⟨horderly, hkept⟩ ⟨he, rfl⟩
  exact ⟨horderly.next he, hkept.next horderly he⟩

/-- **No end of a pipe is left over.**  A child in its loop has one end of one pipe, as its
standard input; the parent in its loop has the two writing ends; who is gone, or waits for the
children, has none. -/
theorem no_end_is_left_over (hstandard : Standard table)
    (hrun : Run (Step capacity) (initial stack pipes table draws stdin) es w) :
    (∀ d, (w.child d).place = .running → ∀ fd c e,
      (w.child d).table fd = some (.pipe c e) ↔ fd = 0 ∧ c = d ∧ e = .read) ∧
    (∀ d, (w.child d).place.over = true → ∀ c e, ¬ (w.child d).table.Holds (.pipe c e)) ∧
    (w.place = .loop → ∀ fd c e,
      w.table fd = some (.pipe c e) ↔ fd = w.pipes c .write ∧ e = .write) ∧
    (w.place.over = true ∨ (∃ c, w.place = .wait c) → ∀ c e, ¬ w.table.Holds (.pipe c e)) := by
  have hwiring := Wiring.of_run hstandard hrun
  refine ⟨?_, ?_, ?_, ?_⟩
  · -- a running child has its standard input only
    intro d hplace fd c e
    rw [hwiring.child d fd c e, hplace]
    constructor
    · rintro (⟨hheld, -⟩ | ⟨hinput, hread, hzero⟩)
      · cases hheld
      · exact ⟨hzero, (Option.some.inj hinput).symm, hread⟩
    · rintro ⟨rfl, rfl, rfl⟩
      exact Or.inr ⟨rfl, rfl, rfl⟩
  · -- an exit closes what was open
    intro d hover c e hholds
    have hstarted : (w.child d).place.starting = false := by
      cases hplace : (w.child d).place <;> first | rfl | (rw [hplace] at hover; cases hover)
    rw [(hwiring.eq_of_holds hstarted hholds).2.2] at hover
    cases hover
  · -- in the loop the parent has the two write ends
    intro hplace fd c e
    rw [hwiring.parent fd c e, hplace]
    constructor
    · rintro (⟨hheld, rfl⟩ | ⟨hinput, -⟩)
      · obtain rfl : e = .write := of_decide_eq_true hheld
        exact ⟨rfl, rfl⟩
      · cases hinput
    · rintro ⟨rfl, rfl⟩
      exact Or.inl ⟨rfl, rfl⟩
  · -- after it none
    intro hplace c e hholds
    have hnone : w.place.holds c e = false := by
      rcases hplace with hover | ⟨d, hwait⟩
      · cases hplace : w.place <;> first | rfl | (rw [hplace] at hover; cases hover)
      · rw [hwait]
        rfl
    rcases (holds_iff hwiring.parent).mp hholds with hheld | ⟨hinput, -⟩
    · rw [hnone] at hheld
      cases hheld
    · cases hinput

theorem no_end_is_left_over_two_lines :
    let w := (wholeRun.take 28).foldl World.next
      (initial {} (fun _ _ => 0) shell (fun k => k = 0) twoNames)
    (∀ fd c e, (w.child .child1).table fd = some (.pipe c e) ↔
      fd = 0 ∧ c = .child1 ∧ e = .read) ∧
    ∀ c e, ¬ w.table.Holds (.pipe c e) := by
  intro w
  have hpossible : Run.Possible (fun w e => Event.Enabled 4096 w e) World.next
      (initial {} (fun _ _ => 0) shell (fun k => k = 0) twoNames) (wholeRun.take 28) := by
    decide +kernel
  obtain ⟨hrunning, -, -, hgone⟩ := no_end_is_left_over standard_shell hpossible.run
  exact ⟨hrunning .child1 (by decide +kernel), hgone (Or.inr ⟨.child1, by decide +kernel⟩)⟩

/-- **Every run comes to its end**, whatever fails: it is bounded by the length of the input, and
as long as some process is there, some process can go on. -/
theorem every_run_ends (hstandard : Standard table) (hcapacity : maxLine - 1 ≤ capacity)
    (hrun : Run (Step capacity) (initial stack pipes table draws stdin) es w) :
    es.length ≤ 3 * stdin.length + 28 ∧ (w.Finished ∨ ∃ e : Event, e.Enabled capacity w) := by
  constructor
  · have hlength : es.length + weight w ≤ weight (initial stack pipes table draws stdin) := by
      refine hrun.length_le (I := Orderly) ?_ ?_ (Orderly.initial hstandard draws stdin)
      · rintro s e t hs ⟨he, rfl⟩
        exact hs.next he
      · rintro s e t hs ⟨he, rfl⟩
        exact weight_next hs he
    have hstart : weight (initial stack pipes table draws stdin) = 3 * stdin.length + 28 := rfl
    omega
  · exact (Kept.of_run hstandard hrun).1.progress hcapacity

theorem every_run_ends_two_lines :
    let w := (wholeRun.take 20).foldl World.next
      (initial {} (fun _ _ => 0) shell (fun k => k = 0) twoNames)
    (wholeRun.take 20).length ≤ 3 * twoNames.length + 28 ∧
      (w.Finished ∨ ∃ e : Event, e.Enabled 4096 w) := by
  have hpossible : Run.Possible (fun w e => Event.Enabled 4096 w e) World.next
      (initial {} (fun _ _ => 0) shell (fun k => k = 0) twoNames) (wholeRun.take 20) := by
    decide +kernel
  exact every_run_ends standard_shell (by decide) hpossible.run

end Runs

end Processes
end PipeFilter
