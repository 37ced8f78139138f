/-
# Who holds which end of a pipe

The ends that a process holds are a matter of the place it has got to: the parent has the two
ends of a pipe from `pipe` to the `close` of each, and a child what it has inherited and not closed
yet.  A child in its loop holds the reading end of its own pipe, as its standard input, and nothing
else; so the `close` of the parent is the last one of a writing end.
-/
import OSLabs.PipeFilterProcesses

namespace PipeFilter
namespace Processes

/-! ## Ends by places -/

/-- The parent still has this descriptor of its arrays. -/
def ParentPlace.holds : ParentPlace → Child → PipeEnd → Bool
  | .pipe .child1, _, _ => false
  | .pipe .child2, d, _ => d = .child1
  | .names, _, _ => true
  | .fork _, _, _ => true
  | .closeRead .child1, _, _ => true
  | .closeRead .child2, d, e => e = .write ∨ d = .child2
  | .loop, _, e => e = .write
  | .closeWrite .child1, _, e => e = .write
  | .closeWrite .child2, d, e => e = .write ∧ d = .child2
  | .wait _, _, _ => false
  | .ended, _, _ => false
  | .failed, _, _ => false
  | .killed, _, _ => false

/-- The child `c` still has this descriptor of the arrays it was forked with. -/
def ChildPlace.holds (c : Child) : ChildPlace → Child → PipeEnd → Bool
  | .closeWrite, _, _ => true
  | .dup, d, e => e = .read ∨ d ≠ c
  | .closeRead, d, e => e = .read ∨ d ≠ c
  | .closeOtherRead, d, _ => d ≠ c
  | .closeOtherWrite, d, e => e = .write ∧ d ≠ c
  | _, _, _ => false

/-- The pipe that the standard input of the child `c` is. -/
def ChildPlace.input (c : Child) : ChildPlace → Option Child
  | .closeRead => some c
  | .closeOtherRead => some c
  | .closeOtherWrite => some c
  | .exec => some c
  | .fopen => some c
  | .running => some c
  | _ => none

/-- The parent is still making the pipes. -/
def ParentPlace.making : ParentPlace → Bool
  | .pipe _ => true
  | _ => false

/-- The parent has not forked the child yet. -/
def ParentPlace.before : ParentPlace → Child → Bool
  | .pipe _, _ => true
  | .names, _ => true
  | .fork .child1, _ => true
  | .fork .child2, c => c = .child2
  | _, _ => false

/-- The parent has forked the child. -/
def ParentPlace.after : ParentPlace → Child → Bool
  | .pipe _, _ => false
  | .names, _ => false
  | .fork .child1, _ => false
  | .fork .child2, c => c = .child1
  | .failed, _ => false
  | _, _ => true

variable {n : ℕ} [NeZero n]

/-- The four descriptors in the arrays are different, and none is the standard input. -/
structure Apart (pipes : Child → PipeEnd → Fin n) : Prop where
  inj : ∀ c e d e', pipes c e = pipes d e' → c = d ∧ e = e'
  ne_zero : ∀ c e, pipes c e ≠ 0

/-- Some of the descriptors in the arrays are open, and the standard input may be a pipe. -/
def ends (pipes : Child → PipeEnd → Fin n) (held : Child → PipeEnd → Bool)
    (input : Option Child) : Fin n → Child → PipeEnd → Prop := fun fd d e =>
  (held d e = true ∧ fd = pipes d e) ∨ (input = some d ∧ e = .read ∧ fd = 0)

/-- **Every process holds the ends of its place.** -/
structure Wiring (w : World n) : Prop where
  parent : w.table.Wired (ends w.pipes w.place.holds none)
  child : ∀ c, (w.child c).table.Wired
    (ends w.pipes ((w.child c).place.holds c) ((w.child c).place.input c))
  making : w.place.making = true →
    w.table 0 ≠ none ∧ ∀ d e, w.place.holds d e = true → w.pipes d e ≠ 0
  apart : w.place.making = false →
    (w.place = .failed ∧ ∀ c, (w.child c).place = .unborn) ∨ Apart w.pipes
  before : ∀ c, w.place.before c = true → (w.child c).place = .unborn
  after : ∀ c, w.place.after c = true → (w.child c).place ≠ .unborn

section Ends

variable {t : Table n} {pipes : Child → PipeEnd → Fin n} {held held' : Child → PipeEnd → Bool}
  {input : Option Child} {c : Child} {e : PipeEnd}

theorem wired_none (h : t.Wired fun _ _ _ => False) (hheld : ∀ d e, held d e = false) :
    t.Wired (ends pipes held none) := by
  apply h.congr
  intro fd d e
  simp [ends, hheld]

/-- **A descriptor of the arrays is closed.** -/
theorem wired_close (h : t.Wired (ends pipes held input)) (hapart : Apart pipes) (c : Child)
    (e : PipeEnd) (hheld : ∀ d e', held' d e' = true ↔ held d e' = true ∧ ¬ (d = c ∧ e' = e)) :
    (t.close (pipes c e)).Wired (ends pipes held' input) := by
  apply (h.close (pipes c e)).congr
  intro fd d e'
  unfold ends
  rw [hheld]
  constructor
  · rintro ⟨hne, ⟨hd, rfl⟩ | hzero⟩
    · left
      refine ⟨⟨hd, ?_⟩, rfl⟩
      rintro ⟨rfl, rfl⟩
      exact hne rfl
    · exact Or.inr hzero
  · rintro (⟨⟨hd, hne⟩, rfl⟩ | ⟨hinput, hread, rfl⟩)
    · exact ⟨fun heq => hne (hapart.inj _ _ _ _ heq), Or.inl ⟨hd, rfl⟩⟩
    · exact ⟨(hapart.ne_zero c e).symm, Or.inr ⟨hinput, hread, rfl⟩⟩

/-- **The pipe becomes the standard input.** -/
theorem wired_dup2 (h : t.Wired (ends pipes held none)) (hapart : Apart pipes)
    (hheld : held c .read = true) :
    (t.dup2 (pipes c .read) 0).Wired (ends pipes held (some c)) := by
  have hold : ends pipes held none (pipes c .read) c .read := Or.inl ⟨hheld, rfl⟩
  apply (h.dup2 hold 0).congr
  intro fd d e
  unfold ends
  constructor
  · rintro (⟨rfl, rfl, rfl⟩ | ⟨-, hd | ⟨hinput, -⟩⟩)
    · exact Or.inr ⟨rfl, rfl, rfl⟩
    · exact Or.inl hd
    · cases hinput
  · rintro (⟨hd, rfl⟩ | ⟨hinput, rfl, rfl⟩)
    · exact Or.inr ⟨hapart.ne_zero d e, Or.inl ⟨hd, rfl⟩⟩
    · exact Or.inl ⟨rfl, (Option.some.inj hinput).symm, rfl⟩

/-- An end of a pipe is held if its descriptor is open, or as the standard input. -/
theorem holds_iff (h : t.Wired (ends pipes held input)) :
    t.Holds (.pipe c e) ↔ held c e = true ∨ (input = some c ∧ e = .read) := by
  rw [h.holds_iff]
  unfold ends
  constructor
  · rintro ⟨fd, ⟨hheld, -⟩ | ⟨hinput, hread, -⟩⟩
    · exact Or.inl hheld
    · exact Or.inr ⟨hinput, hread⟩
  · rintro (hheld | ⟨hinput, hread⟩)
    · exact ⟨_, Or.inl ⟨hheld, rfl⟩⟩
    · exact ⟨0, Or.inr ⟨hinput, hread, rfl⟩⟩

end Ends

namespace Wiring

variable {w w' : World n} {c d : Child} {q : ChildState n}

theorem initial (stack : Stack) (pipes : Child → PipeEnd → Fin n) {table : Table n}
    (h : Standard table) (draws : ℕ → Bool) (stdin : List UInt8) :
    Wiring (initial stack pipes table draws stdin) := by
  constructor
  · exact wired_none h.wired fun _ _ => rfl
  · intro c
    exact wired_none DescriptorTable.wired_empty fun _ _ => rfl
  · intro _
    refine ⟨h.stdin, ?_⟩
    intro d e hholds
    cases hholds
  · intro hmaking
    cases hmaking
  · intro c _
    rfl
  · intro c hafter
    cases hafter

/-- Only the descriptors and the places matter. -/
theorem congr (h : Wiring w) (hplace : w'.place = w.place) (htable : w'.table = w.table)
    (hpipes : w'.pipes = w.pipes)
    (hchild : ∀ c, (w'.child c).place = (w.child c).place ∧
      (w'.child c).table = (w.child c).table) : Wiring w' := by
  constructor
  · rw [hplace, htable, hpipes]
    exact h.parent
  · intro c
    rw [(hchild c).1, (hchild c).2, hpipes]
    exact h.child c
  · rw [hplace, htable, hpipes]
    exact h.making
  · rw [hplace, hpipes]
    intro hmaking
    apply (h.apart hmaking).imp_left
    rintro ⟨hfailed, hunborn⟩
    refine ⟨hfailed, ?_⟩
    intro c
    rw [(hchild c).1]
    exact hunborn c
  · intro c
    rw [hplace, (hchild c).1]
    exact h.before c
  · intro c
    rw [hplace, (hchild c).1]
    exact h.after c

/-- Where there is a child, the pipes are there. -/
theorem apart_of_born (h : Wiring w) (hborn : (w.child c).place ≠ .unborn) : Apart w.pipes := by
  have hmaking : w.place.making = false := by
    cases hplace : w.place with
    | pipe d =>
      refine absurd (h.before c ?_) hborn
      rw [hplace]
      rfl
    | _ => rfl
  rcases h.apart hmaking with ⟨-, hunborn⟩ | hapart
  · exact absurd (hunborn c) hborn
  · exact hapart

/-- **One child goes on**, and what it holds is right for its new place. -/
theorem setChild (h : Wiring w) (hborn : (w.child c).place ≠ .unborn) (hq : q.place ≠ .unborn)
    (hwired : q.table.Wired (ends w.pipes (q.place.holds c) (q.place.input c))) : Wiring (w.setChild c q) := by
  have hself : (w.setChild c q).child c = q := Function.update_self _ _ _
  have hother : ∀ d, d ≠ c → (w.setChild c q).child d = w.child d :=
    fun d hd => Function.update_of_ne hd _ _
  refine ⟨h.parent, ?_, h.making, fun _ => Or.inr (h.apart_of_born hborn), ?_, ?_⟩
  · intro d
    by_cases hd : d = c
    · rw [hd, hself]
      exact hwired
    · rw [hother d hd]
      exact h.child d
  · intro d hbefore
    by_cases hd : d = c
    · exact absurd (h.before c (hd ▸ hbefore)) hborn
    · rw [hother d hd]
      exact h.before d hbefore
  · intro d hafter
    by_cases hd : d = c
    · rw [hd, hself]
      exact hq
    · rw [hother d hd]
      exact h.after d hafter

/-! ### Calls of the parent -/

/-- `exit`, and the end of `main`. -/
theorem exit (h : Wiring w) {place : ParentPlace} (hover : place.over = true)
    (hborn : place ≠ .failed → ∀ c, (w.child c).place ≠ .unborn) : Wiring (w.exit place) := by
  have hnot : place.making = false ∧ (∀ d e, place.holds d e = false) ∧
      ∀ c, place.before c = false := by
    cases place <;> first | exact ⟨rfl, fun _ _ => rfl, fun _ => rfl⟩ | cases hover
  obtain ⟨hmaking, hholds, hbefore⟩ := hnot
  refine ⟨wired_none DescriptorTable.wired_empty hholds, h.child, ?_, ?_, ?_, ?_⟩
  · intro hm
    rw [show (w.exit place).place = place from rfl, hmaking] at hm
    cases hm
  · intro _
    by_cases hfailed : place = .failed
    · by_cases hunborn : ∀ c, (w.child c).place = .unborn
      · exact Or.inl ⟨hfailed, hunborn⟩
      · rw [not_forall] at hunborn
        obtain ⟨c, hc⟩ := hunborn
        exact Or.inr (h.apart_of_born hc)
    · exact Or.inr (h.apart_of_born (hborn hfailed .child1))
  · intro c hb
    rw [show (w.exit place).place = place from rfl, hbefore c] at hb
    cases hb
  · intro c ha
    apply hborn
    rintro rfl
    cases ha

/-- `pipe`: two more descriptors are open. -/
theorem pipe (h : Wiring w) (hplace : w.place = .pipe c) : Wiring (parentNext w) := by
  have hunborn : ∀ d, (w.child d).place = .unborn := by
    intro d
    apply h.before d
    rw [hplace]
    rfl
  obtain ⟨hstdin, hzero⟩ := h.making (by rw [hplace]; rfl)
  unfold parentNext
  rw [hplace]
  dsimp only
  cases hpipe : w.table.pipe c with
  | none => exact h.exit rfl fun hne => absurd rfl hne
  | some made =>
    obtain ⟨fds, table⟩ := made
    dsimp only
    have hwired := h.parent.pipe hpipe
    obtain ⟨hfree, -, htable⟩ := DescriptorTable.pipe_eq_some hpipe
    have hne : ∀ e, fds e ≠ 0 := by
      intro e heq
      exact hstdin (heq ▸ hfree e)
    have hstdin' : table 0 ≠ none := by
      rw [htable, Function.update_of_ne (hne _).symm, Function.update_of_ne (hne _).symm]
      exact hstdin
    set pipes := Function.update w.pipes c fds with hpipes
    have hchild : ∀ d, (w.child d).table.Wired
        (ends pipes ((w.child d).place.holds d) ((w.child d).place.input d)) := by
      intro d
      have hd := h.child d
      rw [hunborn d] at hd ⊢
      apply hd.congr
      intro fd d' e
      -- the children's tables name none of the new ends
      simp [ends, ChildPlace.holds, ChildPlace.input]
    cases c with
    | child1 =>
      refine ⟨?_, hchild, ?_, (fun hm => by cases hm), fun d _ => hunborn d, ?_⟩
      · apply hwired.congr
        intro fd d e
        rw [hplace]
        cases d <;> simp [ends, hpipes, andThen, ParentPlace.holds]
      · intro _
        refine ⟨hstdin', ?_⟩
        intro d e hholds
        obtain rfl : d = .child1 := by simpa [andThen, ParentPlace.holds] using hholds
        show pipes .child1 e ≠ 0
        rw [hpipes, Function.update_self]
        exact hne e
      · intro d ha
        cases ha
    -- the second pipe completes the wiring
    | child2 =>
      have hall : table.Wired (ends pipes (fun _ _ => true) none) := by
        apply hwired.congr
        intro fd d e
        rw [hplace]
        cases d <;> simp [ends, hpipes, ParentPlace.holds]
      have hopen : ∀ d e, table (pipes d e) = some (.pipe d e) := by
        intro d e
        exact (hall _ d e).mpr (Or.inl ⟨rfl, rfl⟩)
      refine ⟨hall, hchild, (fun hm => by cases hm), ?_, fun d _ => hunborn d, ?_⟩
      · intro _
        right
        constructor
        · -- a descriptor names one end
          intro d e d' e' heq
          have hfile := hopen d e
          rw [show pipes d e = pipes d' e' from heq, hopen d' e'] at hfile
          simpa [eq_comm] using hfile
        · intro d e
          cases d with
          | child1 =>
            have hbefore := hzero .child1 e (by rw [hplace]; rfl)
            show pipes .child1 e ≠ 0
            rw [hpipes, Function.update_of_ne (by decide)]
            exact hbefore
          | child2 =>
            show pipes .child2 e ≠ 0
            rw [hpipes, Function.update_self]
            exact hne e
      · intro d ha
        cases ha

/-- The arrays are as they were once the pipes are there. -/
theorem apart_of_making (h : Wiring w) (hmaking : w.place.making = false)
    (hfailed : w.place ≠ .failed) : Apart w.pipes := by
  rcases h.apart hmaking with ⟨hf, -⟩ | hapart
  · exact absurd hf hfailed
  · exact hapart

/-- `fork`: the child gets the descriptors of the parent. -/
theorem fork (h : Wiring w) (hplace : w.place = .fork c) : Wiring (parentNext w) := by
  have hapart := h.apart_of_making (by rw [hplace]; rfl) (by rw [hplace]; exact ParentPlace.noConfusion)
  have hall : ∀ d e, w.place.holds d e = true := by
    rw [hplace]
    exact fun _ _ => rfl
  have hself : (w.setChild c { w.child c with place := .closeWrite, table := w.table }).child c =
      { w.child c with place := .closeWrite, table := w.table } := Function.update_self _ _ _
  have hother : ∀ d, d ≠ c →
      (w.setChild c { w.child c with place := .closeWrite, table := w.table }).child d =
        w.child d := fun d hd => Function.update_of_ne hd _ _
  unfold parentNext
  rw [hplace]
  refine ⟨?_, ?_, ?_, fun _ => Or.inr hapart, ?_, ?_⟩
  · apply h.parent.congr
    intro fd d e
    unfold ends
    rw [hall]
    cases c <;> simp [andThen, ParentPlace.holds, World.setChild]
  · intro d
    by_cases hd : d = c
    · subst hd
      dsimp only
      rw [hself]
      apply h.parent.congr
      intro fd d' e
      unfold ends
      rw [hall]
      simp [ChildPlace.holds, ChildPlace.input, World.setChild]
    · dsimp only
      rw [hother d hd]
      exact h.child d
  · -- no pipe is being made any more
    intro hm
    cases c <;> cases hm
  · intro d hb
    have hd : c = .child1 ∧ d = .child2 := by
      cases c with
      | child1 => exact ⟨rfl, of_decide_eq_true hb⟩
      | child2 => cases hb
    obtain ⟨rfl, rfl⟩ := hd
    dsimp only
    rw [hother .child2 (by decide)]
    apply h.before
    rw [hplace]
    rfl
  · intro d ha
    by_cases hd : d = c
    · dsimp only
      rw [hd, hself]
      exact ChildPlace.noConfusion
    · dsimp only
      rw [hother d hd]
      apply h.after
      rw [hplace]
      cases c with
      | child1 => exact absurd (of_decide_eq_true ha) hd
      | child2 =>
        cases d with
        | child1 => rfl
        | child2 => exact absurd rfl hd

/-- **The parent closes a descriptor of its arrays**, after it has forked both children. -/
theorem closeEnd (h : Wiring w) {place : ParentPlace} {e : PipeEnd}
    (hafter : ∀ d, w.place.after d = true)
    (hplace : place.making = false ∧ ∀ d, place.before d = false)
    (hholds : ∀ d e', place.holds d e' = true ↔ w.place.holds d e' = true ∧ ¬ (d = c ∧ e' = e)) :
    Wiring { w with place := place, table := w.table.close (w.pipes c e) } := by
  have hborn := fun d => h.after d (hafter d)
  have hapart := h.apart_of_born (hborn .child1)
  obtain ⟨hmaking, hbefore⟩ := hplace
  refine ⟨wired_close h.parent hapart c e hholds, h.child, ?_, fun _ => Or.inr hapart, ?_,
    fun d _ => hborn d⟩
  · intro hm
    exact absurd (hmaking.symm.trans hm) Bool.false_ne_true
  · intro d hb
    exact absurd ((hbefore d).symm.trans hb) Bool.false_ne_true

theorem closeRead (h : Wiring w) (hplace : w.place = .closeRead c) : Wiring (parentNext w) := by
  unfold parentNext
  rw [hplace]
  apply h.closeEnd
  · intro d
    rw [hplace]
    rfl
  · cases c <;> exact ⟨rfl, fun _ => rfl⟩
  · rw [hplace]
    intro d e
    cases c <;> cases d <;> cases e <;> decide

theorem closeWrite (h : Wiring w) (hplace : w.place = .closeWrite c) :
    Wiring (parentNext w) := by
  unfold parentNext
  rw [hplace]
  apply h.closeEnd
  · intro d
    rw [hplace]
    rfl
  · cases c <;> exact ⟨rfl, fun _ => rfl⟩
  · rw [hplace]
    intro d e
    cases c <;> cases d <;> cases e <;> decide

/-- The parent goes on without a change of its descriptors. -/
theorem goOn (h : Wiring w) {place p : ParentPlace} (hplace : w.place = place)
    (hsame : place.making = false ∧ p.making = false ∧ place ≠ .failed ∧
      ∀ d, p.before d = place.before d ∧ p.after d = place.after d ∧
        ∀ e, p.holds d e = place.holds d e)
    (hw' : w'.place = p ∧ w'.table = w.table ∧ w'.pipes = w.pipes ∧ w'.child = w.child) :
    Wiring w' := by
  subst hplace
  obtain ⟨hnow, hmaking, hfailed, hsame⟩ := hsame
  obtain ⟨hplace, htable, hpipes, hchild⟩ := hw'
  have hapart := h.apart_of_making hnow hfailed
  constructor
  · rw [hplace, htable, hpipes]
    apply h.parent.congr
    intro fd d e
    unfold ends
    rw [(hsame d).2.2 e]
  · rw [hchild, hpipes]
    exact h.child
  · intro hm
    rw [hplace, hmaking] at hm
    cases hm
  · intro _
    rw [hpipes]
    exact Or.inr hapart
  · intro d hb
    rw [hplace, (hsame d).1] at hb
    rw [hchild]
    exact h.before d hb
  · intro d ha
    rw [hplace, (hsame d).2.1] at ha
    rw [hchild]
    exact h.after d ha

/-- `write` changes no descriptor, or kills the parent. -/
theorem write (h : Wiring w) (hborn : ∀ c, (w.child c).place ≠ .unborn) (fd : Fin n)
    (bytes : List UInt8) : Wiring (write w fd bytes) := by
  unfold Processes.write
  cases w.sink fd with
  | none => exact h
  | some c =>
    dsimp only
    split_ifs
    · exact h
    · exact h.congr rfl rfl rfl fun _ => ⟨rfl, rfl⟩
    · exact h.exit rfl fun _ => hborn

/-- The loop of the parent. -/
theorem sendLine (h : Wiring w) (hplace : w.place = .loop) : Wiring (sendLine w) := by
  have hborn : ∀ c, (w.child c).place ≠ .unborn := by
    intro c
    apply h.after
    rw [hplace]
    rfl
  unfold Processes.sendLine
  cases TextStream.fgets maxLine w.line w.input with
  | none =>
    exact h.goOn (p := .closeWrite .child1) hplace
      ⟨rfl, rfl, ParentPlace.noConfusion, fun _ => ⟨rfl, rfl, fun _ => rfl⟩⟩ ⟨rfl, rfl, rfl, rfl⟩
  | some line =>
    obtain ⟨line, input⟩ := line
    have hread : Wiring { w with input := input, draws := laterDraws w.draws, line := line } :=
      h.congr rfl rfl rfl fun _ => ⟨rfl, rfl⟩
    exact hread.write hborn _ _

/-- **The calls of the parent** leave every process with the ends of its place. -/
theorem parentNext (h : Wiring w) : Wiring (parentNext w) := by
  cases hplace : w.place with
  | pipe c => exact h.pipe hplace
  | fork c => exact h.fork hplace
  | closeRead c => exact h.closeRead hplace
  | closeWrite c => exact h.closeWrite hplace
  | loop =>
    have hsend := h.sendLine hplace
    unfold Processes.parentNext
    rw [hplace]
    exact hsend
  | names =>
    unfold Processes.parentNext
    rw [hplace]
    exact h.goOn (p := .fork .child1) hplace
      ⟨rfl, rfl, ParentPlace.noConfusion, fun _ => ⟨rfl, rfl, fun _ => rfl⟩⟩ ⟨rfl, rfl, rfl, rfl⟩
  | wait c =>
    unfold Processes.parentNext
    rw [hplace]
    cases c with
    | child1 =>
      exact h.goOn (p := .wait .child2) hplace
        ⟨rfl, rfl, ParentPlace.noConfusion, fun _ => ⟨rfl, rfl, fun _ => rfl⟩⟩
        ⟨rfl, rfl, rfl, rfl⟩
    | child2 =>
      apply h.exit rfl
      intro _ c
      apply h.after
      rw [hplace]
      rfl
  | ended =>
    unfold Processes.parentNext
    rw [hplace]
    exact h
  | failed =>
    unfold Processes.parentNext
    rw [hplace]
    exact h
  | killed =>
    unfold Processes.parentNext
    rw [hplace]
    exact h

/-! ### Calls of the children -/

/-- The end of a child. -/
theorem exitChild (h : Wiring w) (hborn : (w.child c).place ≠ .unborn) {place : ChildPlace}
    (hover : place.over = true) : Wiring (w.exitChild c place) := by
  apply h.setChild hborn
  · rintro rfl
    cases hover
  · have hnot : (∀ d e, place.holds c d e = false) ∧ place.input c = none := by
      cases place <;> first | exact ⟨fun _ _ => rfl, rfl⟩ | cases hover
    dsimp only
    rw [hnot.2]
    exact wired_none DescriptorTable.wired_empty hnot.1

/-- **A child closes a descriptor of its arrays.** -/
theorem closeChild (h : Wiring w) (p : ChildPlace) {place : ChildPlace} {d : Child} {e : PipeEnd}
    (hplace : (w.child c).place = place) (hborn : place ≠ .unborn ∧ p ≠ .unborn)
    (hinput : p.input c = place.input c)
    (hholds : ∀ d' e', p.holds c d' e' = true ↔
      place.holds c d' e' = true ∧ ¬ (d' = d ∧ e' = e)) :
    Wiring (advance w c p ((w.child c).table.close (w.pipes d e))) := by
  subst hplace
  apply h.setChild hborn.1 hborn.2
  dsimp only
  rw [hinput]
  exact wired_close (h.child c) (h.apart_of_born hborn.1) d e hholds

/-- **The calls of a child** leave it with the ends of its place. -/
theorem childNext (h : Wiring w) (c : Child) : Wiring (childNext w c) := by
  have hchild := h.child c
  unfold Processes.childNext
  cases hplace : (w.child c).place with
  | closeWrite =>
    simp only [hplace]
    apply h.closeChild .dup hplace ⟨ChildPlace.noConfusion, ChildPlace.noConfusion⟩ rfl
    intro d e
    cases c <;> cases d <;> cases e <;> decide
  | dup =>
    have hborn : (w.child c).place ≠ .unborn := by
      rw [hplace]
      exact ChildPlace.noConfusion
    simp only [hplace]
    apply h.setChild hborn ChildPlace.noConfusion
    rw [hplace] at hchild
    exact wired_dup2 hchild (h.apart_of_born hborn) rfl
  | closeRead =>
    simp only [hplace]
    apply h.closeChild .closeOtherRead hplace ⟨ChildPlace.noConfusion, ChildPlace.noConfusion⟩ rfl
    intro d e
    cases c <;> cases d <;> cases e <;> decide
  | closeOtherRead =>
    simp only [hplace]
    apply h.closeChild .closeOtherWrite hplace ⟨ChildPlace.noConfusion, ChildPlace.noConfusion⟩ rfl
    intro d e
    cases c <;> cases d <;> cases e <;> decide
  | closeOtherWrite =>
    simp only [hplace]
    apply h.closeChild .exec hplace ⟨ChildPlace.noConfusion, ChildPlace.noConfusion⟩ rfl
    intro d e
    cases c <;> cases d <;> cases e <;> decide
  | exec =>
    have hborn : (w.child c).place ≠ .unborn := by
      rw [hplace]
      exact ChildPlace.noConfusion
    simp only [hplace]
    apply h.setChild hborn ChildPlace.noConfusion
    rw [hplace] at hchild
    exact hchild
  | fopen =>
    have hborn : (w.child c).place ≠ .unborn := by
      rw [hplace]
      exact ChildPlace.noConfusion
    simp only [hplace]
    cases hinstall : (w.child c).table.install (.file (w.child c).arg) with
    | none => exact h.exitChild hborn rfl
    | some made =>
      obtain ⟨fd, table⟩ := made
      apply h.setChild hborn ChildPlace.noConfusion
      rw [hplace] at hchild
      exact hchild.install_file hinstall
  -- places without a call of the child
  | unborn =>
    simp only [hplace]
    exact h
  | running =>
    simp only [hplace]
    exact h
  | ended =>
    simp only [hplace]
    exact h
  | failed =>
    simp only [hplace]
    exact h

/-- **Every step** leaves every process with the ends of its place. -/
theorem next (h : Wiring w) {capacity : ℕ} {e : Event} (he : e.Enabled capacity w) :
    Wiring (w.next e) := by
  have hrunning : ∀ c, (w.child c).place = .running → (w.child c).place ≠ .unborn := by
    intro c hc
    rw [hc]
    exact ChildPlace.noConfusion
  cases e with
  | parent => exact h.parentNext
  | forkFails => exact h.exit rfl fun hne => absurd rfl hne
  | child c => exact h.childNext c
  | startFails c =>
    apply h.exitChild _ rfl
    rcases he with hc | hc
    all_goals
      rw [hc]
      exact ChildPlace.noConfusion
  | fill c k =>
    show Wiring (Processes.fill w c k)
    unfold Processes.fill
    cases w.source c with
    | none => exact h
    | some d =>
      have hset := h.setChild (hrunning c he.1) (q := { w.child c with
        stdin := (w.child c).stdin ++ (w.bytes d).take k }) (hrunning c he.1) (h.child c)
      exact hset.congr rfl rfl rfl fun _ => ⟨rfl, rfl⟩
  | filterLine c =>
    show Wiring (Processes.filterLine w c)
    unfold Processes.filterLine
    dsimp only
    cases TextStream.fgets maxLine (w.child c).line (w.child c).stdin with
    | none => exact h
    | some made =>
      obtain ⟨line, stdin⟩ := made
      exact h.setChild (hrunning c he.1) (hrunning c he.1) (h.child c)
  | finish c => exact h.exitChild (hrunning c he.1) rfl

/-- **In every run.** -/
theorem of_run {capacity : ℕ} {stack : Stack} {pipes : Child → PipeEnd → Fin n} {table : Table n}
    (hstandard : Standard table) {draws : ℕ → Bool} {stdin : List UInt8} {es : List Event}
    (hrun : Run (Step capacity) (Processes.initial stack pipes table draws stdin) es w) :
    Wiring w := by
  apply hrun.preserves _ (initial stack pipes hstandard draws stdin)
  rintro s e t hs ⟨he, rfl⟩
  exact hs.next he

end Wiring

end Processes
end PipeFilter
