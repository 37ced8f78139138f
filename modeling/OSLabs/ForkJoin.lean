/-
# Fork-join programs

A program is built from atomic actions on shared data, locked sections on a control state
and threads that are created and joined.  Its steps are labelled by what they do, so that
any interleaving of the running threads is a run.  When the actions of threads that run
side by side commute, every complete run computes what the sequential program computes,
whatever the locked sections decide.
-/
import OSLabs.LabelledRuns

/-- A fork-join program over the actions `A` and the locked sections `B`. -/
inductive Prog (A B : Type) where
  | skip
  | act (a : A)
  | seq (p q : Prog A B)
  /-- Create a thread for `p`, go on with `q`, then join the thread. -/
  | spawn (p q : Prog A B)
  /-- The created thread runs `p` while its creator runs `q`. -/
  | join (p q : Prog A B)
  /-- A locked section whose outcome chooses between `p` and `q`. -/
  | test (b : B) (p q : Prog A B)
  /-- A locked section without an outcome. -/
  | lock (b : B)

/-- What a step does. -/
inductive Prog.Event (A B : Type) where
  | act (a : A)
  | test (b : B) (outcome : Bool)
  | lock (b : B)
  | silent

namespace Prog

variable {A B σ κ : Type}

/-! ## Steps -/

/-- One step of one of the running threads. -/
inductive Step : Prog A B → Event A B → Prog A B → Prop
  | act (a : A) : Step (.act a) (.act a) .skip
  | seqLeft {p p' q : Prog A B} {e : Event A B} : Step p e p' → Step (.seq p q) e (.seq p' q)
  | seqSkip (q : Prog A B) : Step (.seq .skip q) .silent q
  | spawn (p q : Prog A B) : Step (.spawn p q) .silent (.join p q)
  | joinLeft {p p' q : Prog A B} {e : Event A B} : Step p e p' → Step (.join p q) e (.join p' q)
  | joinRight {p q q' : Prog A B} {e : Event A B} : Step q e q' → Step (.join p q) e (.join p q')
  | joinSkip : Step (.join .skip .skip) .silent .skip
  | testTrue (b : B) (p q : Prog A B) : Step (.test b p q) (.test b true) p
  | testFalse (b : B) (p q : Prog A B) : Step (.test b p q) (.test b false) q
  | lock (b : B) : Step (.lock b) (.lock b) .skip

/-- How many steps a program can take at most. -/
def weight : Prog A B → ℕ
  | .skip => 0
  | .act _ => 1
  | .seq p q => p.weight + q.weight + 1
  | .spawn p q => p.weight + q.weight + 2
  | .join p q => p.weight + q.weight + 1
  | .test _ p q => p.weight + q.weight + 1
  | .lock _ => 1

/-- Every step makes the program smaller. -/
theorem Step.weight_lt {p p' : Prog A B} {e : Event A B} (h : Step p e p') :
    p'.weight < p.weight := by
  induction h with
  | seqLeft _ ih => exact Nat.succ_lt_succ (Nat.add_lt_add_right ih _)
  | joinLeft _ ih => exact Nat.succ_lt_succ (Nat.add_lt_add_right ih _)
  | joinRight _ ih => exact Nat.succ_lt_succ (Nat.add_lt_add_left ih _)
  | _ => simp only [weight]; omega

/-! ## The sequential program -/

/-- What the program computes when every section refuses and every thread runs to its end
where it is created. -/
def eval (exec : A → σ → σ) : Prog A B → σ → σ
  | .skip, s => s
  | .act a, s => exec a s
  | .seq p q, s => q.eval exec (p.eval exec s)
  | .spawn p q, s => q.eval exec (p.eval exec s)
  | .join p q, s => q.eval exec (p.eval exec s)
  | .test _ _ q, s => q.eval exec s
  | .lock _, s => s

/-- The actions that a program may take. -/
def Uses : Prog A B → A → Prop
  | .skip, _ => False
  | .act b, a => a = b
  | .seq p q, a => p.Uses a ∨ q.Uses a
  | .spawn p q, a => p.Uses a ∨ q.Uses a
  | .join p q, a => p.Uses a ∨ q.Uses a
  | .test _ p q, a => p.Uses a ∨ q.Uses a
  | .lock _, _ => False

/-- Every action of `p` commutes with every action of `q`. -/
def Independent (exec : A → σ → σ) (p q : Prog A B) : Prop :=
  ∀ a b, p.Uses a → q.Uses b → ∀ s, exec a (exec b s) = exec b (exec a s)

/-- Threads that run side by side are independent, and the two branches of a locked section
compute the same. -/
def Safe (exec : A → σ → σ) : Prog A B → Prop
  | .skip => True
  | .act _ => True
  | .seq p q => p.Safe exec ∧ q.Safe exec
  | .spawn p q => p.Safe exec ∧ q.Safe exec ∧ Independent exec p q
  | .join p q => p.Safe exec ∧ q.Safe exec ∧ Independent exec p q
  | .test _ p q => p.Safe exec ∧ q.Safe exec ∧ ∀ s, p.eval exec s = q.eval exec s
  | .lock _ => True

variable {exec : A → σ → σ} {p p' q : Prog A B} {e : Event A B}

/-- A step takes no action that was not there before. -/
theorem Step.uses (h : Step p e p') {a : A} (ha : p'.Uses a) : p.Uses a := by
  induction h with
  | act a => exact ha.elim
  | seqLeft _ ih => exact ha.imp_left ih
  | seqSkip q => exact Or.inr ha
  | spawn p q => exact ha
  | joinLeft _ ih => exact ha.imp_left ih
  | joinRight _ ih => exact ha.imp_right ih
  | joinSkip => exact ha.elim
  | testTrue b p q => exact Or.inl ha
  | testFalse b p q => exact Or.inr ha
  | lock b => exact ha.elim

/-- The action of a step is one of the program. -/
theorem Step.uses_act {a : A} (h : Step p (.act a) p') : p.Uses a := by
  generalize he : Event.act a = e at h
  induction h with
  | act b =>
      cases he
      exact rfl
  | seqLeft _ ih => exact Or.inl (ih he)
  | joinLeft _ ih => exact Or.inl (ih he)
  | joinRight _ ih => exact Or.inr (ih he)
  | _ => cases he

/-- A program commutes with an action that all of its actions commute with. -/
theorem eval_exec {a : A} (hcomm : ∀ b, p.Uses b → ∀ s, exec b (exec a s) = exec a (exec b s))
    (s : σ) : p.eval exec (exec a s) = exec a (p.eval exec s) := by
  induction p generalizing s with
  | skip => rfl
  | act b => exact hcomm b rfl s
  | seq p q ihp ihq =>
      show q.eval exec (p.eval exec (exec a s)) = _
      rw [ihp fun b hb => hcomm b (Or.inl hb), ihq fun b hb => hcomm b (Or.inr hb)]
      rfl
  | spawn p q ihp ihq =>
      show q.eval exec (p.eval exec (exec a s)) = _
      rw [ihp fun b hb => hcomm b (Or.inl hb), ihq fun b hb => hcomm b (Or.inr hb)]
      rfl
  | join p q ihp ihq =>
      show q.eval exec (p.eval exec (exec a s)) = _
      rw [ihp fun b hb => hcomm b (Or.inl hb), ihq fun b hb => hcomm b (Or.inr hb)]
      rfl
  | test b p q _ ihq => exact ihq (fun b hb => hcomm b (Or.inr hb)) s
  | lock b => rfl

/-- What a step does to the data. -/
def Event.data (exec : A → σ → σ) : Event A B → σ → σ
  | .act a, s => exec a s
  | _, s => s

/-- **A step of a safe program** leaves a safe program. -/
theorem Step.safe (h : Step p e p') (hp : p.Safe exec) : p'.Safe exec := by
  induction h with
  | act a => exact trivial
  | seqLeft _ ih => exact ⟨ih hp.1, hp.2⟩
  | seqSkip q => exact hp.2
  | spawn p q => exact hp
  | joinLeft hst ih => exact ⟨ih hp.1, hp.2.1, fun a b ha hb => hp.2.2 a b (hst.uses ha) hb⟩
  | joinRight hst ih => exact ⟨hp.1, ih hp.2.1, fun a b ha hb => hp.2.2 a b ha (hst.uses hb)⟩
  | joinSkip => exact trivial
  | testTrue b p q => exact hp.1
  | testFalse b p q => exact hp.2.1
  | lock b => exact trivial

/-- **A step of a safe program** does not change what is computed in the end. -/
theorem Step.eval_eq (h : Step p e p') (hp : p.Safe exec) (s : σ) :
    p'.eval exec (e.data exec s) = p.eval exec s := by
  induction h generalizing s with
  | act a => rfl
  | seqLeft _ ih =>
      show Prog.eval exec _ (Prog.eval exec _ _) = _
      rw [ih hp.1]
      rfl
  | seqSkip q => rfl
  | spawn p q => rfl
  | joinLeft _ ih =>
      show Prog.eval exec _ (Prog.eval exec _ _) = _
      rw [ih hp.1]
      rfl
  | @joinRight p q q' e hst ih =>
      -- the step of the creator is moved behind the whole created thread
      have hmove : p.eval exec (e.data exec s) = e.data exec (p.eval exec s) := by
        cases e with
        | act a => exact eval_exec (fun b hb s => hp.2.2 b a hb hst.uses_act s) s
        | _ => rfl
      show q'.eval exec (p.eval exec (e.data exec s)) = q.eval exec (p.eval exec s)
      rw [hmove]
      exact ih hp.2.1 (p.eval exec s)
  | joinSkip => rfl
  | testTrue b p q => exact hp.2.2 s
  | testFalse b p q => rfl
  | lock b => rfl

end Prog

/-! ## Blocks of programs -/

namespace Prog

variable {A B σ : Type} {exec : A → σ → σ} {ps : List (Prog A B)}

/-- The programs of a list, one after the other. -/
def block (ps : List (Prog A B)) : Prog A B := ps.foldr .seq .skip

/-- A block uses what its programs use. -/
theorem uses_block {a : A} : (block ps).Uses a ↔ ∃ p ∈ ps, p.Uses a := by
  induction ps with
  | nil => simp [block, Uses]
  | cons p ps ih =>
      show p.Uses a ∨ (block ps).Uses a ↔ _
      rw [ih]
      simp

/-- A block of safe programs is safe. -/
theorem safe_block (h : ∀ p ∈ ps, p.Safe exec) : (block ps).Safe exec := by
  induction ps with
  | nil => trivial
  | cons p ps ih =>
      exact ⟨h p List.mem_cons_self, ih fun q hq => h q (List.mem_cons_of_mem p hq)⟩

/-- A block computes what its programs compute in turn. -/
theorem eval_block (s : σ) : (block ps).eval exec s = ps.foldl (fun s p => p.eval exec s) s := by
  induction ps generalizing s with
  | nil => rfl
  | cons p ps ih => exact ih (p.eval exec s)

end Prog

/-! ## Systems -/

/-- What the actions and the locked sections mean. -/
structure ForkJoin (A B σ κ : Type) where
  exec : A → σ → σ
  test : B → Bool → κ → κ → Prop
  lock : B → κ → κ → Prop

/-- A running program with its data and its control state. -/
structure ForkJoin.Config (A B σ κ : Type) where
  prog : Prog A B
  data : σ
  ctrl : κ

namespace ForkJoin

variable {A B σ κ : Type} (S : ForkJoin A B σ κ)

/-- What a step does to the control state. -/
def ctrl : Prog.Event A B → κ → κ → Prop
  | .test b o, c, c' => S.test b o c c'
  | .lock b, c, c' => S.lock b c c'
  | _, c, c' => c' = c

/-- A step of the system: some thread takes a step. -/
structure Step (x : Config A B σ κ) (e : Prog.Event A B) (y : Config A B σ κ) : Prop where
  prog : x.prog.Step e y.prog
  data : y.data = e.data S.exec x.data
  ctrl : S.ctrl e x.ctrl y.ctrl

variable {S} {x y : Config A B σ κ} {es : List (Prog.Event A B)}

/-- A run is no longer than the weight of its program. -/
theorem length_le_weight (h : Run S.Step x es y) : es.length + y.prog.weight ≤ x.prog.weight :=
  h.length_le (I := fun _ => True) (fun _ _ _ _ _ => trivial) (fun _ _ _ _ hst => hst.prog.weight_lt)
    trivial

/-- **Along a run of a safe program the result to come stays the same.** -/
theorem eval_eq_of_run (h : Run S.Step x es y) (hsafe : x.prog.Safe S.exec) :
    y.prog.Safe S.exec ∧ y.prog.eval S.exec y.data = x.prog.eval S.exec x.data := by
  refine h.preserves (I := fun z => z.prog.Safe S.exec ∧
    z.prog.eval S.exec z.data = x.prog.eval S.exec x.data) ?_ ⟨hsafe, rfl⟩
  rintro s e t ⟨hs, heq⟩ hst
  refine ⟨hst.prog.safe hs, ?_⟩
  rw [hst.data, hst.prog.eval_eq hs, heq]

/-- **Every complete run of a safe program ends in the sequential result.** -/
theorem data_eq_of_complete (h : Run S.Step x es y) (hsafe : x.prog.Safe S.exec)
    (hdone : y.prog = .skip) : y.data = x.prog.eval S.exec x.data := by
  have heq := (eval_eq_of_run h hsafe).2
  rw [hdone] at heq
  exact heq

/-- No locked section waits forever. -/
structure Total (S : ForkJoin A B σ κ) : Prop where
  test : ∀ b c, ∃ o c', S.test b o c c'
  lock : ∀ b c, ∃ c', S.lock b c c'

/-- A program that is not finished can take a step. -/
theorem Total.progress (hS : Total S) (p : Prog A B) (c : κ) :
    p = .skip ∨ ∃ e p' c', p.Step e p' ∧ S.ctrl e c c' := by
  induction p with
  | skip => exact Or.inl rfl
  | act a => exact Or.inr ⟨_, _, c, .act a, rfl⟩
  | seq p q ihp _ =>
      rcases ihp with rfl | ⟨e, p', c', hst, hc⟩
      · exact Or.inr ⟨_, _, c, .seqSkip q, rfl⟩
      · exact Or.inr ⟨e, _, c', .seqLeft hst, hc⟩
  | spawn p q _ _ => exact Or.inr ⟨_, _, c, .spawn p q, rfl⟩
  | join p q ihp ihq =>
      rcases ihp with rfl | ⟨e, p', c', hst, hc⟩
      · rcases ihq with rfl | ⟨e, q', c', hst, hc⟩
        · exact Or.inr ⟨_, _, c, .joinSkip, rfl⟩
        · exact Or.inr ⟨e, _, c', .joinRight hst, hc⟩
      · exact Or.inr ⟨e, _, c', .joinLeft hst, hc⟩
  | test b p q _ _ =>
      obtain ⟨o, c', hc⟩ := hS.test b c
      cases o with
      | true => exact Or.inr ⟨_, _, c', .testTrue b p q, hc⟩
      | false => exact Or.inr ⟨_, _, c', .testFalse b p q, hc⟩
  | lock b =>
      obtain ⟨c', hc⟩ := hS.lock b c
      exact Or.inr ⟨_, _, c', .lock b, hc⟩

/-- **Every run can be completed.** -/
theorem Total.exists_complete (hS : Total S) (x : Config A B σ κ) :
    ∃ es y, Run S.Step x es y ∧ y.prog = .skip := by
  refine Run.exists_complete (I := fun _ => True) (fun _ _ _ _ _ => trivial)
    (fun _ _ _ _ hst => hst.prog.weight_lt) (fun y _ => ?_) trivial
  rcases hS.progress y.prog y.ctrl with hdone | ⟨e, p', c', hst, hc⟩
  · exact Or.inl hdone
  · exact Or.inr ⟨e, ⟨p', e.data S.exec y.data, c'⟩, hst, rfl, hc⟩

end ForkJoin
