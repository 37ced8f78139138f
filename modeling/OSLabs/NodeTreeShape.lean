/-
# The tree of processes

The processes that some parent holds a `Node` for form a tree: the `path` of a process leads
from a child of the controller down to the process, every step of it from a parent to one of
its children.
-/
import OSLabs.NodeTree

namespace NodeTree

/-- The process ids of a list of children. -/
abbrev pids (children : List Node) : List ℕ := children.map Node.pid

/-- **The shape of the tree.** -/
structure Tree (w : World) : Prop where
  ctrlChild : ∀ c ∈ pids w.ctrl.children, c < w.count ∧ (w.proc c).path = [c]
  child : ∀ u, ∀ c ∈ pids (w.proc u).node.children,
    c < w.count ∧ (w.proc u).path ≠ [] ∧ (w.proc c).path = (w.proc u).path ++ [c]
  nodupCtrl : (pids w.ctrl.children).Nodup
  nodup : ∀ u, (pids (w.proc u).node.children).Nodup
  parent : ∀ v, (w.proc v).path ≠ [] → v < w.count ∧
    (((w.proc v).path = [v] ∧ v ∈ pids w.ctrl.children) ∨
      ∃ u < v, (w.proc u).path ≠ [] ∧ (w.proc v).path = (w.proc u).path ++ [v] ∧
        v ∈ pids (w.proc u).node.children)

namespace Tree

variable {w : World} {u v c p : ℕ}

/-- A path ends with its process. -/
theorem exists_path_eq (h : Tree w) (hv : (w.proc v).path ≠ []) :
    ∃ pre, (w.proc v).path = pre ++ [v] := by
  obtain ⟨-, ⟨heq, -⟩ | ⟨u, -, -, heq, -⟩⟩ := h.parent v hv
  · exact ⟨[], heq⟩
  · exact ⟨_, heq⟩

theorem self_mem_path (h : Tree w) (hv : (w.proc v).path ≠ []) : v ∈ (w.proc v).path := by
  obtain ⟨pre, heq⟩ := h.exists_path_eq hv
  simp [heq]

/-- The paths of the processes on a path are its initial parts. -/
theorem path_prefix_path (h : Tree w) (hv : (w.proc v).path ≠ []) (hp : p ∈ (w.proc v).path) :
    (w.proc p).path ≠ [] ∧ p ≤ v ∧ (w.proc p).path <+: (w.proc v).path := by
  induction v using Nat.strong_induction_on with
  | _ v ih =>
      obtain ⟨-, ⟨heq, -⟩ | ⟨u, huv, hu, heq, -⟩⟩ := h.parent v hv
      · rw [heq, List.mem_singleton] at hp
        subst hp
        exact ⟨hv, le_rfl, List.prefix_rfl⟩
      · rw [heq] at hp
        rcases List.mem_append.mp hp with hp | hp
        · obtain ⟨h₁, h₂, h₃⟩ := ih u huv hu hp
          rw [heq]
          exact ⟨h₁, by omega, h₃.trans (List.prefix_append _ _)⟩
        · obtain rfl := List.mem_singleton.mp hp
          exact ⟨hv, le_rfl, List.prefix_rfl⟩

/-- The process ids ascend along a path. -/
theorem path_pairwise (h : Tree w) (v : ℕ) : (w.proc v).path.Pairwise (· < ·) := by
  induction v using Nat.strong_induction_on with
  | _ v ih =>
      by_cases hv : (w.proc v).path = []
      · rw [hv]
        exact List.Pairwise.nil
      obtain ⟨-, ⟨heq, -⟩ | ⟨u, huv, hu, heq, -⟩⟩ := h.parent v hv
      · rw [heq]
        exact List.pairwise_singleton _ v
      · rw [heq]
        refine List.pairwise_append.mpr ⟨ih u huv, List.pairwise_singleton _ v, fun x hx y hy => ?_⟩
        obtain rfl := List.mem_singleton.mp hy
        have := (h.path_prefix_path hu hx).2.1
        omega

theorem path_nodup (h : Tree w) (v : ℕ) : (w.proc v).path.Nodup :=
  (h.path_pairwise v).imp fun hlt => Nat.ne_of_lt hlt

/-- A child on a path stands right behind its parent. -/
theorem path_eq_of_child (h : Tree w) (hv : (w.proc v).path ≠ [])
    (hc : c ∈ pids (w.proc p).node.children) (hcv : c ∈ (w.proc v).path) :
    ∃ pre post, (w.proc v).path = pre ++ p :: c :: post := by
  obtain ⟨-, hp, heq⟩ := h.child p c hc
  obtain ⟨-, -, post, hpost⟩ := h.path_prefix_path hv hcv
  obtain ⟨pre, hpre⟩ := h.exists_path_eq hp
  exact ⟨pre, post, by rw [← hpost, heq, hpre]; simp⟩

/-- A child of the controller on a path stands at its head. -/
theorem path_eq_of_ctrlChild (h : Tree w) (hv : (w.proc v).path ≠ [])
    (hc : c ∈ pids w.ctrl.children) (hcv : c ∈ (w.proc v).path) :
    ∃ post, (w.proc v).path = c :: post := by
  obtain ⟨-, -, post, hpost⟩ := h.path_prefix_path hv hcv
  rw [(h.ctrlChild c hc).2] at hpost
  exact ⟨post, hpost.symm⟩

/-- A path starts with a child of the controller. -/
theorem exists_head (h : Tree w) (hv : (w.proc v).path ≠ []) :
    ∃ c post, (w.proc v).path = c :: post ∧ c ∈ pids w.ctrl.children := by
  induction v using Nat.strong_induction_on with
  | _ v ih =>
      obtain ⟨-, ⟨heq, hmem⟩ | ⟨u, huv, hu, heq, -⟩⟩ := h.parent v hv
      · exact ⟨v, [], heq, hmem⟩
      · obtain ⟨c, post, hpath, hmem⟩ := ih u huv hu
        exact ⟨c, post ++ [v], by rw [heq, hpath]; rfl, hmem⟩

/-- Behind every process of a path but the last one stands one of its children. -/
theorem exists_next (h : Tree w) (hv : (w.proc v).path ≠ []) (hp : p ∈ (w.proc v).path)
    (hne : p ≠ v) :
    ∃ pre c post, (w.proc v).path = pre ++ p :: c :: post ∧ c ∈ pids (w.proc p).node.children := by
  induction v using Nat.strong_induction_on with
  | _ v ih =>
      obtain ⟨-, ⟨heq, -⟩ | ⟨u, huv, hu, heq, hmem⟩⟩ := h.parent v hv
      · rw [heq, List.mem_singleton] at hp
        exact absurd hp hne
      · rw [heq] at hp
        have hp' : p ∈ (w.proc u).path := (List.mem_append.mp hp).resolve_right (by simpa using hne)
        by_cases hpu : p = u
        · subst hpu
          obtain ⟨pre, hpre⟩ := h.exists_path_eq hu
          exact ⟨pre, v, [], by rw [heq, hpre]; simp, hmem⟩
        · obtain ⟨pre, c, post, hpath, hc⟩ := ih u huv hu hp' hpu
          exact ⟨pre, c, post ++ [v], by rw [heq, hpath]; simp, hc⟩

/-- A child of a process on a path is the next process of the path, or not on it. -/
theorem eq_next_of_child {pre post : List ℕ} (h : Tree w) (hv : (w.proc v).path ≠ [])
    (hpath : (w.proc v).path = pre ++ p :: c :: post) {d : ℕ}
    (hd : d ∈ pids (w.proc p).node.children) (hdv : d ∈ (w.proc v).path) : d = c := by
  obtain ⟨pre', post', hpath'⟩ := h.path_eq_of_child hv hd hdv
  have hnd := h.path_nodup v
  rw [hpath] at hpath' hnd
  obtain ⟨-, htail, hcross⟩ := List.nodup_append.mp hnd
  have hpre : p ∉ pre := fun hmem => hcross p hmem p (by simp) rfl
  have heq := (List.append_cons_inj_of_notMem hpre (List.nodup_cons.mp htail).1).mp hpath'
  exact (List.cons.inj heq.2.2).1.symm

/-- The children of a process are not on its own path. -/
theorem child_notMem_path (h : Tree w) (hv : (w.proc v).path ≠ [])
    (hc : c ∈ pids (w.proc v).node.children) : c ∉ (w.proc v).path := by
  intro hmem
  obtain ⟨pre, post, hpath⟩ := h.path_eq_of_child hv hc hmem
  have hlt := h.path_pairwise v
  rw [hpath] at hlt
  have hvc : v < c := (List.pairwise_cons.mp (List.pairwise_append.mp hlt).2.1).1 c (by simp)
  have := (h.path_prefix_path hv hmem).2.1
  omega

/-- The tree only depends on the children, the paths and the number of processes. -/
theorem congr {w' : World} (h : Tree w) (hcount : w'.count = w.count)
    (hctrl : w'.ctrl.children = w.ctrl.children)
    (hchildren : ∀ v, (w'.proc v).node.children = (w.proc v).node.children)
    (hpath : ∀ v, (w'.proc v).path = (w.proc v).path) : Tree w' := by
  obtain ⟨h₁, h₂, h₃, h₄, h₅⟩ := h
  refine ⟨?_, ?_, ?_, ?_, ?_⟩
  all_goals
    simp only [hcount, hctrl, hchildren, hpath]
    assumption

end Tree

end NodeTree
