import Mathlib.Data.List.Nodup
import Mathlib.Data.List.Perm.Subperm
import Mathlib.Data.List.Infix

/-! # Trees given by parent pointers

A node of such a tree is reached from below: one follows the parent pointers until the root. `climb` is that
walk with a bound on its length, and `Climb` says which walk it is. The root itself is not part of the walk.
Three changes of the pointers are described by what they do to every walk: a node is put above another one,
a node is merged into its parent, and nodes off the walk change.
-/

namespace FlashMemory

open List

variable {ι : Type*}

/-- The walk from a node to the root, without the root. -/
inductive Climb (root : ι) (parent : ι → ι) : ι → List ι → Prop
  | root : Climb root parent root []
  | step {node : ι} {above : List ι} :
      node ≠ root → Climb root parent (parent node) above → Climb root parent node (node :: above)

/-- The walk, of at most the given number of steps. -/
def climb [DecidableEq ι] (root : ι) (parent : ι → ι) : ℕ → ι → List ι
  | 0, _ => []
  | fuel + 1, node => if node = root then [] else node :: climb root parent fuel (parent node)

namespace Climb

variable {root : ι} {parent parent' : ι → ι} {node other : ι} {above : List ι}

theorem cons_iff {first : ι} :
    Climb root parent node (first :: above) ↔ first = node ∧ node ≠ root ∧ Climb root parent (parent node) above := by
  constructor
  · intro walk
    cases walk with
    | step away rest => exact ⟨rfl, away, rest⟩
  · rintro ⟨rfl, away, rest⟩
    exact .step away rest

section

variable (walk : Climb root parent node above)

include walk

/-- There is only one walk from a node. -/
theorem unique {other : List ι} (walk' : Climb root parent node other) : above = other := by
  induction walk generalizing other with
  | root =>
    cases walk' with
    | root => rfl
    | step away _ => exact absurd rfl away
  | step away rest ih =>
    cases walk' with
    | root => exact absurd rfl away
    | step _ rest' => rw [ih rest']

theorem root_not_mem : root ∉ above := by
  induction walk with
  | root => exact not_mem_nil
  | step away rest ih => simp only [mem_cons, not_or]; exact ⟨away.symm, ih⟩

/-- A bound that is long enough gives the whole walk. -/
theorem climb_eq [DecidableEq ι] {fuel : ℕ} (enough : above.length ≤ fuel) : climb root parent fuel node = above := by
  induction walk generalizing fuel with
  | root => cases fuel <;> simp [climb]
  | step away rest ih =>
    cases fuel with
    | zero => exact absurd enough (by simp)
    | succ fuel =>
      rw [climb, if_neg away, ih]
      simpa using enough

theorem self_mem (away : node ≠ root) : node ∈ above := by
  cases walk with
  | root => exact absurd rfl away
  | step _ _ => exact mem_cons_self ..

/-- The walk from a node that is passed is the rest of the walk. -/
theorem drop (passed : other ∈ above) :
    ∃ below rest, above = below ++ rest ∧ other ∉ below ∧ Climb root parent other rest := by
  induction walk with
  | root => exact absurd passed not_mem_nil
  | @step node above away walk ih =>
    by_cases here : other = node
    · subst here
      exact ⟨[], _, rfl, not_mem_nil, .step away walk⟩
    · obtain ⟨below, rest, split, absent, walk'⟩ := ih ((mem_cons.mp passed).resolve_left here)
      refine ⟨node :: below, rest, by rw [split, cons_append], ?_, walk'⟩
      simp only [mem_cons, not_or]
      exact ⟨here, absent⟩

/-- What is above a node that is passed is passed as well. -/
theorem subset_of_mem {rest : List ι} (passed : other ∈ above) (walk' : Climb root parent other rest) :
    rest ⊆ above := by
  obtain ⟨below, rest', rfl, _, walk''⟩ := walk.drop passed
  rw [walk'.unique walk'']
  exact subset_append_right ..

theorem parent_mem (passed : other ∈ above) (away : parent other ≠ root) : parent other ∈ above := by
  obtain ⟨_, _, rfl, _, walk'⟩ := walk.drop passed
  cases walk' with
  | root => exact absurd passed (by simpa using walk.root_not_mem)
  | step _ rest => exact mem_append_right _ (mem_cons_of_mem _ (rest.self_mem away))

/-- Below every node that is passed, except the first, there is a node that is passed. -/
theorem exists_child (passed : other ∈ above) (later : other ≠ node) : ∃ child ∈ above, parent child = other := by
  induction walk with
  | root => exact absurd passed not_mem_nil
  | @step node above away walk ih =>
    have above_mem := (mem_cons.mp passed).resolve_left later
    by_cases next : other = parent node
    · exact ⟨node, mem_cons_self .., next.symm⟩
    · obtain ⟨child, mem, below⟩ := ih above_mem next
      exact ⟨child, mem_cons_of_mem _ mem, below⟩

/-- The last node of a walk is below the root. -/
theorem exists_last (away : node ≠ root) : ∃ child ∈ above, parent child = root := by
  induction walk with
  | root => exact absurd rfl away
  | @step node above _ _ ih =>
    by_cases last : parent node = root
    · exact ⟨node, mem_cons_self .., last⟩
    · obtain ⟨child, mem, below⟩ := ih last
      exact ⟨child, mem_cons_of_mem _ mem, below⟩

end

/-! ## Heights -/

section Heights

variable {height : ι → ℕ}

section

variable (walk : Climb root parent node above) (falls : ∀ entry ∈ above, height (parent entry) < height entry)

include walk falls

/-- Along a walk on which the height falls, the height of every node is at most that of the start. -/
theorem height_le (passed : other ∈ above) : height other ≤ height node := by
  induction walk with
  | root => exact absurd passed not_mem_nil
  | @step node above away walk ih =>
    rcases mem_cons.mp passed with rfl | passed
    · exact le_rfl
    · exact (ih (forall_mem_cons.mp falls).2 passed).trans
        (falls node (mem_cons_self ..)).le

theorem nodup : above.Nodup := by
  induction walk with
  | root => exact nodup_nil
  | @step node above away walk ih =>
    have falls' : ∀ entry ∈ above, height (parent entry) < height entry :=
      (forall_mem_cons.mp falls).2
    refine nodup_cons.mpr ⟨fun again => ?_, ih falls'⟩
    have low := walk.height_le falls' again
    have high := falls node (mem_cons_self ..)
    omega

variable {first second : ι} (first_mem : first ∈ above) (second_mem : second ∈ above)
include first_mem second_mem

/-- Of two nodes on one walk one is above the other. -/
theorem comparable :
    first = second ∨ height first ≤ height (parent second) ∨ height second ≤ height (parent first) := by
  induction walk with
  | root => exact absurd first_mem not_mem_nil
  | @step node above away walk ih =>
    have falls' : ∀ entry ∈ above, height (parent entry) < height entry :=
      (forall_mem_cons.mp falls).2
    rcases mem_cons.mp first_mem with here | first_mem
    · rcases mem_cons.mp second_mem with there | second_mem
      · exact .inl (here.trans there.symm)
      · exact .inr (.inr (here ▸ walk.height_le falls' second_mem))
    · rcases mem_cons.mp second_mem with here | second_mem
      · exact .inr (.inl (here ▸ walk.height_le falls' first_mem))
      · exact ih falls' first_mem second_mem

/-- A walk passes at most one node below a given one. -/
theorem eq_of_parent_eq (same : parent first = parent second) : first = second := by
  rcases walk.comparable falls first_mem second_mem with equal | below | below
  · exact equal
  · have := falls first first_mem
    rw [same] at this
    omega
  · have := falls second second_mem
    rw [← same] at this
    omega

end

/-- From a set of nodes that is closed under parents the root is reached. -/
theorem of_closed {nodes : List ι}
    (closed : ∀ entry ∈ nodes, entry ≠ root ∧ (parent entry = root ∨ parent entry ∈ nodes))
    (falls : ∀ entry ∈ nodes, height (parent entry) < height entry) (start : node = root ∨ node ∈ nodes) :
    ∃ above, Climb root parent node above ∧ above ⊆ nodes := by
  induction high : height node using Nat.strong_induction_on generalizing node with
  | _ bound ih =>
    rcases start with rfl | mem
    · exact ⟨[], .root, nil_subset _⟩
    · have lower := falls node mem
      obtain ⟨above, walk, within⟩ := ih (height (parent node)) (by omega) (closed node mem).2 rfl
      exact ⟨node :: above, .step (closed node mem).1 walk, cons_subset.mpr ⟨mem, within⟩⟩

end Heights

/-! ## Changing the pointers -/

/-- Pointers off the walk do not matter. -/
theorem congr (walk : Climb root parent node above) (same : ∀ entry ∈ above, parent' entry = parent entry) :
    Climb root parent' node above := by
  induction walk with
  | root => exact .root
  | step away rest ih =>
    refine .step away ?_
    rw [same _ (mem_cons_self ..)]
    exact ih (forall_mem_cons.mp same).2

/-- A new node is put between a node and its parent. -/
theorem insertAbove [DecidableEq ι] {child upper : ι} (walk : Climb root parent node above) (away : upper ≠ root)
    (fresh : upper ∉ above) (child_parent : parent' child = upper) (upper_parent : parent' upper = parent child)
    (same : ∀ entry ∈ above, entry ≠ child → parent' entry = parent entry) :
    Climb root parent' node (above.flatMap fun entry => if entry = child then [child, upper] else [entry]) := by
  induction walk with
  | root => exact .root
  | @step node above away' walk ih =>
    have rest := ih (fun mem => fresh (mem_cons_of_mem _ mem))
      (forall_mem_cons.mp same).2
    rw [flatMap_cons]
    by_cases here : node = child
    · subst here
      rw [if_pos rfl]
      refine .step away' ?_
      rw [child_parent]
      refine .step away ?_
      rwa [upper_parent]
    · rw [if_neg here]
      refine .step away' ?_
      rwa [same node (mem_cons_self ..) here]

theorem mem_insertAbove [DecidableEq ι] {child upper entry : ι} :
    entry ∈ above.flatMap (fun entry => if entry = child then [child, upper] else [entry]) ↔
      entry ∈ above ∨ entry = upper ∧ child ∈ above := by
  simp only [mem_flatMap]
  constructor
  · rintro ⟨origin, mem, image⟩
    split_ifs at image with here
    · subst here
      rcases mem_pair.mp image with rfl | rfl
      · exact .inl mem
      · exact .inr ⟨rfl, mem⟩
    · exact .inl (mem_singleton.mp image ▸ mem)
  · rintro (mem | ⟨rfl, mem⟩)
    · exact ⟨entry, mem, by split_ifs <;> simp_all⟩
    · exact ⟨child, mem, by simp⟩

/-- A node is merged into its parent. A walk that starts at it now starts at the parent. -/
theorem contract [DecidableEq ι] {upper child : ι} (walk : Climb root parent node above) (away : child ≠ root)
    (below : parent child = upper) (proper : upper ≠ child)
    (moved : ∀ entry ∈ above, entry ≠ child → parent' entry = if parent entry = child then upper else parent entry) :
    Climb root parent' (if node = child then upper else node) (above.filter fun entry => entry ≠ child) := by
  induction walk with
  | root =>
    rw [if_neg away.symm]
    exact .root
  | @step node above away' walk ih =>
    have rest := ih (forall_mem_cons.mp moved).2
    by_cases here : node = child
    · subst here
      rw [if_pos rfl, filter_cons_of_neg (by simp)]
      rwa [below, if_neg proper] at rest
    · rw [if_neg here, filter_cons_of_pos (by simpa using here)]
      refine .step away' ?_
      rwa [moved node (mem_cons_self ..) here]

end Climb

end FlashMemory
