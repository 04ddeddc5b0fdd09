import FlashMemory.Soundness.RadixBookkeeping

/-! # What a match returns

The nodes from the root to a node spell some tokens and hold their slots. A node may be returned by `match_prefix`
if there is no tombstone above it, or if the nodes between it and the nearest tombstone cover the window.
-/

namespace FlashMemory

open List

/-- The tokens of a node, each with its slot and with the tombstone of the node. -/
def TreeNode.cells {τ : Type} (entry : TreeNode τ) : List ((τ × ℕ) × Bool) :=
  (entry.key.zip entry.value).map (·, entry.swaTombstone)

namespace RadixCache

section Spelling

variable {τ : Type}

/-- What the nodes from the root to the end of a node hold. -/
def cellsTo (cache : RadixCache τ) (node : ℕ) : List ((τ × ℕ) × Bool) :=
  (cache.path node).reverse.flatMap fun entry => (cache.nodes entry).cells

/-- Does the tree hold these tokens one after the other? -/
def Stores [DecidableEq τ] (cache : RadixCache τ) (cells : List ((τ × ℕ) × Bool)) : Prop :=
  ∃ node, cache.Reaches node ∧ cells <+: cache.cellsTo node

end Spelling

variable {τ : Type} [DecidableEq τ] {cfg : RadixConfig} {cache : RadixCache τ} {pos : ℕ → ℕ} {node : ℕ} {key : List τ}
  {slots : List ℕ}

namespace Shape

section

variable (shape : Shape cfg cache pos)
include shape

theorem spelling_cons (mem : node ∈ cache.fullLru) :
    cache.spelling node = cache.spelling (cache.nodes node).parent ++ (cache.nodes node).key := by
  rw [spelling, shape.path_cons mem, reverse_cons, flatMap_append, flatMap_singleton, spelling]

theorem stores_iff {cells : List ((τ × ℕ) × Bool)} :
    cache.Stores cells ↔ ∃ node, cache.InTree node ∧ cells <+: cache.cellsTo node :=
  exists_congr fun _ => and_congr_left' ⟨shape.inTree_of_reaches, shape.reaches⟩

theorem cellsTo_root : cache.cellsTo rootNode = [] := by
  rw [cellsTo, shape.path_root]
  rfl

theorem cellsTo_cons (mem : node ∈ cache.fullLru) :
    cache.cellsTo node = cache.cellsTo (cache.nodes node).parent ++ (cache.nodes node).cells := by
  rw [cellsTo, shape.path_cons mem, reverse_cons, flatMap_append, flatMap_singleton, cellsTo]

end

theorem cellsTo_split {child k : ℕ} (shape : Shape cfg cache pos) (splits : Splits cfg cache child k)
    (inTree : cache.InTree node) : (cache.split cfg child k).cellsTo node = cache.cellsTo node := by
  have shape' := shape.split splits
  have mem := splits.member
  refine shape.inTree_induction ?_ (fun node old above => ?_) inTree
  · rw [shape.cellsTo_root, shape'.cellsTo_root]
  · have kept : node ∈ (cache.split cfg child k).fullLru := (mem_fullLru_split mem).mpr (.inr old)
    rw [shape.cellsTo_cons old, shape'.cellsTo_cons kept]
    by_cases cut : node = child
    · -- the new node has the first cells and is right above
      rw [cut] at above ⊢
      have lengths : ((cache.nodes child).key.take k).length = ((cache.nodes child).value.take k).length := by
        rw [length_take, length_take, shape.valueLength child mem]
      rw [shape.split_child splits, shape'.cellsTo_cons ((mem_fullLru_split mem).mpr (.inl rfl)),
        shape.split_counter splits, above, append_assoc, TreeNode.cells, TreeNode.cells, ← map_append,
        ← zip_append lengths, take_append_drop, take_append_drop, TreeNode.cells]
    · rw [split_other cut (shape.ne_counter (.inr old)), above, TreeNode.cells, TreeNode.cells]

/-- After a merge the node stands for its child. -/
theorem cellsTo_merge {child start : ℕ} (shape : Shape cfg cache pos) (merges : Merges cache node child)
    (compactable : cache.Compactable node child) (inTree : cache.InTree start) :
    (cache.merge node child).cellsTo (if start = child then node else start) =
      cache.cellsTo (if start = node then child else start) := by
  have shape' := shape.merge merges
  obtain ⟨mem, below⟩ := shape.merges_child merges
  have apart : child ≠ node := fun same => shape.parent_ne mem (below.trans same.symm)
  refine shape.inTree_induction ?_ (fun start old above => ?_) inTree
  · rw [if_neg (shape.ne_root mem).symm, if_neg (shape.ne_root merges.member).symm, shape.cellsTo_root,
      shape'.cellsTo_root]
  · by_cases isChild : start = child
    · rw [isChild, below, if_neg apart.symm, if_pos rfl] at above
      rw [isChild, if_pos rfl, if_neg apart]
      exact above
    · rw [if_neg isChild, shape'.cellsTo_cons (mem_fullLru_merge.mpr ⟨old, isChild⟩)]
      by_cases isNode : start = node
      · rw [isNode, if_neg (shape.merges_parent_ne merges), if_neg (shape.parent_ne merges.member)] at above
        have cells : ((cache.merge node child).nodes node).cells = (cache.nodes node).cells ++
            (cache.nodes child).cells := by
          rw [merge_node, TreeNode.cells, TreeNode.cells, TreeNode.cells, compactable.2.2.1, ← map_append,
            ← zip_append (shape.valueLength node merges.member).symm]
        rw [isNode, if_pos rfl, cells, merge_node, above, shape.cellsTo_cons mem, below,
          shape.cellsTo_cons merges.member, append_assoc]
      · have notNode : (cache.nodes start).parent ≠ node := fun under => isChild (shape.merges_only merges old under)
        rw [if_neg notNode] at above
        rw [if_neg isNode, merge_other isNode, shape.cellsTo_cons old, ← above, TreeNode.cells, TreeNode.cells]
        simp only [shape.mem_grandchildren merges, old, true_and]

section

variable (shape : Shape cfg cache pos) (inTree : cache.InTree node)

include shape inTree

theorem length_spelling : (cache.spelling node).length = pos node := by
  refine shape.inTree_induction ?_ (fun node mem above => ?_) inTree
  · rw [spelling, shape.path_root, shape.rootPos]
    rfl
  · rw [shape.spelling_cons mem, length_append, above, shape.position node mem]

/-- Pieces at their positions make up the whole. -/
theorem spells_iff : pos node ≤ key.length ∧ Spells cache pos key node ↔ cache.spelling node <+: key := by
  refine shape.inTree_induction ?_ (fun node mem above => ?_) inTree
  · rw [spelling, shape.path_root, shape.rootPos, Spells, shape.path_root]
    simp
  · have length := shape.length_spelling (shape.parent node mem)
    have position := shape.position node mem
    rw [Spells, shape.path_cons mem, forall_mem_cons, shape.spelling_cons mem]
    constructor
    · rintro ⟨fits, piece, pieces⟩
      have start := above.mp ⟨by omega, pieces⟩
      rw [prefix_iff_eq_take, length_append, take_add, ← prefix_iff_eq_take.mp start, length, ← piece]
    · intro whole
      have start := (prefix_append _ _).trans whole
      obtain ⟨_, pieces⟩ := above.mpr start
      obtain ⟨rest, rfl⟩ := whole
      refine ⟨?_, ?_, pieces⟩
      · rw [length_append, length_append]
        omega
      · rw [← length, append_assoc, drop_left, take_left]

end

end Shape

/-- Reshaping a tree moves the borders of its nodes. -/
theorem Reshape.stores_iff {cache' : RadixCache τ} (reshape : Reshape cfg cache cache') (shape : Shape cfg cache pos)
    (cells : List ((τ × ℕ) × Bool)) : cache'.Stores cells ↔ cache.Stores cells := by
  obtain ⟨_, shape'⟩ := reshape.edit.shape shape
  rw [shape.stores_iff, shape'.stores_iff]
  cases reshape with
  | @touch full swa fullLinks swaLinks reorders =>
    have same := @sameTree_touch _ _ full swa fullLinks swaLinks reorders.fullPerm
    refine exists_congr fun node => and_congr same.inTree ?_
    rw [cellsTo, cellsTo, same.path]
  | @split child k splits =>
    have shape' := shape.split splits
    have mem := splits.member
    constructor
    · rintro ⟨node, inTree, starts⟩
      by_cases new : node = cache.counter
      · -- what ends at the new node goes on to the end of the old one
        have kept : child ∈ (cache.split cfg child k).fullLru := (mem_fullLru_split mem).mpr (.inr mem)
        have whole := shape'.cellsTo_cons kept
        rw [shape.cellsTo_split splits (.inr mem), shape.split_child splits] at whole
        exact ⟨child, .inr mem, (new ▸ starts).trans ⟨_, whole.symm⟩⟩
      · have old : cache.InTree node := inTree.imp id fun inside => ((mem_fullLru_split mem).mp inside).resolve_left new
        exact ⟨node, old, shape.cellsTo_split splits old ▸ starts⟩
    · rintro ⟨node, inTree, starts⟩
      exact ⟨node, Shape.inTree_split mem inTree, (shape.cellsTo_split splits inTree).symm ▸ starts⟩
  | @merge node child merges compactable =>
    obtain ⟨mem, below⟩ := shape.merges_child merges
    have stands := fun {start : ℕ} (inTree : cache.InTree start) => shape.cellsTo_merge merges compactable inTree
    constructor
    · rintro ⟨start, inTree, starts⟩
      have kept : cache.InTree start ∧ start ≠ child := by
        rcases inTree with root | inside
        · exact ⟨.inl root, fun same => shape.ne_root mem (same.symm.trans root)⟩
        · exact ⟨.inr (mem_fullLru_merge.mp inside).1, (mem_fullLru_merge.mp inside).2⟩
      have is := stands kept.1
      rw [if_neg kept.2] at is
      refine ⟨_, ?_, is ▸ starts⟩
      split_ifs
      · exact .inr mem
      · exact kept.1
    · rintro ⟨start, inTree, starts⟩
      by_cases isNode : start = node
      · have is := stands (.inr merges.member)
        rw [if_pos rfl, if_neg (below ▸ shape.parent_ne mem), shape.cellsTo_cons mem, below] at is
        refine ⟨node, .inr (mem_fullLru_merge.mpr ⟨merges.member, below ▸ shape.parent_ne mem⟩), ?_⟩
        exact (isNode ▸ starts).trans ⟨_, is.symm⟩
      · have is := stands inTree
        rw [if_neg isNode] at is
        refine ⟨_, ?_, is.symm ▸ starts⟩
        split_ifs with isChild
        · exact .inr (mem_fullLru_merge.mpr ⟨merges.member, below ▸ shape.parent_ne mem⟩)
        · exact Shape.inTree_merge inTree isChild

theorem Reshapes.stores_iff {cache' : RadixCache τ} (reshapes : Reshapes cfg cache cache') (shape : Shape cfg cache pos)
    (cells : List ((τ × ℕ) × Bool)) : cache'.Stores cells ↔ cache.Stores cells := by
  induction reshapes with
  | refl => rfl
  | tail earlier reshape ih =>
    obtain ⟨_, shape'⟩ := Edits.shape (Reshapes.edits earlier) shape
    exact (reshape.stores_iff shape' cells).trans ih

end RadixCache

namespace LockServer

variable {τ : Type} [DecidableEq τ]

end LockServer

end FlashMemory
