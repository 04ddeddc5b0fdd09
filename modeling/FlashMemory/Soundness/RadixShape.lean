import FlashMemory.Model.RadixCache

/-! # The shape of the radix tree

`full_lru_list` holds the nodes below the root, every node is the child of its parent under the first page of its
key, and `swa_lru_list` holds those that are not tombstones. The position of a node is the number of tokens up to its
end. Positions make the parent pointers a tree: they fall towards the root.
-/

namespace FlashMemory

namespace RadixCache

variable {τ : Type} [DecidableEq τ] {cfg : RadixConfig} {cache : RadixCache τ} {pos : ℕ → ℕ}

/-- The root, or a node that `full_lru_list` holds. -/
def InTree (cache : RadixCache τ) (node : ℕ) : Prop := node = rootNode ∨ node ∈ cache.fullLru

/-- A tree of page aligned keys, with the position of every node. -/
structure Shape (cfg : RadixConfig) (cache : RadixCache τ) (pos : ℕ → ℕ) : Prop where
  rootPos : pos rootNode = 0
  rootAlive : (cache.nodes rootNode).swaTombstone = false
  rootFresh : rootNode < cache.counter
  rootAway : rootNode ∉ cache.fullLru
  nodup : cache.fullLru.Nodup
  fresh : ∀ node ∈ cache.fullLru, node < cache.counter
  parent : ∀ node ∈ cache.fullLru, cache.InTree (cache.nodes node).parent
  children : ∀ node, cache.InTree node → ∀ key child, (cache.nodes node).children.get? key = some child ↔
    child ∈ cache.fullLru ∧ (cache.nodes child).parent = node ∧ childKey cfg (cache.nodes child).key = key
  keyPos : ∀ node ∈ cache.fullLru, 0 < (cache.nodes node).key.length
  aligned : ∀ node ∈ cache.fullLru, cfg.pageSize ∣ (cache.nodes node).key.length
  valueLength : ∀ node ∈ cache.fullLru, (cache.nodes node).value.length = (cache.nodes node).key.length
  position : ∀ node ∈ cache.fullLru, pos node = pos (cache.nodes node).parent + (cache.nodes node).key.length
  swaNodup : cache.swaLru.Nodup
  swaMember : ∀ node, node ∈ cache.swaLru ↔ node ∈ cache.fullLru ∧ (cache.nodes node).swaTombstone = false

namespace Shape

variable {node child : ℕ}

section

variable (shape : Shape cfg cache pos)

include shape

theorem ne_root (mem : node ∈ cache.fullLru) : node ≠ rootNode :=
  fun equal => shape.rootAway (equal ▸ mem)

private theorem inTree_lt (inTree : cache.InTree node) : node < cache.counter := by
  rcases inTree with rfl | mem
  · exact shape.rootFresh
  · exact shape.fresh node mem

theorem ne_counter (inTree : cache.InTree node) : node ≠ cache.counter :=
  (shape.inTree_lt inTree).ne

theorem counter_not_mem : cache.counter ∉ cache.fullLru :=
  fun mem => lt_irrefl _ (shape.fresh _ mem)

theorem counter_not_mem_swa : cache.counter ∉ cache.swaLru :=
  fun mem => shape.counter_not_mem ((shape.swaMember _).mp mem).1

section

variable (mem : node ∈ cache.fullLru)
include mem

theorem parent_pos_lt : pos (cache.nodes node).parent < pos node := by
  have positive := shape.keyPos node mem
  rw [shape.position node mem]
  omega

theorem parent_ne : (cache.nodes node).parent ≠ node :=
  fun equal => absurd (shape.parent_pos_lt mem) (by rw [equal]; exact lt_irrefl _)

/-- A node is the child of its parent. -/
theorem get?_parent :
    (cache.nodes (cache.nodes node).parent).children.get? (childKey cfg (cache.nodes node).key) = some node :=
  (shape.children _ (shape.parent node mem) _ _).mpr ⟨mem, rfl, rfl⟩

end

theorem mem_values (inTree : cache.InTree node) :
    child ∈ (cache.nodes node).children.values ↔ child ∈ cache.fullLru ∧ (cache.nodes child).parent = node := by
  constructor
  · intro mem
    obtain ⟨⟨key, _⟩, entry, rfl⟩ := List.mem_map.mp mem
    have bound := (OrderedDict.get?_eq_some_iff _ _ _).mpr entry
    exact ⟨((shape.children node inTree _ _).mp bound).1, ((shape.children node inTree _ _).mp bound).2.1⟩
  · rintro ⟨mem, rfl⟩
    exact OrderedDict.mem_values_of_get? (shape.get?_parent mem)

theorem values_nil (inTree : cache.InTree node) :
    (cache.nodes node).children.values = [] ↔ ∀ child ∈ cache.fullLru, (cache.nodes child).parent ≠ node := by
  rw [List.eq_nil_iff_forall_not_mem]
  constructor
  · intro none child mem equal
    exact none child ((shape.mem_values inTree).mpr ⟨mem, equal⟩)
  · intro none child mem
    exact none child ((shape.mem_values inTree).mp mem).1 ((shape.mem_values inTree).mp mem).2

/-- What the children reach is in the tree. -/
theorem inTree_of_reaches (reached : cache.Reaches node) : cache.InTree node := by
  induction reached with
  | root => exact .inl rfl
  | child _ bound ih => exact .inr ((shape.children _ ih _ _).mp bound).1

/-! ## Paths -/

/-- The path is the walk to the root, within the tree. -/
theorem climb_path (inTree : cache.InTree node) :
    Climb rootNode (fun node => (cache.nodes node).parent) node (cache.path node) ∧
    cache.path node ⊆ cache.fullLru := by
  obtain ⟨above, walk, within⟩ :=
    @Climb.of_closed _ rootNode (fun node => (cache.nodes node).parent) node pos cache.fullLru
      (fun entry mem => ⟨shape.ne_root mem, shape.parent entry mem⟩)
    (fun entry mem => shape.parent_pos_lt mem) inTree
  have distinct := walk.nodup fun entry mem => shape.parent_pos_lt (within mem)
  have short : above.length ≤ cache.fullLru.length := (List.subperm_of_subset distinct within).length_le
  have whole : cache.path node = above := walk.climb_eq short
  rw [whole]
  exact ⟨walk, within⟩

theorem path_eq (inTree : cache.InTree node) {above : List ℕ}
    (walk : Climb rootNode (fun node => (cache.nodes node).parent) node above) : cache.path node = above :=
  (shape.climb_path inTree).1.unique walk

theorem path_root : cache.path rootNode = [] := shape.path_eq (.inl rfl) .root

theorem path_cons (mem : node ∈ cache.fullLru) : cache.path node = node :: cache.path (cache.nodes node).parent :=
  shape.path_eq (.inr mem) (.step (shape.ne_root mem) (shape.climb_path (shape.parent node mem)).1)

/-- Induction from the root down. -/
@[elab_as_elim]
theorem inTree_induction {motive : ℕ → Prop} (root : motive rootNode)
    (child : ∀ node ∈ cache.fullLru, motive (cache.nodes node).parent → motive node) (inTree : cache.InTree node) :
    motive node := by
  obtain ⟨walk, within⟩ := shape.climb_path inTree
  generalize cache.path node = above at walk within
  clear inTree
  induction walk with
  | root => exact root
  | step _ _ ih =>
    exact child _ (within (List.mem_cons_self ..)) (ih fun entry passed => within (List.mem_cons_of_mem _ passed))

theorem falls (inTree : cache.InTree node) : ∀ entry ∈ cache.path node, pos (cache.nodes entry).parent < pos entry :=
  fun _ mem => shape.parent_pos_lt ((shape.climb_path inTree).2 mem)

/-- What is passed ends before the node. -/
theorem pos_le (inTree : cache.InTree node) {entry : ℕ} (passed : entry ∈ cache.path node) : pos entry ≤ pos node :=
  (shape.climb_path inTree).1.height_le (shape.falls inTree) passed

/-- The root, or passed by a walk, as is the start of the walk. -/
theorem self_above (inTree : cache.InTree node) : node = rootNode ∨ node ∈ cache.path node :=
  inTree.imp_right fun mem => (shape.climb_path (.inr mem)).1.self_mem (shape.ne_root mem)

theorem self_passed (mem : node ∈ cache.fullLru) : node ∈ cache.path node :=
  (shape.self_above (.inr mem)).resolve_left (shape.ne_root mem)

theorem depth_eq (inTree : cache.InTree node) : cache.depth node = pos node := by
  refine shape.inTree_induction ?_ (fun node mem above => ?_) inTree
  · rw [depth, shape.path_root, shape.rootPos]
    rfl
  · rw [depth, shape.path_cons mem, List.foldr_cons, ← depth, above, shape.position node mem, Nat.add_comm]

end

end Shape

/-! ## Node by node -/

/-- What the shape says about one node. -/
structure Placed (cfg : RadixConfig) (cache : RadixCache τ) (pos : ℕ → ℕ) (node : ℕ) : Prop where
  fresh : node < cache.counter
  parent : cache.InTree (cache.nodes node).parent
  keyPos : 0 < (cache.nodes node).key.length
  aligned : cfg.pageSize ∣ (cache.nodes node).key.length
  valueLength : (cache.nodes node).value.length = (cache.nodes node).key.length
  position : pos node = pos (cache.nodes node).parent + (cache.nodes node).key.length

theorem Shape.of_placed (rootPos : pos rootNode = 0) (rootAlive : (cache.nodes rootNode).swaTombstone = false)
    (rootFresh : rootNode < cache.counter) (rootAway : rootNode ∉ cache.fullLru) (nodup : cache.fullLru.Nodup)
    (placed : ∀ node ∈ cache.fullLru, Placed cfg cache pos node)
    (children : ∀ node, cache.InTree node → ∀ key child, (cache.nodes node).children.get? key = some child ↔
      child ∈ cache.fullLru ∧ (cache.nodes child).parent = node ∧ childKey cfg (cache.nodes child).key = key)
    (swaNodup : cache.swaLru.Nodup)
    (swaMember : ∀ node, node ∈ cache.swaLru ↔ node ∈ cache.fullLru ∧ (cache.nodes node).swaTombstone = false) :
    Shape cfg cache pos :=
  ⟨rootPos, rootAlive, rootFresh, rootAway, nodup, fun node mem => (placed node mem).fresh,
    fun node mem => (placed node mem).parent, children, fun node mem => (placed node mem).keyPos,
    fun node mem => (placed node mem).aligned, fun node mem => (placed node mem).valueLength,
    fun node mem => (placed node mem).position, swaNodup, swaMember⟩

/-- A node that keeps its key, its slots and its place. -/
theorem Shape.kept {cache' : RadixCache τ} {pos' : ℕ → ℕ} {node : ℕ} (shape : Shape cfg cache pos)
    (old : node ∈ cache.fullLru)
    (counter : cache.counter ≤ cache'.counter) (key : (cache'.nodes node).key = (cache.nodes node).key)
    (length : (cache'.nodes node).value.length = (cache.nodes node).value.length)
    (parent : cache'.InTree (cache'.nodes node).parent)
    (start : pos' (cache'.nodes node).parent = pos (cache.nodes node).parent) (ends : pos' node = pos node) :
    Placed cfg cache' pos' node where
  fresh := (shape.fresh node old).trans_le counter
  parent := parent
  keyPos := key ▸ shape.keyPos node old
  aligned := key ▸ shape.aligned node old
  valueLength := by rw [length, key, shape.valueLength node old]
  position := by rw [ends, start, key, shape.position node old]

/-! ## Changes that leave the tree as it is -/

/-- The same nodes with the same keys below the same parents; the order of the lists may differ. -/
structure SameTree (cache cache' : RadixCache τ) : Prop where
  members : cache'.fullLru.Perm cache.fullLru
  counter : cache'.counter = cache.counter
  children : ∀ node, (cache'.nodes node).children = (cache.nodes node).children
  parent : ∀ node, (cache'.nodes node).parent = (cache.nodes node).parent
  key : ∀ node, (cache'.nodes node).key = (cache.nodes node).key

namespace SameTree

variable {cache' : RadixCache τ} {node : ℕ}

variable (same : SameTree cache cache')
include same

section

omit [DecidableEq τ]

theorem mem : node ∈ cache'.fullLru ↔ node ∈ cache.fullLru := same.members.mem_iff

theorem inTree : cache'.InTree node ↔ cache.InTree node := or_congr_right same.mem

theorem path : cache'.path node = cache.path node := by
  unfold RadixCache.path
  rw [same.members.length_eq, funext same.parent]

end

theorem shape (shape : Shape cfg cache pos)
    (lengths : ∀ node ∈ cache.fullLru, (cache'.nodes node).value.length = (cache.nodes node).value.length)
    (rootAlive : (cache'.nodes rootNode).swaTombstone = false) (swaNodup : cache'.swaLru.Nodup)
    (swaMember : ∀ node, node ∈ cache'.swaLru ↔ node ∈ cache.fullLru ∧ (cache'.nodes node).swaTombstone = false) :
    Shape cfg cache' pos := by
  apply Shape.of_placed shape.rootPos rootAlive (same.counter ▸ shape.rootFresh)
    (fun mem => shape.rootAway (same.mem.mp mem)) (same.members.nodup_iff.mpr shape.nodup)
  case placed =>
    intro node mem
    have old := same.mem.mp mem
    exact shape.kept old same.counter.ge (same.key node) (lengths node old)
      (same.inTree.mpr ((same.parent node).symm ▸ shape.parent node old)) (by rw [same.parent]) rfl
  case children =>
    intro node inTree key child
    rw [same.children, same.mem, same.parent, same.key]
    exact shape.children node (same.inTree.mp inTree) key child
  case swaNodup => exact swaNodup
  case swaMember => exact fun node => by rw [swaMember, same.mem]

end SameTree

end RadixCache

end FlashMemory
