import FlashMemory.Soundness.RadixShape

/-! # Changes of the radix tree

The four changes that the operations make to the tree: a node is split, an only child is merged into its
parent, a node is added and a leaf is deleted. Each keeps the shape, with new positions where a node is new or
has become longer.
-/

namespace FlashMemory

open List Function OrderedDict

namespace RadixCache

variable {τ : Type} [DecidableEq τ] {cfg : RadixConfig} {cache : RadixCache τ} {pos : ℕ → ℕ}

/-! ## Splitting a node -/

section Split

variable {child k : ℕ} {node : ℕ}

/-- What a split needs to know about its node. -/
structure Splits (cfg : RadixConfig) (cache : RadixCache τ) (child k : ℕ) : Prop where
  member : child ∈ cache.fullLru
  pos : 0 < k
  short : k < (cache.nodes child).key.length
  aligned : cfg.pageSize ∣ k

theorem Shape.split_child (shape : Shape cfg cache pos) (splits : Splits cfg cache child k) :
    (cache.split cfg child k).nodes child =
      { cache.nodes child with
        parent := cache.counter
        key := (cache.nodes child).key.drop k
        value := (cache.nodes child).value.drop k
        swaUuid := none } := by
  simp [split, (shape.parent_ne splits.member).symm]

theorem Shape.split_counter (shape : Shape cfg cache pos) (splits : Splits cfg cache child k) :
    (cache.split cfg child k).nodes cache.counter =
      { cache.nodes child with
        children := empty.set (childKey cfg ((cache.nodes child).key.drop k)) child
        key := (cache.nodes child).key.take k
        value := (cache.nodes child).value.take k } := by
  have old := shape.ne_counter (shape.parent child splits.member)
  have fresh := shape.ne_counter (.inr splits.member)
  simp [split, old.symm, fresh.symm]

theorem split_other (notChild : node ≠ child) (notNew : node ≠ cache.counter) :
    (cache.split cfg child k).nodes node =
      { cache.nodes node with
        children := if node = (cache.nodes child).parent then
          (cache.nodes node).children.set (childKey cfg (cache.nodes child).key) cache.counter
          else (cache.nodes node).children } := by
  by_cases parent : node = (cache.nodes child).parent
  · subst parent
    simp [split]
  · simp [split, notChild, notNew, parent]

theorem mem_insertMru {lru : List ℕ} {node other : ℕ} : other ∈ insertMru lru node ↔ other = node ∨ other ∈ lru := by
  by_cases same : other = node <;> simp [insertMru, same]

theorem insertMru_nodup {lru : List ℕ} (nodup : lru.Nodup) : (insertMru lru node).Nodup :=
  nodup_cons.mpr ⟨by simp, nodup.filter _⟩

theorem mem_fullLru_split (mem : child ∈ cache.fullLru) :
    node ∈ (cache.split cfg child k).fullLru ↔ node = cache.counter ∨ node ∈ cache.fullLru := by
  by_cases same : node = child
  · simp [split, mem_insertMru, same, mem]
  · simp [split, mem_insertMru, same]

theorem mem_swaLru_split (mem : (cache.nodes child).swaTombstone = false → child ∈ cache.swaLru) :
    node ∈ (cache.split cfg child k).swaLru ↔
      (cache.nodes child).swaTombstone = false ∧ node = cache.counter ∨ node ∈ cache.swaLru := by
  by_cases dead : (cache.nodes child).swaTombstone
  · simp [split, dead]
  · have := mem (by simpa using dead)
    by_cases same : node = child
    · simp [split, mem_insertMru, dead, same, this]
    · simp [split, mem_insertMru, dead, same]

/-- The positions after a split: the new node ends where it is cut. -/
def splitPos (cache : RadixCache τ) (pos : ℕ → ℕ) (child k : ℕ) : ℕ → ℕ :=
  Function.update pos cache.counter (pos (cache.nodes child).parent + k)

omit [DecidableEq τ] in
theorem splitPos_counter : splitPos cache pos child k cache.counter = pos (cache.nodes child).parent + k :=
  update_self ..

omit [DecidableEq τ] in
theorem splitPos_of_ne (old : node ≠ cache.counter) : splitPos cache pos child k node = pos node :=
  update_of_ne old ..

namespace Shape

variable {node : ℕ}

theorem splitPos_inTree (shape : Shape cfg cache pos) (inTree : cache.InTree node) :
    splitPos cache pos child k node = pos node := splitPos_of_ne (shape.ne_counter inTree)

omit [DecidableEq τ] in
private theorem childKey_take (splits : Splits cfg cache child k) :
    childKey cfg ((cache.nodes child).key.take k) = childKey cfg (cache.nodes child).key := by
  rw [childKey, childKey, take_take, min_eq_left (Nat.le_of_dvd splits.pos splits.aligned)]

/-- The nodes after a split: the new one, the one that was cut, and the others. -/
theorem split_cases (shape : Shape cfg cache pos) (mem : child ∈ cache.fullLru) {motive : ℕ → Prop}
    (new : motive cache.counter) (cut : motive child)
    (others : ∀ node ∈ cache.fullLru, node ≠ child → node ≠ cache.counter → motive node) :
    ∀ node ∈ (cache.split cfg child k).fullLru, motive node := by
  intro node inNew
  rcases (mem_fullLru_split mem).mp inNew with rfl | old
  · exact new
  · by_cases same : node = child
    · exact same ▸ cut
    · exact others node old same (shape.ne_counter (.inr old))

theorem inTree_split (mem : child ∈ cache.fullLru) (inTree : cache.InTree node) :
    (cache.split cfg child k).InTree node :=
  inTree.imp id fun old => (mem_fullLru_split mem).mpr (.inr old)

section

variable (shape : Shape cfg cache pos) (splits : Splits cfg cache child k)

include shape splits

/-- Who is below whom after a split. -/
theorem split_below (node : ℕ) (key : List τ) (entry : ℕ) :
    entry ∈ (cache.split cfg child k).fullLru ∧ ((cache.split cfg child k).nodes entry).parent = node ∧
        childKey cfg ((cache.split cfg child k).nodes entry).key = key ↔
      entry = child ∧ node = cache.counter ∧ childKey cfg ((cache.nodes child).key.drop k) = key ∨
        entry = cache.counter ∧ node = (cache.nodes child).parent ∧ childKey cfg (cache.nodes child).key = key ∨
        entry ≠ child ∧ entry ∈ cache.fullLru ∧ (cache.nodes entry).parent = node ∧
          childKey cfg (cache.nodes entry).key = key := by
  have mem := splits.member
  have childOld := shape.ne_counter (.inr mem)
  rw [mem_fullLru_split mem]
  by_cases cut : entry = child
  · subst cut
    rw [shape.split_child splits]
    simp [mem, childOld, eq_comm]
  · by_cases new : entry = cache.counter
    · subst new
      rw [shape.split_counter splits, childKey_take splits]
      simp [childOld.symm, shape.counter_not_mem, eq_comm]
    · rw [split_other cut new]
      simp [cut, new]

theorem split_children (node : ℕ) (inTree : (cache.split cfg child k).InTree node) (key : List τ) (entry : ℕ) :
    ((cache.split cfg child k).nodes node).children.get? key = some entry ↔
      entry ∈ (cache.split cfg child k).fullLru ∧ ((cache.split cfg child k).nodes entry).parent = node ∧
        childKey cfg ((cache.split cfg child k).nodes entry).key = key := by
  have mem := splits.member
  have proper := shape.parent_ne mem
  have parentIn := shape.parent child mem
  have parentOld := shape.ne_counter parentIn
  have childOld := shape.ne_counter (.inr mem)
  rw [shape.split_below splits]
  by_cases new : node = cache.counter
  · subst new
    have noChild : entry ∈ cache.fullLru → (cache.nodes entry).parent ≠ cache.counter :=
      fun old => shape.ne_counter (shape.parent entry old)
    rw [shape.split_counter splits, get?_set, get?_empty]
    grind
  · have old : cache.InTree node := by
      rcases inTree with root | inNew
      · exact .inl root
      · exact .inr (((mem_fullLru_split mem).mp inNew).resolve_left new)
    have was := shape.children node old key entry
    by_cases cut : node = child
    · subst cut
      rw [shape.split_child splits, was]
      grind
    · rw [split_other cut new]
      by_cases above : node = (cache.nodes child).parent
      · have here := shape.get?_parent mem
        rw [← above] at here
        rw [if_pos above, get?_set]
        grind
      · rw [if_neg above, was]
        grind

theorem split : Shape cfg (cache.split cfg child k) (splitPos cache pos child k) := by
  have mem := splits.member
  have proper := shape.parent_ne mem
  have parentIn := shape.parent child mem
  have parentOld := shape.ne_counter parentIn
  have childOld := shape.ne_counter (.inr mem)
  have rootOld : rootNode ≠ cache.counter := shape.ne_counter (.inl rfl)
  have isChild := shape.split_child splits
  have isNew := shape.split_counter splits
  have short := splits.short
  have length := shape.valueLength child mem
  apply Shape.of_placed
  case rootPos => rw [splitPos_of_ne rootOld, shape.rootPos]
  case rootAlive => rw [split_other (shape.ne_root mem).symm rootOld]; exact shape.rootAlive
  case rootFresh => exact Nat.lt_succ_of_lt shape.rootFresh
  case rootAway =>
    rw [mem_fullLru_split mem, not_or]
    exact ⟨rootOld, shape.rootAway⟩
  case nodup => exact insertMru_nodup (insertMru_nodup (shape.nodup.filter _))
  case placed =>
    refine shape.split_cases mem ?_ ?_ fun node old notChild notNew => ?_
    · refine ⟨Nat.lt_succ_self _, ?_, ?_, ?_, ?_, ?_⟩ <;> rw [isNew]
      · exact inTree_split mem parentIn
      · rw [length_take]
        exact lt_min splits.pos (splits.pos.trans short)
      · rw [length_take, min_eq_left short.le]
        exact splits.aligned
      · simp only [length_take, length]
      · rw [splitPos_counter, shape.splitPos_inTree parentIn, length_take, min_eq_left short.le]
    · refine ⟨Nat.lt_succ_of_lt (shape.fresh child mem), ?_, ?_, ?_, ?_, ?_⟩ <;> rw [isChild]
      · exact .inr ((mem_fullLru_split mem).mpr (.inl rfl))
      · rw [length_drop]
        omega
      · rw [length_drop]
        exact Nat.dvd_sub (shape.aligned child mem) splits.aligned
      · simp only [length_drop, length]
      · rw [shape.splitPos_inTree (.inr mem), splitPos_counter, length_drop, shape.position child mem]
        omega
    · have is := @split_other _ _ cfg cache child k node notChild notNew
      apply shape.kept old (Nat.le_succ _) (by rw [is]) (by rw [is])
      · exact is ▸ inTree_split mem (shape.parent node old)
      · rw [is, shape.splitPos_inTree (shape.parent node old)]
      · exact shape.splitPos_inTree (.inr old)
  case children => exact shape.split_children splits
  case swaNodup =>
    unfold RadixCache.split
    dsimp only
    split_ifs
    · exact shape.swaNodup
    · exact insertMru_nodup (insertMru_nodup (shape.swaNodup.filter _))
  case swaMember =>
    intro node
    rw [mem_fullLru_split mem, mem_swaLru_split fun alive => (shape.swaMember child).mpr ⟨mem, alive⟩,
      shape.swaMember]
    by_cases cut : node = child
    · subst cut
      rw [isChild]
      grind
    · by_cases new : node = cache.counter
      · subst new
        have := shape.counter_not_mem
        rw [isNew]
        grind
      · rw [split_other cut new]
        grind

/-- On the paths of the old nodes, the new node comes right above the one that was cut. -/
theorem mem_path_split (inTree : cache.InTree node) {entry : ℕ} :
    entry ∈ (cache.split cfg child k).path node ↔
      entry ∈ cache.path node ∨ entry = cache.counter ∧ child ∈ cache.path node := by
  have mem := splits.member
  obtain ⟨walk, within⟩ := shape.climb_path inTree
  have fresh : cache.counter ∉ cache.path node := fun old => shape.counter_not_mem (within old)
  have isChild := shape.split_child splits
  have isNew := shape.split_counter splits
  have walk' := @Climb.insertAbove _ rootNode _ (fun node => ((cache.split cfg child k).nodes node).parent) node _ _
    child cache.counter walk (shape.ne_counter (.inl rfl)).symm fresh (by rw [isChild]) (by rw [isNew])
    fun entry old notChild => by rw [split_other notChild fun new => fresh (new ▸ old)]
  rw [(shape.split splits).path_eq (inTree_split mem inTree) walk', Climb.mem_insertAbove]

end

end Shape

end Split

/-! ## Merging an only child -/

section Merge

variable {node child : ℕ}

/-- What a merge needs to know. -/
structure Merges (cache : RadixCache τ) (node child : ℕ) : Prop where
  member : node ∈ cache.fullLru
  only : (cache.nodes node).children.values = [child]

/-- The positions after a merge: the node now ends where its child ended. -/
def mergePos (pos : ℕ → ℕ) (node child : ℕ) : ℕ → ℕ := Function.update pos node (pos child)

section

omit [DecidableEq τ]

theorem merge_node :
    (cache.merge node child).nodes node =
      { cache.nodes node with
        key := (cache.nodes node).key ++ (cache.nodes child).key
        value := (cache.nodes node).value ++ (cache.nodes child).value
        children := (cache.nodes child).children
        swaUuid := (cache.nodes child).swaUuid.or (cache.nodes node).swaUuid } := by
  simp [merge]

theorem merge_other {other : ℕ} (away : other ≠ node) :
    (cache.merge node child).nodes other =
      { cache.nodes other with
        parent := if other ∈ (cache.nodes child).children.values then node else (cache.nodes other).parent } := by
  simp only [merge, if_neg away]
  split_ifs <;> rfl

theorem mem_fullLru_merge {other : ℕ} :
    other ∈ (cache.merge node child).fullLru ↔ other ∈ cache.fullLru ∧ other ≠ child := by
  simp [merge]

end

namespace Shape

section

variable (shape : Shape cfg cache pos) (merges : Merges cache node child)

include shape merges

theorem merges_child : child ∈ cache.fullLru ∧ (cache.nodes child).parent = node := by
  rw [← shape.mem_values (.inr merges.member), merges.only]
  exact mem_singleton_self _

/-- Nothing else is below the node. -/
theorem merges_only {other : ℕ} (mem : other ∈ cache.fullLru) (below : (cache.nodes other).parent = node) :
    other = child := by
  have := (shape.mem_values (.inr merges.member)).mpr ⟨mem, below⟩
  rwa [merges.only, mem_singleton] at this

theorem merges_parent_ne : (cache.nodes node).parent ≠ child := by
  obtain ⟨mem, below⟩ := shape.merges_child merges
  intro cycle
  have first := shape.parent_pos_lt merges.member
  have second := shape.parent_pos_lt mem
  rw [cycle] at first
  rw [below] at second
  omega

theorem mem_grandchildren {other : ℕ} :
    other ∈ (cache.nodes child).children.values ↔ other ∈ cache.fullLru ∧ (cache.nodes other).parent = child :=
  shape.mem_values (.inr (shape.merges_child merges).1)

end

omit [DecidableEq τ] in
theorem inTree_merge {other : ℕ} (inTree : cache.InTree other) (ne : other ≠ child) :
    (cache.merge node child).InTree other :=
  inTree.imp id fun old => mem_fullLru_merge.mpr ⟨old, ne⟩

theorem merge_parent (shape : Shape cfg cache pos) (merges : Merges cache node child) {other : ℕ}
    (mem : other ∈ cache.fullLru) : ((cache.merge node child).nodes other).parent =
      if (cache.nodes other).parent = child then node else (cache.nodes other).parent := by
  by_cases same : other = node
  · subst same
    rw [merge_node, if_neg (shape.merges_parent_ne merges)]
  · rw [merge_other same]
    by_cases deep : (cache.nodes other).parent = child
    · rw [if_pos ((shape.mem_grandchildren merges).mpr ⟨mem, deep⟩), if_pos deep]
    · rw [if_neg fun values => deep ((shape.mem_grandchildren merges).mp values).2, if_neg deep]

/-- The start of a node that stays is where it was. -/
theorem merge_start (shape : Shape cfg cache pos) (merges : Merges cache node child) {entry : ℕ}
    (old : entry ∈ cache.fullLru) (stays : entry ≠ child) :
    mergePos pos node child ((cache.merge node child).nodes entry).parent = pos (cache.nodes entry).parent := by
  rw [shape.merge_parent merges old]
  split_ifs with deep
  · rw [mergePos, update_self, deep]
  · exact update_of_ne (fun above => stays (shape.merges_only merges old above)) ..

theorem childKey_append (shape : Shape cfg cache pos) (mem : node ∈ cache.fullLru) (more : List τ) :
    childKey cfg ((cache.nodes node).key ++ more) = childKey cfg (cache.nodes node).key :=
  take_append_of_le_length (Nat.le_of_dvd (shape.keyPos node mem) (shape.aligned node mem))

section

variable (shape : Shape cfg cache pos) (merges : Merges cache node child)

include shape merges

private theorem merge_childKey (other : ℕ) :
    childKey cfg ((cache.merge node child).nodes other).key = childKey cfg (cache.nodes other).key := by
  by_cases same : other = node
  · subst same
    rw [merge_node, shape.childKey_append merges.member]
  · rw [merge_other same]

private theorem merge_children (other : ℕ) (inTree : (cache.merge node child).InTree other) (key : List τ) (entry : ℕ) :
    ((cache.merge node child).nodes other).children.get? key = some entry ↔
      entry ∈ (cache.merge node child).fullLru ∧ ((cache.merge node child).nodes entry).parent = other ∧
        childKey cfg ((cache.merge node child).nodes entry).key = key := by
  obtain ⟨mem, below⟩ := shape.merges_child merges
  have proper : node ≠ child := below ▸ shape.parent_ne mem
  have parents := fun old => @merge_parent _ _ cfg cache pos node child shape merges entry old
  rw [mem_fullLru_merge, shape.merge_childKey merges]
  by_cases here : other = node
  · subst here
    have was := shape.children child (.inr mem) key entry
    have noLoop := shape.parent_ne mem
    have only := fun old above => @merges_only _ _ cfg cache pos other child shape merges entry old above
    rw [merge_node, was]
    grind
  · have old : cache.InTree other := inTree.imp id fun kept => (mem_fullLru_merge.mp kept).1
    have notChild : other ≠ child := by
      rcases inTree with root | kept
      · exact root ▸ (shape.ne_root mem).symm
      · exact (mem_fullLru_merge.mp kept).2
    rw [merge_other here, shape.children other old]
    grind

theorem merge : Shape cfg (cache.merge node child) (mergePos pos node child) := by
  obtain ⟨mem, below⟩ := shape.merges_child merges
  have same : ∀ {other}, other ≠ node → mergePos pos node child other = pos other :=
    fun ne => update_of_ne ne ..
  apply Shape.of_placed
  case rootPos => rw [same (shape.ne_root merges.member).symm, shape.rootPos]
  case rootAlive => rw [merge_other (shape.ne_root merges.member).symm]; exact shape.rootAlive
  case rootFresh => exact shape.rootFresh
  case rootAway => exact fun kept => shape.rootAway (mem_fullLru_merge.mp kept).1
  case nodup => exact shape.nodup.filter _
  case children => exact shape.merge_children merges
  case placed =>
    intro other kept
    obtain ⟨old, stays⟩ := mem_fullLru_merge.mp kept
    have start := shape.merge_start merges old stays
    have parent : (cache.merge node child).InTree ((cache.merge node child).nodes other).parent := by
      rw [shape.merge_parent merges old]
      split_ifs with deep
      · exact inTree_merge (.inr merges.member) (below ▸ shape.parent_ne mem)
      · exact inTree_merge (shape.parent other old) deep
    by_cases equal : other = node
    · subst equal
      refine ⟨shape.fresh other old, parent, ?_, ?_, ?_, ?_⟩
      · rw [merge_node, length_append]
        exact Nat.add_pos_left (shape.keyPos other old) _
      · rw [merge_node, length_append]
        exact Nat.dvd_add (shape.aligned other old) (shape.aligned child mem)
      · rw [merge_node]
        simp only [length_append, shape.valueLength other old, shape.valueLength child mem]
      · rw [start, merge_node, mergePos, update_self, shape.position child mem, below, shape.position other old,
          length_append, Nat.add_assoc]
    · have is := @merge_other _ cache node child other equal
      exact shape.kept old le_rfl (by rw [is]) (by rw [is]) parent start (same equal)
  case swaNodup =>
    unfold RadixCache.merge
    dsimp only
    split_ifs
    · exact shape.swaNodup
    · exact shape.swaNodup.filter _
  case swaMember =>
    intro other
    have tombstones : ((cache.merge node child).nodes other).swaTombstone = (cache.nodes other).swaTombstone := by
      by_cases equal : other = node
      · rw [equal, merge_node]
      · rw [merge_other equal]
    rw [tombstones, mem_fullLru_merge]
    have was := shape.swaMember other
    unfold RadixCache.merge
    grind

/-- On the paths of the nodes that stay, the merged child is left out. -/
theorem path_merge {start : ℕ} (inTree : cache.InTree start) (stays : start ≠ child) :
    (cache.merge node child).path start = (cache.path start).filter (· ≠ child) := by
  obtain ⟨mem, below⟩ := shape.merges_child merges
  obtain ⟨walk, within⟩ := shape.climb_path inTree
  have walk' := @Climb.contract _ rootNode (fun node => (cache.nodes node).parent)
    (fun other => ((cache.merge node child).nodes other).parent) start _ _ node child walk (shape.ne_root mem) below
    (below ▸ shape.parent_ne mem) fun entry old _ => shape.merge_parent merges (within old)
  rw [if_neg stays] at walk'
  exact (shape.merge merges).path_eq (inTree_merge inTree stays) walk'

end

end Shape

end Merge

/-! ## Adding a node -/

section Add

variable {parent : ℕ} {key : List τ} {value : List ℕ} {dead : Bool}

/-- What a new node needs to know. -/
structure Adds (cfg : RadixConfig) (cache : RadixCache τ) (parent : ℕ) (key : List τ) (value : List ℕ) : Prop where
  inTree : cache.InTree parent
  nonempty : key ≠ []
  aligned : cfg.pageSize ∣ key.length
  length : value.length = key.length
  absent : (cache.nodes parent).children.get? (childKey cfg key) = none

def addPos (cache : RadixCache τ) (pos : ℕ → ℕ) (parent : ℕ) (key : List τ) : ℕ → ℕ :=
  Function.update pos cache.counter (pos parent + key.length)

theorem addNode_counter (old : parent ≠ cache.counter) :
    (cache.addNode cfg parent key value dead).nodes cache.counter =
      ⟨.empty, parent, key, value, dead, 0, 0, none⟩ := by
  simp [addNode, old.symm]

theorem addNode_other {node : ℕ} (notNew : node ≠ cache.counter) :
    (cache.addNode cfg parent key value dead).nodes node =
      { cache.nodes node with
        children := if node = parent then (cache.nodes node).children.set (childKey cfg key) cache.counter
          else (cache.nodes node).children } := by
  by_cases above : node = parent
  · subst above
    simp [addNode]
  · simp [addNode, above, notNew]

theorem mem_fullLru_addNode {node : ℕ} :
    node ∈ (cache.addNode cfg parent key value dead).fullLru ↔ node = cache.counter ∨ node ∈ cache.fullLru :=
  mem_insertMru

namespace Shape

/-- The nodes after an addition: the new one and the others. -/
theorem addNode_cases (shape : Shape cfg cache pos) {motive : ℕ → Prop} (new : motive cache.counter)
    (others : ∀ node ∈ cache.fullLru, node ≠ cache.counter → motive node) :
    ∀ node ∈ (cache.addNode cfg parent key value dead).fullLru, motive node := by
  intro node mem
  rcases mem_fullLru_addNode.mp mem with rfl | old
  · exact new
  · exact others node old (shape.ne_counter (.inr old))

section

variable (shape : Shape cfg cache pos) (adds : Adds cfg cache parent key value)

include shape adds

private theorem addNode_children (node : ℕ) (inTree : (cache.addNode cfg parent key value dead).InTree node)
    (first : List τ) (entry : ℕ) :
    ((cache.addNode cfg parent key value dead).nodes node).children.get? first = some entry ↔
      entry ∈ (cache.addNode cfg parent key value dead).fullLru ∧
        ((cache.addNode cfg parent key value dead).nodes entry).parent = node ∧
        childKey cfg ((cache.addNode cfg parent key value dead).nodes entry).key = first := by
  have parentOld := shape.ne_counter adds.inTree
  have isNew := @addNode_counter _ _ cfg cache parent key value dead parentOld
  have parents : ∀ entry ∈ cache.fullLru, (cache.nodes entry).parent ≠ cache.counter :=
    fun entry old => shape.ne_counter (shape.parent entry old)
  have absent := adds.absent
  have unknown := shape.counter_not_mem
  rw [mem_fullLru_addNode]
  by_cases new : node = cache.counter
  · subst new
    rw [isNew, get?_empty]
    by_cases same : entry = cache.counter
    · subst same
      rw [isNew]
      grind
    · rw [addNode_other same]
      grind
  · have was := shape.children node (inTree.imp id fun mem => (mem_fullLru_addNode.mp mem).resolve_left new) first entry
    rw [addNode_other new]
    by_cases same : entry = cache.counter
    · subst same
      rw [isNew]
      by_cases above : node = parent
      · rw [if_pos above, get?_set]
        grind
      · rw [if_neg above, was]
        grind
    · rw [addNode_other same]
      by_cases above : node = parent
      · rw [if_pos above, get?_set]
        grind
      · rw [if_neg above, was]
        grind

theorem addNode : Shape cfg (cache.addNode cfg parent key value dead) (addPos cache pos parent key) := by
  have parentOld := shape.ne_counter adds.inTree
  have rootOld : rootNode ≠ cache.counter := shape.ne_counter (.inl rfl)
  have isNew := @addNode_counter _ _ cfg cache parent key value dead parentOld
  have same : ∀ {node}, cache.InTree node → addPos cache pos parent key node = pos node :=
    fun inTree => update_of_ne (shape.ne_counter inTree) ..
  have inTree' : ∀ {node}, cache.InTree node → (cache.addNode cfg parent key value dead).InTree node :=
    fun inTree => inTree.imp id fun old => mem_fullLru_addNode.mpr (.inr old)
  apply Shape.of_placed
  case rootPos => rw [same (.inl rfl), shape.rootPos]
  case rootAlive => rw [addNode_other rootOld]; exact shape.rootAlive
  case rootFresh => exact Nat.lt_succ_of_lt shape.rootFresh
  case rootAway =>
    rw [mem_fullLru_addNode, not_or]
    exact ⟨rootOld, shape.rootAway⟩
  case nodup => exact insertMru_nodup shape.nodup
  case children => exact shape.addNode_children adds
  case placed =>
    refine shape.addNode_cases ?_ fun node old notNew => ?_
    · refine ⟨Nat.lt_succ_self _, ?_, ?_, ?_, ?_, ?_⟩ <;> rw [isNew]
      · exact inTree' adds.inTree
      · exact length_pos_iff.mpr adds.nonempty
      · exact adds.aligned
      · exact adds.length
      · rw [addPos, update_self, update_of_ne parentOld]
    · have is := @addNode_other _ _ cfg cache parent key value dead node notNew
      apply shape.kept old (Nat.le_succ _) (by rw [is]) (by rw [is])
      · exact is ▸ inTree' (shape.parent node old)
      · rw [is, same (shape.parent node old)]
      · exact same (.inr old)
  case swaNodup =>
    unfold RadixCache.addNode
    dsimp only
    split_ifs
    · exact shape.swaNodup
    · exact insertMru_nodup shape.swaNodup
  case swaMember =>
    intro node
    have was := shape.swaMember node
    have unknown := shape.counter_not_mem
    have lists : node ∈ (cache.addNode cfg parent key value dead).swaLru ↔
        dead = false ∧ node = cache.counter ∨ node ∈ cache.swaLru := by
      cases dead <;> simp [RadixCache.addNode, mem_insertMru]
    rw [lists, mem_fullLru_addNode]
    by_cases new : node = cache.counter
    · subst new
      rw [isNew]
      grind
    · rw [addNode_other new]
      grind

theorem path_addNode {node : ℕ} (inTree : cache.InTree node) :
    (cache.addNode cfg parent key value dead).path node = cache.path node := by
  obtain ⟨walk, within⟩ := shape.climb_path inTree
  refine (shape.addNode adds).path_eq (inTree.imp id fun old => mem_fullLru_addNode.mpr (.inr old)) ?_
  refine walk.congr fun entry old => ?_
  rw [addNode_other (shape.ne_counter (.inr (within old)))]

end

end Shape

end Add

/-! ## Deleting a leaf -/

section Delete

variable {node : ℕ} {slots : List ℕ}

/-- What the deletion of a leaf needs to know. -/
structure Deletes (cache : RadixCache τ) (node : ℕ) : Prop where
  member : node ∈ cache.fullLru
  leaf : (cache.nodes node).children.values = []
  unlocked : (cache.nodes node).fullLockRef = 0

section

omit [DecidableEq τ]

@[simp] theorem free_nodes : (cache.free cfg slots).nodes = cache.nodes := by
  unfold free
  split_ifs <;> rfl

@[simp] theorem free_fullLru : (cache.free cfg slots).fullLru = cache.fullLru := by
  unfold free
  split_ifs <;> rfl

@[simp] theorem free_swaLru : (cache.free cfg slots).swaLru = cache.swaLru := by
  unfold free
  split_ifs <;> rfl

@[simp] theorem free_counter : (cache.free cfg slots).counter = cache.counter := by
  unfold free
  split_ifs <;> rfl

@[simp] theorem free_swaUuidCounter : (cache.free cfg slots).swaUuidCounter = cache.swaUuidCounter := by
  unfold free
  split_ifs <;> rfl

@[simp] theorem free_lostUuids : (cache.free cfg slots).lostUuids = cache.lostUuids := by
  unfold free
  split_ifs <;> rfl

end

theorem deleteLeaf_nodes (other : ℕ) :
    (cache.deleteLeaf cfg node).nodes other =
      { cache.nodes other with
        children := if other = (cache.nodes node).parent then
          (cache.nodes other).children.pop
            (childKey cfg (cache.nodes node).key) else (cache.nodes other).children } := by
  by_cases above : other = (cache.nodes node).parent
  · subst above
    simp [deleteLeaf]
  · simp [deleteLeaf, above]

theorem mem_fullLru_deleteLeaf {other : ℕ} :
    other ∈ (cache.deleteLeaf cfg node).fullLru ↔ other ∈ cache.fullLru ∧ other ≠ node := by
  simp [deleteLeaf]

variable (shape : Shape cfg cache pos)
include shape

theorem Shape.deleteLeaf (deletes : Deletes cache node) : Shape cfg (cache.deleteLeaf cfg node) pos := by
  have mem := deletes.member
  have noChild := (shape.values_nil (.inr mem)).mp deletes.leaf
  have inTree' : ∀ {other}, cache.InTree other → other ≠ node → (cache.deleteLeaf cfg node).InTree other :=
    fun inTree ne => inTree.imp id fun old => mem_fullLru_deleteLeaf.mpr ⟨old, ne⟩
  apply Shape.of_placed
  case rootPos => exact shape.rootPos
  case rootAlive => rw [deleteLeaf_nodes]; exact shape.rootAlive
  case rootFresh => simpa [RadixCache.deleteLeaf] using shape.rootFresh
  case rootAway => exact fun kept => shape.rootAway (mem_fullLru_deleteLeaf.mp kept).1
  case nodup => exact shape.nodup.filter _
  case placed =>
    intro other kept
    have old := (mem_fullLru_deleteLeaf.mp kept).1
    have is := @deleteLeaf_nodes _ _ cfg cache node other
    apply shape.kept old (by simp [RadixCache.deleteLeaf]) (by rw [is]) (by rw [is])
    · exact is ▸ inTree' (shape.parent other old) (noChild other old)
    · rw [is]
    · rfl
  case children =>
    intro other inTree key entry
    have was := shape.children other (inTree.imp id fun kept => (mem_fullLru_deleteLeaf.mp kept).1) key entry
    have here := shape.get?_parent mem
    rw [mem_fullLru_deleteLeaf, deleteLeaf_nodes, deleteLeaf_nodes]
    by_cases above : other = (cache.nodes node).parent
    · rw [if_pos above, get?_pop]
      grind
    · rw [if_neg above, was]
      grind
  case swaNodup =>
    unfold RadixCache.deleteLeaf
    dsimp only
    split_ifs
    · exact shape.swaNodup
    · exact shape.swaNodup.filter _
  case swaMember =>
    intro other
    have was := shape.swaMember other
    rw [mem_fullLru_deleteLeaf, deleteLeaf_nodes]
    unfold RadixCache.deleteLeaf
    grind

/-- A leaf is on no path but its own. -/
theorem Shape.not_mem_path_of_leaf (mem : node ∈ cache.fullLru)
    (leaf : (cache.nodes node).children.values = []) {start : ℕ} (inTree : cache.InTree start) (other : start ≠ node) :
    node ∉ cache.path start := by
  intro passed
  obtain ⟨walk, within⟩ := shape.climb_path inTree
  obtain ⟨child, below, parent⟩ := walk.exists_child passed other.symm
  exact (shape.values_nil (.inr mem)).mp leaf child (within below) parent

theorem Shape.path_deleteLeaf (deletes : Deletes cache node) {start : ℕ}
    (inTree : cache.InTree start) (other : start ≠ node) :
    (cache.deleteLeaf cfg node).path start = cache.path start := by
  obtain ⟨walk, within⟩ := shape.climb_path inTree
  have stays := shape.not_mem_path_of_leaf deletes.member deletes.leaf inTree other
  refine (shape.deleteLeaf deletes).path_eq (inTree.imp id fun old => mem_fullLru_deleteLeaf.mpr ⟨old, other⟩) ?_
  refine walk.congr fun entry _ => ?_
  rw [deleteLeaf_nodes]

end Delete

end RadixCache

end FlashMemory
