import FlashMemory.Model.LruList
import FlashMemory.Model.KvAllocator
import FlashMemory.Collections.OrderedDict
import FlashMemory.Collections.Ancestry

/-! # The radix tree of the SWA prefix cache

`SWARadixCache` shares the KV slots of common prefixes between requests. A node holds a piece of a key and one
slot of the full KV pool for each of its tokens; the pieces from the root down to a node spell a prefix. The slots of
the sliding window layers can be given back earlier than the full ones, and a node that has lost them is a
tombstone. Locks are counted per node, once for the full slots and once for the window.

The tokens are of any type. An `extra_key` is understood to be part of every token of its key, so two keys
with different extra keys share nothing. Nodes are numbers, the root is `0`, and the record of a node that has
left the tree stays behind, as an unreferenced Python object does. Keys are not converted to bigrams
(`is_eagle` is off) and the cache is not disabled. `last_access_time`, which only a sanity check reads, is
left out.
-/

namespace FlashMemory

/-- What `__init__` and the environment fix. -/
structure RadixConfig where
  pageSize : ℕ
  slidingWindowSize : ℕ
  /-- `SGLANG_OPT_SWA_RADIX_CACHE_COMPACT`. -/
  compact : Bool
  /-- `SGLANG_OPT_SWA_SPLIT_LEAF_ON_INSERT`. -/
  splitLeafOnInsert : Bool
  pageSize_pos : 0 < pageSize
  slidingWindowSize_pos : 0 < slidingWindowSize

/-- The gates as they are by default. -/
def RadixConfig.standard (pageSize slidingWindowSize : ℕ) (pageSize_pos : 0 < pageSize)
    (slidingWindowSize_pos : 0 < slidingWindowSize) : RadixConfig :=
  ⟨pageSize, slidingWindowSize, true, false, pageSize_pos, slidingWindowSize_pos⟩

structure TreeNode (τ : Type) where
  /-- The children by the first page of their keys. -/
  children : OrderedDict (List τ) ℕ
  parent : ℕ
  key : List τ
  value : List ℕ
  swaTombstone : Bool
  fullLockRef : ℕ
  swaLockRef : ℕ
  swaUuid : Option ℕ

/-- A call of `token_to_kv_pool_allocator.free`. -/
structure FreeCall where
  slots : List ℕ
  /-- Those of the slots that belong to a node with `full_lock_ref > 0` at that moment. -/
  locked : List ℕ
deriving DecidableEq, Repr

/-- The tree and its bookkeeping. The last three fields are a history that no code reads. -/
structure RadixCache (τ : Type) where
  nodes : ℕ → TreeNode τ
  /-- `TreeNode.counter`: the next node. -/
  counter : ℕ
  swaUuidCounter : ℕ
  /-- `full_lru_list`, most recently used first. -/
  fullLru : List ℕ
  swaLru : List ℕ
  /-- The pointers of `full_lru_list`. -/
  fullLinks : LinkedList ℕ
  swaLinks : LinkedList ℕ
  fullEvictableSize : ℤ
  fullProtectedSize : ℤ
  swaEvictableSize : ℤ
  swaProtectedSize : ℤ
  allocator : KvAllocator
  freeCalls : List FreeCall
  /-- `full_lock_ref` of every tombstone that an insertion gave new slots, when it did. -/
  revivedLocks : List ℕ
  /-- The uuids that a compaction replaced. -/
  lostUuids : List ℕ

/-- The root of the tree. -/
def rootNode : ℕ := 0

namespace RadixCache

variable {τ : Type} (cfg : RadixConfig) (cache : RadixCache τ)

/-- After `reset`. -/
def init (allocator : KvAllocator) : RadixCache τ where
  nodes _ := ⟨.empty, rootNode, [], [], false, 1, 1, none⟩
  counter := 1
  swaUuidCounter := 1
  fullLru := []
  swaLru := []
  fullLinks := .empty
  swaLinks := .empty
  fullEvictableSize := 0
  fullProtectedSize := 0
  swaEvictableSize := 0
  swaProtectedSize := 0
  allocator := allocator
  freeCalls := []
  revivedLocks := []
  lostUuids := []

/-- The nodes from a node up to the root, without the root. There are no more than `full_lru_list` has. -/
def path (node : ℕ) : List ℕ :=
  climb rootNode (fun node => (cache.nodes node).parent) cache.fullLru.length node

/-- Tokens from the root to the end of a node. -/
def depth (node : ℕ) : ℕ :=
  (cache.path node).foldr (fun node total => (cache.nodes node).key.length + total) 0

/-- The tokens from the root to the end of a node. -/
def spelling (node : ℕ) : List τ :=
  (cache.path node).reverse.flatMap fun entry => (cache.nodes entry).key

/-- The slots from the root to the end of a node. -/
def slotsTo (node : ℕ) : List ℕ :=
  (cache.path node).reverse.flatMap fun entry => (cache.nodes entry).value

/-- The slots of all nodes. -/
def slots : List ℕ := cache.fullLru.flatMap fun node => (cache.nodes node).value

/-- All slots that were passed to `token_to_kv_pool_allocator.free`. -/
def freedSlots : List ℕ := cache.freeCalls.flatMap FreeCall.slots

/-- The nodes that are reached from the root by the children. -/
inductive Reaches [DecidableEq τ] (cache : RadixCache τ) : ℕ → Prop
  | root : Reaches cache rootNode
  | child {node : ℕ} {key : List τ} {child : ℕ} :
      Reaches cache node → (cache.nodes node).children.get? key = some child → Reaches cache child

def modifyNode (node : ℕ) (change : TreeNode τ → TreeNode τ) : RadixCache τ :=
  { cache with nodes := Function.update cache.nodes node (change (cache.nodes node)) }

/-! ## What may be taken -/

/-- No lock on the full slots, and no children. -/
def leafNoLock (node : ℕ) : Bool :=
  (cache.nodes node).fullLockRef = 0 ∧ (cache.nodes node).children.values = []

def swaNoLock (node : ℕ) : Bool := (cache.nodes node).swaLockRef = 0

/-! ## Slots -/

/-- Is this a slot of a node with `full_lock_ref > 0`? -/
def lockedSlot (slot : ℕ) : Bool :=
  cache.fullLru.any fun node => 0 < (cache.nodes node).fullLockRef ∧ slot ∈ (cache.nodes node).value

/-- `token_to_kv_pool_allocator.free`. Nothing happens for an empty tensor. -/
def free (slots : List ℕ) : RadixCache τ :=
  if slots = [] then cache
  else
    { cache with
      allocator := cache.allocator.free cfg.pageSize slots
      freeCalls := ⟨slots, slots.filter cache.lockedSlot⟩ :: cache.freeCalls }

/-- `token_to_kv_pool_allocator.free_swa`. -/
def freeSwa (slots : List ℕ) : RadixCache τ :=
  { cache with allocator := cache.allocator.freeSwa cfg.pageSize slots }

/-! ## The changes of the tree -/

variable [DecidableEq τ]

/-- `get_child_key`. -/
def childKey (key : List τ) : List τ := key.take cfg.pageSize

/-- `_split_node`: a new node takes the first tokens and the uuid, and the node keeps the rest. -/
def split (cfg : RadixConfig) (cache : RadixCache τ) (child splitLen : ℕ) : RadixCache τ :=
  let old := cache.nodes child
  let newNode := cache.counter
  let upper : TreeNode τ :=
    { old with
      children := OrderedDict.empty.set (childKey cfg (old.key.drop splitLen)) child
      key := old.key.take splitLen
      value := old.value.take splitLen }
  let lower : TreeNode τ :=
    { old with
      parent := newNode
      key := old.key.drop splitLen
      value := old.value.drop splitLen
      swaUuid := none }
  { cache with
    nodes := Function.update (Function.update (Function.update cache.nodes newNode upper) child lower) old.parent
      { cache.nodes old.parent with
        children := (cache.nodes old.parent).children.set (childKey cfg old.key) newNode }
    counter := cache.counter + 1
    fullLru := insertMru (insertMru (cache.fullLru.filter (· ≠ child)) newNode) child
    swaLru := if old.swaTombstone then cache.swaLru
      else insertMru (insertMru (cache.swaLru.filter (· ≠ child)) newNode) child
    fullLinks := ((cache.fullLinks.removeNode child).insertMru newNode).insertMru child
    swaLinks := if old.swaTombstone then cache.swaLinks
      else ((cache.swaLinks.removeNode child).insertMru newNode).insertMru child }

/-- Sum of `full_lock_ref` over the children of a node. -/
def childrenFullLockRef (node : ℕ) : ℕ :=
  (cache.nodes node).children.values.foldr (fun child total => (cache.nodes child).fullLockRef + total) 0

/-- The conditions of `_compact_single_child_chain` for merging the only child. -/
def Compactable (node child : ℕ) : Prop :=
  (cache.nodes child).children.values ≠ [] ∧
    (cache.nodes child).fullLockRef ≤ cache.childrenFullLockRef child ∧
    (cache.nodes child).swaTombstone = (cache.nodes node).swaTombstone ∧
    (cache.nodes child).fullLockRef = (cache.nodes node).fullLockRef ∧
    (cache.nodes child).swaLockRef = (cache.nodes node).swaLockRef

instance (node child : ℕ) : Decidable (cache.Compactable node child) :=
  inferInstanceAs (Decidable (_ ∧ _ ∧ _ ∧ _ ∧ _))

/-- One round of `_compact_single_child_chain`: the only child is merged into its parent. -/
def merge (node child : ℕ) : RadixCache τ :=
  let upper := cache.nodes node
  let lower := cache.nodes child
  { cache with
    nodes := fun other =>
      if other = node then
        { upper with
          key := upper.key ++ lower.key
          value := upper.value ++ lower.value
          children := lower.children
          swaUuid := lower.swaUuid.or upper.swaUuid }
      else if other ∈ lower.children.values then { cache.nodes other with parent := node }
      else cache.nodes other
    fullLru := cache.fullLru.filter (· ≠ child)
    swaLru := if lower.swaTombstone then cache.swaLru else cache.swaLru.filter (· ≠ child)
    fullLinks := cache.fullLinks.removeNode child
    swaLinks := if lower.swaTombstone then cache.swaLinks else cache.swaLinks.removeNode child
    lostUuids := if lower.swaUuid = none then cache.lostUuids else upper.swaUuid.toList ++ cache.lostUuids }

/-- `_add_new_node`. -/
def addNode (cfg : RadixConfig) (cache : RadixCache τ) (parent : ℕ) (key : List τ) (value : List ℕ)
    (swaTombstone : Bool) : RadixCache τ :=
  let newNode := cache.counter
  { cache with
    nodes := Function.update
      (Function.update cache.nodes newNode ⟨.empty, parent, key, value, swaTombstone, 0, 0, none⟩)
      parent { cache.nodes parent with children := (cache.nodes parent).children.set (childKey cfg key) newNode }
    counter := cache.counter + 1
    fullLru := insertMru cache.fullLru newNode
    fullLinks := cache.fullLinks.insertMru newNode
    fullEvictableSize := cache.fullEvictableSize + value.length
    swaLru := if swaTombstone then cache.swaLru else insertMru cache.swaLru newNode
    swaLinks := if swaTombstone then cache.swaLinks else cache.swaLinks.insertMru newNode
    swaEvictableSize := if swaTombstone then cache.swaEvictableSize else cache.swaEvictableSize + value.length }

/-- A tombstone gets the slots of the insertion: its own ones are freed, and it is alive again. -/
def revive (node : ℕ) (slots : List ℕ) : RadixCache τ :=
  let freed := cache.free cfg (cache.nodes node).value
  { freed with
    nodes := Function.update freed.nodes node { freed.nodes node with value := slots, swaTombstone := false }
    swaLru := insertMru cache.swaLru node
    swaLinks := cache.swaLinks.insertMru node
    swaEvictableSize := cache.swaEvictableSize + slots.length
    revivedLocks := (cache.nodes node).fullLockRef :: cache.revivedLocks }

/-- The window slots of a node are freed and the node becomes a tombstone. -/
def tombstone (node : ℕ) : RadixCache τ :=
  { cache.freeSwa cfg (cache.nodes node).value with
    nodes := Function.update cache.nodes node { cache.nodes node with swaTombstone := true }
    swaLru := cache.swaLru.filter (· ≠ node)
    swaLinks := cache.swaLinks.removeNode node }

/-- A node that counts as evictable becomes a tombstone. -/
def evictSwa (node size : ℕ) : RadixCache τ :=
  { cache.tombstone cfg node with swaEvictableSize := cache.swaEvictableSize - size }

/-- A leaf is freed and deleted: `_delete_leaf`, and `_delete_tombstone_leaf` for a tombstone. -/
def deleteLeaf (cfg : RadixConfig) (cache : RadixCache τ) (node : ℕ) : RadixCache τ :=
  let old := cache.nodes node
  let freed := cache.free cfg old.value
  { freed with
    nodes := Function.update freed.nodes old.parent
      { freed.nodes old.parent with
        children := (freed.nodes old.parent).children.pop (childKey cfg old.key) }
    fullLru := cache.fullLru.filter (· ≠ node)
    swaLru := if old.swaTombstone then cache.swaLru else cache.swaLru.filter (· ≠ node)
    fullLinks := cache.fullLinks.removeNode node
    swaLinks := if old.swaTombstone then cache.swaLinks else cache.swaLinks.removeNode node
    fullEvictableSize := cache.fullEvictableSize - old.key.length
    swaEvictableSize := if old.swaTombstone then cache.swaEvictableSize
      else cache.swaEvictableSize - old.key.length }

/-! ## The changes of the lock counts -/

variable (node : ℕ)

/-- `full_lock_ref += 1`. -/
def lockFull : RadixCache τ :=
  let old := cache.nodes node
  let moved : ℤ := if old.fullLockRef = 0 then old.value.length else 0
  { cache.modifyNode node fun entry => { entry with fullLockRef := entry.fullLockRef + 1 } with
    fullEvictableSize := cache.fullEvictableSize - moved
    fullProtectedSize := cache.fullProtectedSize + moved }

/-- `swa_lock_ref += 1`. -/
def lockSwa : RadixCache τ :=
  let old := cache.nodes node
  let moved : ℤ := if old.swaLockRef = 0 then old.value.length else 0
  { cache.modifyNode node fun entry => { entry with swaLockRef := entry.swaLockRef + 1 } with
    swaEvictableSize := cache.swaEvictableSize - moved
    swaProtectedSize := cache.swaProtectedSize + moved }

/-- The uuid of a node, which gets a new one from `gen_swa_uuid` when it has none. -/
def ensureUuid : RadixCache τ :=
  match (cache.nodes node).swaUuid with
  | some _ => cache
  | none =>
    { cache.modifyNode node fun entry => { entry with swaUuid := some (cache.swaUuidCounter + 1) } with
      swaUuidCounter := cache.swaUuidCounter + 1 }

/-- `full_lock_ref -= 1`. -/
def unlockFull : RadixCache τ :=
  let old := cache.nodes node
  let moved : ℤ := if old.fullLockRef = 1 then old.value.length else 0
  { cache.modifyNode node fun entry => { entry with fullLockRef := entry.fullLockRef - 1 } with
    fullEvictableSize := cache.fullEvictableSize + moved
    fullProtectedSize := cache.fullProtectedSize - moved }

/-- `swa_lock_ref -= 1` in `dec_lock_ref`. -/
def unlockSwa : RadixCache τ :=
  let old := cache.nodes node
  let moved : ℤ := if old.swaLockRef = 1 then old.value.length else 0
  { cache.modifyNode node fun entry => { entry with swaLockRef := entry.swaLockRef - 1 } with
    swaEvictableSize := cache.swaEvictableSize + moved
    swaProtectedSize := cache.swaProtectedSize - moved }

/-- `swa_lock_ref -= 1` in `dec_swa_lock_only`: at zero an inner node becomes evictable, and a leaf, which the
eviction of windows must not find, becomes a tombstone. -/
def unlockSwaOnly : RadixCache τ :=
  let old := cache.nodes node
  let released :=
    if old.swaLockRef = 1 then
      if old.children.values = [] then
        { cache.tombstone cfg node with swaProtectedSize := cache.swaProtectedSize - old.value.length }
      else
        { cache with
          swaProtectedSize := cache.swaProtectedSize - old.value.length
          swaEvictableSize := cache.swaEvictableSize + old.value.length }
    else cache
  released.modifyNode node fun entry => { entry with swaLockRef := entry.swaLockRef - 1 }

end RadixCache

end FlashMemory
