import FlashMemory.Model.RadixTree

/-! # The operations of the SWA prefix cache

Every function checks its asserts, and those of the list operations it calls, before it changes the state.
A loop that follows parent pointers runs over `path`, since no such loop changes a pointer. The loops that
descend and the loops that delete have a bound: a descent consumes a token in every round, and a deletion or a
merge takes a node out of `full_lru_list`.
-/

namespace FlashMemory

/-- A call on the cache. -/
abbrev CacheM (τ : Type) := EStateM AssertionError (RadixCache τ)

variable {τ : Type} [DecidableEq τ]

open RadixCache

/-- An assert of the cache. -/
def assertThat (condition : Prop) [Decidable condition] : CacheM τ Unit := ensure .assertion condition

/-! ## Keys -/

/-- The loop of `_key_match_paged`. -/
def keyMatchLoop (pageSize : ℕ) : ℕ → List τ → List τ → ℕ
  | 0, _, _ => 0
  | fuel + 1, key0, key1 =>
    if key0 ≠ [] ∧ key1 ≠ [] ∧ key0.take pageSize = key1.take pageSize then
      pageSize + keyMatchLoop pageSize fuel (key0.drop pageSize) (key1.drop pageSize)
    else 0

/-- `key_match_fn`: how far two keys agree, in whole pages. -/
def keyMatch (cfg : RadixConfig) (key0 key1 : List τ) : ℕ :=
  keyMatchLoop cfg.pageSize (min key0.length key1.length) key0 key1

/-! ## Recency -/

/-- `reset_node_mru` in the full list, and in the window list unless the node is a tombstone. -/
def resetNodeMru (node : ℕ) : CacheM τ Unit := do
  let cache ← get
  let entry := cache.nodes node
  assertThat (node ∈ cache.fullLru ∧ (entry.swaTombstone = false → node ∈ cache.swaLru))
  set { cache with
    fullLru := insertMru cache.fullLru node
    swaLru := if entry.swaTombstone then cache.swaLru else insertMru cache.swaLru node
    fullLinks := cache.fullLinks.resetNodeMru node
    swaLinks := if entry.swaTombstone then cache.swaLinks else cache.swaLinks.resetNodeMru node }

/-- `reset_node_and_parents_mru` in both lists: the path comes to the front, the node itself first. -/
def resetNodeAndParentsMru (node : ℕ) : CacheM τ Unit := do
  let cache ← get
  let path := cache.path node
  let swaPath := path.filter fun node => !(cache.nodes node).swaTombstone
  assertThat ((∀ entry ∈ path, entry ∈ cache.fullLru) ∧ ∀ entry ∈ swaPath, entry ∈ cache.swaLru)
  set { cache with
    fullLru := path ++ cache.fullLru.filter (· ∉ path)
    swaLru := swaPath ++ cache.swaLru.filter (· ∉ swaPath)
    fullLinks := cache.fullLinks.resetNodeAndParentsMru path
    swaLinks := cache.swaLinks.resetNodeAndParentsMru swaPath }

/-! ## Splitting and merging -/

/-- `_split_node`. -/
def splitNode (cfg : RadixConfig) (child splitLen : ℕ) : CacheM τ ℕ := do
  let cache ← get
  let entry := cache.nodes child
  assertThat (entry.key.take splitLen ≠ [] ∧ entry.key.drop splitLen ≠ [])
  assertThat (child ∈ cache.fullLru ∧ cache.counter ∉ cache.fullLru)
  assertThat (entry.swaTombstone = false → child ∈ cache.swaLru ∧ cache.counter ∉ cache.swaLru)
  set (cache.split cfg child splitLen)
  pure cache.counter

/-- `_compact_single_child_chain`. -/
def compactSingleChildChain : ℕ → ℕ → CacheM τ Unit
  | 0, _ => pure ()
  | fuel + 1, node => do
    let cache ← get
    match (cache.nodes node).children.values with
    | [child] =>
      if cache.Compactable node child then do
        assertThat (child ∈ cache.fullLru ∧ ((cache.nodes child).swaTombstone = false → child ∈ cache.swaLru))
        set (cache.merge node child)
        compactSingleChildChain fuel node
      else pure ()
    | _ => pure ()

/-- The compaction of a match, behind its gate. -/
def compactIfEnabled (cfg : RadixConfig) (node : ℕ) : CacheM τ Unit := do
  let cache ← get
  if cfg.compact then compactSingleChildChain cache.fullLru.length node else pure ()

/-! ## Matching -/

/-- The local variables of `_match_prefix_helper`. -/
structure MatchProgress where
  value : List (List ℕ)
  /-- `none` is infinity: no tombstone yet. -/
  matchLenSinceTombstone : Option ℕ
  bestValueLen : ℕ
  bestLastNode : ℕ

namespace MatchProgress

def start : MatchProgress := ⟨[], none, 0, rootNode⟩

section

variable (cfg : RadixConfig) (progress : MatchProgress) (node : ℕ)

/-- If the window is covered, the match may end at this node. -/
def settle : MatchProgress :=
  if progress.matchLenSinceTombstone.all (cfg.slidingWindowSize ≤ ·) then
    { progress with
      bestValueLen := progress.value.length
      bestLastNode := node }
  else progress

/-- A tombstone comes next. -/
def atTombstone : MatchProgress :=
  { progress.settle cfg node with matchLenSinceTombstone := some 0 }

end

def append (progress : MatchProgress) (slots : List ℕ) (swaTombstone : Bool) : MatchProgress :=
  { progress with
    value := progress.value ++ [slots]
    matchLenSinceTombstone := if swaTombstone then progress.matchLenSinceTombstone
      else progress.matchLenSinceTombstone.map (· + slots.length) }

end MatchProgress

/-- The loop of `_match_prefix_helper`; it returns the last node that was matched. -/
def matchPrefixLoop (cfg : RadixConfig) : ℕ → ℕ → List τ → MatchProgress → CacheM τ (ℕ × MatchProgress)
  | 0, node, _, progress => pure (node, progress)
  | fuel + 1, node, key, progress => do
    let cache ← get
    match if key = [] then none else (cache.nodes node).children.get? (childKey cfg key) with
    | none => pure (node, progress)
    | some child =>
      compactIfEnabled cfg child
      let cache ← get
      let entry := cache.nodes child
      let progress := if entry.swaTombstone then progress.atTombstone cfg node else progress
      let prefixLen := keyMatch cfg entry.key key
      if prefixLen < entry.key.length then do
        let newNode ← splitNode cfg child prefixLen
        pure (newNode, progress.append (entry.value.take prefixLen) entry.swaTombstone)
      else matchPrefixLoop cfg fuel child (key.drop prefixLen) (progress.append entry.value entry.swaTombstone)

section

variable (cfg : RadixConfig)

/-- `match_prefix`: the slots and the last node of the longest usable prefix. -/
def matchPrefix (key : List τ) : CacheM τ (List ℕ × ℕ) := do
  if key = [] then pure ([], rootNode)
  else do
    let aligned := key.take (key.length / cfg.pageSize * cfg.pageSize)
    let (node, progress) ← matchPrefixLoop cfg aligned.length rootNode aligned .start
    let progress := progress.settle cfg node
    resetNodeAndParentsMru progress.bestLastNode
    pure ((progress.value.take progress.bestValueLen).flatten, progress.bestLastNode)

/-! ## Inserting -/

/-- `_add_new_node`. -/
def addNewNode (parent : ℕ) (key : List τ) (value : List ℕ) (swaTombstone : Bool) :
    CacheM τ ℕ := do
  let cache ← get
  assertThat (key ≠ [] ∧ cache.counter ∉ cache.fullLru ∧ (swaTombstone = false → cache.counter ∉ cache.swaLru))
  set (cache.addNode cfg parent key value swaTombstone)
  pure cache.counter

/-- Split a node that the key leaves before its end. -/
def splitIfPartial (child prefixLen : ℕ) : CacheM τ ℕ := do
  let cache ← get
  if prefixLen < (cache.nodes child).key.length then splitNode cfg child prefixLen else pure child

/-- What an insertion does at a node that it passes: nothing up to `update_kv_after_len`. The second branch splits
the node before it frees the slots of the lower part, where the source frees them first. -/
def updateNode (updateKvAfterLen swaEvictedSeqlen total prefixLen node : ℕ) (value : List ℕ) :
    CacheM τ Unit := do
  let cache ← get
  let entry := cache.nodes node
  if total + prefixLen ≤ updateKvAfterLen then pure ()
  else if entry.swaTombstone then do
    assertThat (entry.swaLockRef = 0)
    assertThat (swaEvictedSeqlen % cfg.pageSize = 0)
    if swaEvictedSeqlen ≤ total then do
      assertThat (node ∉ cache.swaLru)
      set (cache.revive cfg node (value.take prefixLen))
    else if swaEvictedSeqlen < total + prefixLen then do
      let startUpdateIdx := swaEvictedSeqlen - total
      let _ ← splitNode cfg node startUpdateIdx
      let cache ← get
      assertThat (node ∉ cache.swaLru)
      set ((cache.revive cfg node ((value.take prefixLen).drop startUpdateIdx)).free cfg (value.take startUpdateIdx))
    else set (cache.free cfg (value.take prefixLen))
  else set (cache.free cfg (value.take prefixLen))

end

/-- Where the loop of `_insert_helper` stops: the node, what remains of key and value, and the length passed. -/
structure InsertProgress (τ : Type) where
  node : ℕ
  key : List τ
  value : List ℕ
  totalPrefixLength : ℕ

/-- The loop of `_insert_helper`. -/
def insertLoop (cfg : RadixConfig) (updateKvAfterLen swaEvictedSeqlen : ℕ) :
    ℕ → InsertProgress τ → CacheM τ (InsertProgress τ)
  | 0, progress => pure progress
  | fuel + 1, progress => do
    let cache ← get
    match if progress.key = [] then none else (cache.nodes progress.node).children.get? (childKey cfg progress.key) with
    | none => pure progress
    | some child =>
      resetNodeMru child
      let prefixLen := keyMatch cfg (cache.nodes child).key progress.key
      let node ← splitIfPartial cfg child prefixLen
      updateNode cfg updateKvAfterLen swaEvictedSeqlen progress.totalPrefixLength prefixLen node progress.value
      insertLoop cfg updateKvAfterLen swaEvictedSeqlen fuel
        ⟨node, progress.key.drop prefixLen, progress.value.drop prefixLen, progress.totalPrefixLength + prefixLen⟩

section

variable (cfg : RadixConfig)

/-- `_maybe_split_leaf_for_swa_lock`. -/
def maybeSplitLeafForSwaLock (leaf : ℕ) : CacheM τ Unit := do
  let cache ← get
  let entry := cache.nodes leaf
  let tailSize := (cfg.slidingWindowSize + cfg.pageSize - 1) / cfg.pageSize * cfg.pageSize
  let splitAt := entry.value.length - tailSize
  if leaf = rootNode ∨ 0 < entry.swaLockRef ∨ entry.swaTombstone ∨ entry.value.length ≤ tailSize ∨
      splitAt % cfg.pageSize ≠ 0 ∨ entry.value.length % cfg.pageSize ≠ 0 then pure ()
  else do
    let _ ← splitNode cfg leaf splitAt
    pure ()

/-- A tombstone for the part of the rest whose window slots are gone; it is the parent of the leaf then. -/
def addTombstone (node tombstoneLen : ℕ) (key : List τ) (value : List ℕ) : CacheM τ ℕ :=
  if 0 < tombstoneLen then addNewNode cfg node (key.take tombstoneLen) (value.take tombstoneLen) true else pure node

/-- The end of `_insert_helper`: what is not in the tree yet becomes a leaf. -/
def insertRest (swaEvictedSeqlen : ℕ) (progress : InsertProgress τ) : CacheM τ Unit := do
  let total := progress.totalPrefixLength
  if progress.key = [] then pure ()
  else if swaEvictedSeqlen = total + progress.key.length then
    modify fun cache => cache.free cfg progress.value
  else do
    let tombstoneLen := if total < swaEvictedSeqlen ∧ swaEvictedSeqlen < total + progress.key.length then
      swaEvictedSeqlen - total else 0
    let node ← addTombstone cfg progress.node tombstoneLen progress.key progress.value
    let newLeaf ← addNewNode cfg node (progress.key.drop tombstoneLen) (progress.value.drop tombstoneLen) false
    if cfg.splitLeafOnInsert then maybeSplitLeafForSwaLock cfg newLeaf else pure ()

/-- `insert`: the length of the prefix that was in the tree already. -/
def insert (key : List τ) (value : List ℕ) (prevPrefixLen swaEvictedSeqlen : ℕ) :
    CacheM τ ℕ := do
  let progress ← insertLoop cfg prevPrefixLen swaEvictedSeqlen key.length ⟨rootNode, key, value, 0⟩
  insertRest cfg swaEvictedSeqlen progress
  pure progress.totalPrefixLength

/-! ## Evicting -/

/-- The asserts of a deletion: the node is a leaf that its parent and the lists know. -/
def deleteNode (node : ℕ) : CacheM τ Unit := do
  let cache ← get
  let entry := cache.nodes node
  assertThat (node ∈ cache.fullLru ∧ (entry.swaTombstone = false → node ∈ cache.swaLru))
  assertThat (entry.children.values = [])
  assertThat ((cache.nodes entry.parent).children.get? (childKey cfg entry.key) = some node)
  set (cache.deleteLeaf cfg node)

end

/-- `_iteratively_delete_tombstone_leaf`: the last node that was deleted, and the number of tokens. -/
def iterativelyDeleteTombstoneLeaf (cfg : RadixConfig) : ℕ → ℕ → ℕ → CacheM τ (ℕ × ℕ)
  | 0, node, evicted => pure (node, evicted)
  | fuel + 1, node, evicted => do
    let cache ← get
    let parent := (cache.nodes node).parent
    let entry := cache.nodes parent
    if entry.swaTombstone ∧ entry.children.values = [] ∧ parent ≠ rootNode ∧ entry.fullLockRef = 0 then do
      assertThat (entry.swaLockRef = 0)
      deleteNode cfg parent
      iterativelyDeleteTombstoneLeaf cfg fuel parent (evicted + entry.value.length)
    else pure (node, evicted)

/-- What `evict` has evicted so far. -/
structure EvictResult where
  numTokensEvicted : ℕ
  swaNumTokensEvicted : ℕ
deriving DecidableEq, Repr

/-- The loop of `evict` over the full list. -/
def evictFullLoop (cfg : RadixConfig) (numTokens : ℕ) : ℕ → Option ℕ → EvictResult → CacheM τ EvictResult
  | 0, _, result => pure result
  | _ + 1, none, result => pure result
  | fuel + 1, some node, result => do
    let cache ← get
    if result.numTokensEvicted < numTokens ∧ node ∈ cache.fullLru then do
      let entry := cache.nodes node
      assertThat (node ≠ rootNode ∧ entry.fullLockRef = 0)
      let next := prevOf cache.fullLru cache.leafNoLock node
      deleteNode cfg node
      let (last, more) ← iterativelyDeleteTombstoneLeaf cfg cache.fullLru.length node 0
      let after ← get
      let next := if (after.nodes (after.nodes last).parent).children.values = [] then
        lruOf after.fullLru after.leafNoLock else next
      evictFullLoop cfg numTokens fuel next
        ⟨result.numTokensEvicted + entry.value.length + more,
          if entry.swaTombstone then result.swaNumTokensEvicted
          else result.swaNumTokensEvicted + entry.value.length⟩
    else pure result

/-- The loop of `evict` over the window list. -/
def evictSwaLoop (cfg : RadixConfig) (swaNumTokens : ℕ) : ℕ → Option ℕ → EvictResult → CacheM τ EvictResult
  | 0, _, result => pure result
  | _ + 1, none, result => pure result
  | fuel + 1, some node, result => do
    let cache ← get
    if result.swaNumTokensEvicted < swaNumTokens ∧ node ∈ cache.swaLru then do
      let entry := cache.nodes node
      assertThat (entry.swaTombstone = false ∧ node ≠ rootNode ∧ entry.swaLockRef = 0)
      let next := prevOf cache.swaLru cache.swaNoLock node
      let swaNumTokensEvicted := result.swaNumTokensEvicted + entry.value.length
      if entry.children.values ≠ [] then do
        set (cache.evictSwa cfg node entry.key.length)
        evictSwaLoop cfg swaNumTokens fuel next ⟨result.numTokensEvicted, swaNumTokensEvicted⟩
      else if 0 < entry.fullLockRef then do
        set (cache.evictSwa cfg node entry.value.length)
        evictSwaLoop cfg swaNumTokens fuel next ⟨result.numTokensEvicted, swaNumTokensEvicted⟩
      else do
        deleteNode cfg node
        let _ ← iterativelyDeleteTombstoneLeaf cfg cache.fullLru.length node 0
        evictSwaLoop cfg swaNumTokens fuel next
          ⟨result.numTokensEvicted + entry.value.length, swaNumTokensEvicted⟩
    else pure result

/-- The first half of `evict`. -/
def evictFull (cfg : RadixConfig) (numTokens : ℕ) : CacheM τ EvictResult := do
  let cache ← get
  if 0 < numTokens then
    evictFullLoop cfg numTokens cache.fullLru.length (lruOf cache.fullLru cache.leafNoLock) ⟨0, 0⟩
  else pure ⟨0, 0⟩

def evict (cfg : RadixConfig) (numTokens swaNumTokens : ℕ) : CacheM τ EvictResult := do
  let result ← evictFull cfg numTokens
  let cache ← get
  if result.swaNumTokensEvicted < swaNumTokens then
    evictSwaLoop cfg swaNumTokens cache.swaLru.length (lruOf cache.swaLru cache.swaNoLock) result
  else pure result

/-! ## Locking -/

/-- The loop of `inc_lock_ref` over the path. -/
def incLockRefLoop (cfg : RadixConfig) : List ℕ → ℕ → Option ℕ → CacheM τ (Option ℕ)
  | [], _, swaUuidForLock => pure swaUuidForLock
  | node :: above, swaLockSize, swaUuidForLock => do
    modify fun cache => cache.lockFull node
    let cache ← get
    if swaLockSize < cfg.slidingWindowSize then do
      assertThat ((cache.nodes node).swaTombstone = false)
      let swaLockSize := swaLockSize + (cache.nodes node).value.length
      set (cache.lockSwa node)
      if cfg.slidingWindowSize ≤ swaLockSize then do
        modify fun cache => cache.ensureUuid node
        let cache ← get
        incLockRefLoop cfg above swaLockSize (cache.nodes node).swaUuid
      else incLockRefLoop cfg above swaLockSize swaUuidForLock
    else incLockRefLoop cfg above swaLockSize swaUuidForLock

/-- `inc_lock_ref`: the uuid to release the lock with. -/
def incLockRef (cfg : RadixConfig) (node : ℕ) : CacheM τ (Option ℕ) := do
  let cache ← get
  incLockRefLoop cfg (cache.path node) 0 none

/-- Has the walk over the locked window reached its end? A release without a uuid goes up to the root. -/
def endsAt (swaUuidForLock swaUuid : Option ℕ) : Bool := swaUuidForLock.isSome && swaUuid == swaUuidForLock

/-- The loop of `dec_lock_ref` over the path. -/
def decLockRefLoop (swaUuidForLock : Option ℕ) : List ℕ → Bool → CacheM τ Unit
  | [], _ => pure ()
  | node :: above, decLockSwa => do
    let cache ← get
    assertThat (0 < (cache.nodes node).fullLockRef)
    set (cache.unlockFull node)
    if decLockSwa then do
      let cache ← get
      assertThat ((cache.nodes node).swaTombstone = false)
      assertThat (0 < (cache.nodes node).swaLockRef)
      set (cache.unlockSwa node)
      decLockRefLoop swaUuidForLock above (!endsAt swaUuidForLock (cache.nodes node).swaUuid)
    else decLockRefLoop swaUuidForLock above false

def decLockRef (node : ℕ) (swaUuidForLock : Option ℕ) (skipSwa : Bool) : CacheM τ Unit := do
  let cache ← get
  decLockRefLoop swaUuidForLock (cache.path node) !skipSwa

/-- The loop of `dec_swa_lock_only` over the path. -/
def decSwaLockOnlyLoop (cfg : RadixConfig) (swaUuidForLock : Option ℕ) : List ℕ → CacheM τ Unit
  | [] => pure ()
  | node :: above => do
    let cache ← get
    let entry := cache.nodes node
    assertThat (entry.swaTombstone = false)
    assertThat (0 < entry.swaLockRef)
    assertThat (entry.swaLockRef = 1 → entry.children.values = [] → node ∈ cache.swaLru)
    set (cache.unlockSwaOnly cfg node)
    if endsAt swaUuidForLock entry.swaUuid then pure ()
    else decSwaLockOnlyLoop cfg swaUuidForLock above

def decSwaLockOnly (cfg : RadixConfig) (node : ℕ) (swaUuidForLock : Option ℕ) : CacheM τ Unit := do
  let cache ← get
  decSwaLockOnlyLoop cfg swaUuidForLock (cache.path node)

end FlashMemory
