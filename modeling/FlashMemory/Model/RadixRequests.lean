import FlashMemory.Model.KvCalls
import FlashMemory.Model.RadixLocks
import FlashMemory.Collections.Pages

/-! # Requests that share the prefix cache

Besides the calls on the tree, requests allocate slots, free them and give up their windows. They do so with slots that
are not in the tree, and in pages. A request inserts the slots of its row: those of the prefix that it has locked belong
to the tree already, the others are its own. Up to `swa_evicted_seqlen` the request has given up the window.
-/

namespace FlashMemory

variable (pageSize : ℕ) (allocator : KvAllocator)

/-- The mapping is a function of the pages and one to one, and the window slots are in use. -/
structure KvAllocator.Pagewise : Prop where
  pages : ∀ slot other, allocator.fullToSwa slot ≠ 0 → allocator.fullToSwa other ≠ 0 →
    (slot / pageSize = other / pageSize ↔ allocator.fullToSwa slot / pageSize = allocator.fullToSwa other / pageSize)
  taken : ∀ slot, allocator.fullToSwa slot ≠ 0 → allocator.fullToSwa slot / pageSize ∉ allocator.swa.pages

/-- Does the slot have a window slot that is in use? -/
def KvAllocator.SwaAllocated (slot : ℕ) : Prop :=
  allocator.fullToSwa slot ≠ 0 ∧ allocator.fullToSwa slot / pageSize ∉ allocator.swa.pages

instance (slot : ℕ) : Decidable (allocator.SwaAllocated pageSize slot) :=
  inferInstanceAs (Decidable (_ ∧ _))

/-- The slots that a call frees, or whose windows it frees. -/
def KvCall.givesUp : KvCall → List ℕ
  | .free slots => slots
  | .freeSwa slots => slots
  | _ => []

section

variable {τ : Type} [DecidableEq τ] (cfg : RadixConfig) (cache : RadixCache τ)

/-- An insertion by a request whose locked prefix ends at the node boundary `b`. -/
structure Admissible (key : List τ) (value : List ℕ)
    (prevPrefixLen swaEvictedSeqlen b : ℕ) : Prop where
  length : value.length = key.length
  aligned : cfg.pageSize ∣ key.length
  inPages : InPages cfg.pageSize value
  /-- A node ends at `b`, and the slots up to there are those of the tree. -/
  boundary : ∃ node ∈ rootNode :: cache.fullLru, cache.spelling node <+: key ∧ (cache.spelling node).length = b ∧
    value.take b = cache.slotsTo node
  prevPrefix : b ≤ prevPrefixLen ∧ prevPrefixLen < b + cfg.pageSize
  distinct : (value.drop b).Nodup
  /-- The other slots are neither in the tree nor free. -/
  own : ∀ slot ∈ value.drop b, slot ∉ cache.slots ∧ slot / cfg.pageSize ∉ cache.allocator.full.pages
  evictedAligned : cfg.pageSize ∣ swaEvictedSeqlen
  evictedWithin : swaEvictedSeqlen ≤ key.length

/-- What `swa_evicted_seqlen` stands for: from there on the request has not given up the windows of its own slots. -/
def WindowsFrom (value : List ℕ) (swaEvictedSeqlen : ℕ) : Prop :=
  ∀ slot ∈ value.drop swaEvictedSeqlen, slot ∉ cache.slots → cache.allocator.SwaAllocated cfg.pageSize slot

/-- Requests have allocated and freed slots, none of which is in the tree. -/
structure LeavesTree (pageSize : ℕ) (cache : RadixCache τ) (allocator : KvAllocator) : Prop where
  pagewise : allocator.Pagewise pageSize
  inUse : ∀ slot ∈ cache.slots, slot / pageSize ∉ allocator.full.pages
  windows : ∀ slot ∈ cache.slots, cache.allocator.fullToSwa slot ≠ 0 →
    allocator.fullToSwa slot = cache.allocator.fullToSwa slot

namespace LockServer

variable (cfg : RadixConfig) (server : LockServer τ)

/-- A call on the tree, or what requests do to the allocator between two such calls. -/
inductive SharedCall (τ : Type) where
  | tree (call : TreeCall τ)
  | requests (allocator : KvAllocator)

def sharedStep : SharedCall τ → LockServer τ
  | .tree call => server.treeStep cfg call
  | .requests allocator =>
    if server.raised then server
    else { server with cache := { server.cache with allocator := allocator } }

/-- Insertions are admissible, and requests leave the tree alone. -/
def Permitted : SharedCall τ → Prop
  | .tree (.call (.insert key value prevPrefixLen swaEvictedSeqlen)) =>
    ∃ b, Admissible cfg server.cache key value prevPrefixLen swaEvictedSeqlen b
  | .tree _ => True
  | .requests allocator => LeavesTree cfg.pageSize server.cache allocator

/-- Insertions are told how much of the windows is gone. -/
def Truthful : SharedCall τ → Prop
  | .tree (.call (.insert _ value _ swaEvictedSeqlen)) => WindowsFrom cfg server.cache value swaEvictedSeqlen
  | _ => True

end LockServer

/-- `evict_from_tree_cache`, for the allocator of two pools. -/
def evictFromTreeCache (numTokens : ℕ) : CacheM τ Unit := do
  let cache ← get
  let fullAvailableSize := cache.allocator.full.availableSize cfg.pageSize
  let swaAvailableSize := cache.allocator.swa.availableSize cfg.pageSize
  if fullAvailableSize < numTokens ∨ swaAvailableSize < numTokens then do
    let _ ← evict cfg (numTokens - fullAvailableSize) (numTokens - swaAvailableSize)
    pure ()
  else pure ()

end

end FlashMemory
