import FlashMemory.Model.RadixCache
import FlashMemory.Collections.Run

/-! # Users of the prefix cache and their locks

A user matches a key, locks the node that the match returned and releases the lock later, in one step or with the
window first. Between the match and the lock there are only locks and releases; that is how the scheduler calls
them. Whoever locks keeps the node and the uuid for the release. The record of a lock also has the range of tokens whose
window it holds, which no code reads.
-/

namespace FlashMemory

/-- A lock that has not been released. -/
structure RadixLock where
  node : ℕ
  swaUuidForLock : Option ℕ
  /-- Until `dec_swa_lock_only` has released the window. -/
  swaHeld : Bool
  /-- The tokens from `top` to `bottom` are those of the nodes whose `swa_lock_ref` it incremented. -/
  top : ℕ
  bottom : ℕ
deriving DecidableEq, Repr

namespace RadixLock

variable {τ : Type} (before after : RadixCache τ)

/-- Tokens of the nodes on the path whose `swa_lock_ref` has grown. -/
def grownSize (node : ℕ) : ℕ :=
  ((before.path node).filter fun entry => (before.nodes entry).swaLockRef < (after.nodes entry).swaLockRef).foldr
    (fun entry total => (before.nodes entry).key.length + total) 0

/-- The record of a call of `inc_lock_ref` that returned. -/
def taken (node : ℕ) (swaUuidForLock : Option ℕ) : RadixLock :=
  ⟨node, swaUuidForLock, true, before.depth node - grownSize before after node, before.depth node⟩

/-- Does the lock hold the window of this node? -/
def Covers (lock : RadixLock) (cache : RadixCache τ) (node : ℕ) : Prop :=
  node ∈ cache.path lock.node ∧ lock.top + (cache.nodes node).key.length ≤ cache.depth node ∧
    cache.depth node ≤ lock.bottom

instance (lock : RadixLock) (cache : RadixCache τ) (node : ℕ) : Decidable (lock.Covers cache node) :=
  inferInstanceAs (Decidable (_ ∧ _ ∧ _))

end RadixLock

/-- A call of a user. A release names the lock by its number. -/
inductive CacheCall (τ : Type) where
  | matchPrefix (key : List τ)
  | insert (key : List τ) (value : List ℕ) (prevPrefixLen swaEvictedSeqlen : ℕ)
  | evict (numTokens swaNumTokens : ℕ)
  | incLockRef
  | decLockRef (index : ℕ)
  | decSwaLockOnly (index : ℕ)
deriving DecidableEq

/-- The cache and its locks. -/
structure LockServer (τ : Type) where
  cache : RadixCache τ
  locks : List RadixLock
  /-- The node of the last match, as long as only locks and releases have followed it. -/
  matched : Option ℕ
  /-- An assert has failed. -/
  raised : Bool

namespace LockServer

variable {τ : Type} [DecidableEq τ] (cfg : RadixConfig) (server : LockServer τ)

def init (allocator : KvAllocator) : LockServer τ := ⟨.init allocator, [], none, false⟩

/-- Make a call and note its result. -/
def perform {α : Type} (server : LockServer τ) (call : CacheM τ α) (note : RadixCache τ → α → LockServer τ) :
    LockServer τ :=
  match call server.cache with
  | .ok result cache => note cache result
  | .error _ cache =>
    { server with
      cache := cache
      raised := true }

/-- One call. After a failed assert there are no more calls. -/
def step (call : CacheCall τ) : LockServer τ :=
  if server.raised then server
  else
    match call with
    | .matchPrefix key => server.perform (matchPrefix cfg key) fun cache result =>
        { server with
          cache := cache
          matched := some result.2 }
    | .insert key value prevPrefixLen swaEvictedSeqlen =>
      server.perform (insert cfg key value prevPrefixLen swaEvictedSeqlen) fun cache _ =>
        { server with
          cache := cache
          matched := none }
    | .evict numTokens swaNumTokens => server.perform (evict cfg numTokens swaNumTokens) fun cache _ =>
        { server with
          cache := cache
          matched := none }
    | .incLockRef =>
      match server.matched with
      | none => server
      | some node => server.perform (incLockRef cfg node) fun cache swaUuidForLock =>
          { server with
            cache := cache
            locks := RadixLock.taken server.cache cache node swaUuidForLock :: server.locks }
    | .decLockRef index =>
      match server.locks[index]? with
      | none => server
      | some lock => server.perform (decLockRef lock.node lock.swaUuidForLock !lock.swaHeld) fun cache _ =>
          { server with
            cache := cache
            locks := server.locks.eraseIdx index }
    | .decSwaLockOnly index =>
      match server.locks[index]? with
      | none => server
      | some lock =>
        if lock.swaHeld then
          server.perform (decSwaLockOnly cfg lock.node lock.swaUuidForLock) fun cache _ =>
            { server with
              cache := cache
              locks := server.locks.set index { lock with swaHeld := false }
              matched := none }
        else server

/-- A call of a user who may lock any node of the tree, whether it was matched or not. -/
inductive TreeCall (τ : Type) where
  | call (call : CacheCall τ)
  | lockNode (node : ℕ)
deriving DecidableEq

def treeStep : TreeCall τ → LockServer τ
  | .call call => server.step cfg call
  | .lockNode node =>
    if server.raised ∨ ¬(node = rootNode ∨ node ∈ server.cache.fullLru) then server
    else server.perform (incLockRef cfg node) fun cache swaUuidForLock =>
      { server with
        cache := cache
        locks := RadixLock.taken server.cache cache node swaUuidForLock :: server.locks }

/-- An insertion gets a slot for every token, and page aligned lengths. -/
def Aligned : CacheCall τ → Prop
  | .insert key value _ swaEvictedSeqlen =>
    value.length = key.length ∧ cfg.pageSize ∣ key.length ∧ cfg.pageSize ∣ swaEvictedSeqlen
  | _ => True

instance : DecidablePred (Aligned (τ := τ) cfg) := fun call => by
  cases call <;> dsimp only [Aligned] <;> infer_instance

def TreeAligned : TreeCall τ → Prop
  | .call call => Aligned cfg call
  | .lockNode _ => True

instance : DecidablePred (TreeAligned (τ := τ) cfg) := fun call => by
  cases call <;> dsimp only [TreeAligned] <;> infer_instance

/-- No compaction has replaced the uuid of a lock that still holds its window. -/
def Intact : Prop :=
  ∀ lock ∈ server.locks, lock.swaHeld = true → ∀ uuid ∈ lock.swaUuidForLock, uuid ∉ server.cache.lostUuids

instance : Decidable server.Intact :=
  inferInstanceAs (Decidable (∀ lock ∈ server.locks, _ → ∀ uuid ∈ lock.swaUuidForLock, uuid ∉ server.cache.lostUuids))

end LockServer

end FlashMemory
