import FlashMemory.Soundness.RadixInsert
import FlashMemory.Soundness.RadixEvict
import FlashMemory.Soundness.RadixLockWalks

/-! # Every release undoes its lock

As long as no compaction replaces the uuid of a lock whose window is held, a release decrements `swa_lock_ref` on the
nodes that now have the tokens whose nodes the lock incremented, no assert fails, and no count is left when all locks
have been released.

The condition is needed. A uuid stays on its node when the lock that asked for it is released.
`_compact_single_child_chain` takes the uuid of the child when both nodes have one, so such an idle uuid replaces the
one that another lock waits for. -/

namespace FlashMemory

open List Option

namespace RadixCache

variable {τ : Type} [DecidableEq τ] {cfg : RadixConfig} {cache cache' : RadixCache τ} {pos : ℕ → ℕ} {node top : ℕ}
  {uuid : Option ℕ} {locks : List RadixLock} {lock : RadixLock}

/-! ## Taking a lock -/

section

omit [DecidableEq τ]

private theorem ensureUuid_kept {other issued : ℕ} (has : (cache.nodes other).swaUuid = some issued) :
    ((cache.ensureUuid node).nodes other).swaUuid = some issued := by
  rw [ensureUuid_nodes]
  split_ifs
  · rw [has, some_or]
  · exact has

/-- Where a uuid comes from: it was there, or it is the next one. -/
theorem ensureUuid_cases {other issued : ℕ} (has : ((cache.ensureUuid node).nodes other).swaUuid = some issued) :
    (cache.nodes other).swaUuid = some issued ∨
      other = node ∧ issued = cache.swaUuidCounter + 1 ∧
      (cache.ensureUuid node).swaUuidCounter = cache.swaUuidCounter + 1 := by
  rw [ensureUuid_nodes] at has
  split_ifs at has with here
  · subst here
    unfold ensureUuid
    cases was : (cache.nodes other).swaUuid with
    | none =>
      rw [was, none_or, some_inj] at has
      exact .inr ⟨rfl, has.symm, rfl⟩
    | some _ =>
      rw [was, some_or] at has
      exact .inl has
  · exact .inl has

theorem le_ensureUuid_counter : cache.swaUuidCounter ≤ (cache.ensureUuid node).swaUuidCounter := by
  unfold ensureUuid
  cases (cache.nodes node).swaUuid
  · exact Nat.le_succ _
  · exact le_rfl

theorem Labels.ensureUuid (labels : Labels cache) (tree : SameTree cache cache')
    (same : SameUuids (cache.ensureUuid node) cache') (sound : cache'.Sound) : Labels cache' where
  sound := sound
  unique := fun first here second there issued has has' => by
    rw [same.uuid] at has has'
    rw [tree.mem] at here there
    rcases ensureUuid_cases has with had | ⟨is, new, _⟩ <;> rcases ensureUuid_cases has' with had' | ⟨is', new', _⟩
    · exact labels.unique first here second there issued had had'
    · exact absurd (labels.minted first here issued had) (by omega)
    · exact absurd (labels.minted second there issued had') (by omega)
    · exact is.trans is'.symm
  minted := fun entry here issued has => by
    rw [same.uuid] at has
    rw [tree.mem] at here
    rw [same.counter]
    rcases ensureUuid_cases has with had | ⟨_, new, counter⟩
    · exact (labels.minted entry here issued had).trans le_ensureUuid_counter
    · omega

end

namespace Incremented

variable (incremented : Incremented cache pos node (cache.path node) top uuid cache')

include incremented in
omit [DecidableEq τ] in
private theorem uuid_kept {other issued : ℕ} (has : (cache.nodes other).swaUuid = some issued) :
    (cache'.nodes other).swaUuid = some issued := by
  rcases incremented.ends with ⟨_, _, same⟩ | ⟨carrier, _, _, _, same⟩
  · rw [same.uuid]
    exact has
  · rw [same.uuid]
    exact ensureUuid_kept has

include incremented in
omit [DecidableEq τ] in
theorem sound (sound : cache.Sound) : cache'.Sound := by
  intro other mem dead
  rw [incremented.relock.tombstone] at dead
  have was := sound other (incremented.relock.slots.tree.mem.mp mem) dead
  rw [incremented.swa, was, if_neg]
  rintro ⟨passed, reached⟩
  exact absurd dead (by rw [incremented.alive other passed reached]; exact Bool.false_ne_true)

include incremented in
omit [DecidableEq τ] in
theorem labels (labels : Labels cache) : Labels cache' := by
  have tree := incremented.relock.slots.tree
  have sound := incremented.sound labels.sound
  rcases incremented.ends with ⟨_, _, same⟩ | ⟨carrier, _, _, _, same⟩
  · exact labels.congr tree same.uuid same.counter sound
  · exact labels.ensureUuid tree same sound

include incremented in
omit [DecidableEq τ] in
theorem marked : cache'.Marked pos ⟨node, uuid, true, top, pos node⟩ := by
  rcases incremented.ends with ⟨none, zero, _⟩ | ⟨carrier, passed, start, is, same⟩
  · exact .inl ⟨none, zero⟩
  · have tree := incremented.relock.slots.tree
    refine .inr ⟨carrier, tree.path.symm ▸ passed, ?_, is.symm, (tree.parent carrier).symm ▸ start⟩
    dsimp only
    rw [is, same.uuid, ensureUuid_nodes, if_pos rfl, isSome_or]
    exact Bool.or_true _

include incremented in
omit [DecidableEq τ] in
theorem windows (windows : Windows cache pos locks) :
    Windows cache' pos (⟨node, uuid, true, top, pos node⟩ :: locks) := by
  have tree := incremented.relock.slots.tree
  refine ⟨incremented.labels windows.toLabels, fun entry mem => ?_, fun lock mem holds => ?_⟩
  · rw [incremented.swa, windows.swa entry (tree.mem.mp mem), countP_cons, countP_iff fun lock _ => tree.reached]
    congr 1
    refine if_congr ?_ rfl rfl
    rw [decide_eq_true_eq, tree.reached]
    exact ⟨fun reached => ⟨rfl, reached⟩, fun reached => reached.2⟩
  · rcases mem_cons.mp mem with rfl | mem
    · exact incremented.marked
    · refine (windows.marked lock mem holds).imp id ?_
      rintro ⟨carrier, passed, some, carries, start⟩
      obtain ⟨issued, is⟩ := isSome_iff_exists.mp some
      refine ⟨carrier, tree.path.symm ▸ passed, some, ?_, (tree.parent carrier).symm ▸ start⟩
      rw [is] at carries ⊢
      exact incremented.uuid_kept carries

end Incremented

/-! ## Releasing a lock -/

section

variable (windows : Windows cache pos locks) (shape : Shape cfg cache pos) (mem : lock ∈ locks)
  (holds : lock.swaHeld = true) (inTree : cache.InTree lock.node) {entry : ℕ}
include windows shape mem holds inTree

/-- A release decrements the nodes that the window of the lock reaches. -/
theorem Windows.mem_windowOf_iff :
    entry ∈ windowOf cache lock.swaUuidForLock (cache.path lock.node) ↔ Reached cache pos entry lock := by
  obtain ⟨walk, within⟩ := shape.climb_path inTree
  have marked := windows.marked lock mem holds
  constructor
  · intro reached
    refine ⟨holds, windowOf_subset reached, ?_⟩
    rcases marked with ⟨_, zero⟩ | ⟨carrier, passed, some, carries, start⟩
    · exact zero.le.trans (Nat.zero_le _)
    · rw [← start]
      exact start_le_of_mem_windowOf shape walk within passed (endsAt_iff.mpr ⟨some, carries⟩) reached
  · rintro ⟨_, passed, reached⟩
    refine mem_windowOf shape walk within (fun other higher ends => ?_) passed reached
    obtain ⟨some, same⟩ := endsAt_iff.mp ends
    rcases marked with ⟨none, _⟩ | ⟨carrier, passed', _, carries, start⟩
    · exact absurd some (by rw [none]; exact Bool.false_ne_true)
    · -- there is only one node with the uuid
      obtain ⟨issued, is⟩ := isSome_iff_exists.mp some
      rw [is] at same carries
      rw [windows.unique other (within higher) carrier (within passed') issued same carries, start]

/-- No assert of a release fails at a node of its window. -/
theorem Windows.not_failed
    (inside : entry ∈ windowOf cache lock.swaUuidForLock (cache.path lock.node)) :
    ¬((cache.nodes entry).swaTombstone = true ∨ (cache.nodes entry).swaLockRef = 0) := by
  have reached := (windows.mem_windowOf_iff shape mem holds inTree).mp inside
  have old := (shape.climb_path inTree).2 reached.2.1
  have held : 0 < (cache.nodes entry).swaLockRef := by
    rw [windows.swa entry old, countP_pos_iff]
    exact ⟨lock, mem, decide_eq_true reached⟩
  rintro (dead | zero)
  · exact held.ne' (windows.sound entry old dead)
  · exact held.ne' zero

end

/-- The window of the lock is released: one window lock less on the nodes that it reaches. -/
def Released (cache : RadixCache τ) (pos : ℕ → ℕ) (lock : RadixLock) (cache' : RadixCache τ) : Prop :=
  ∀ entry, (cache'.nodes entry).swaLockRef + (if Reached cache pos entry lock then 1 else 0) =
    (cache.nodes entry).swaLockRef

section

omit [DecidableEq τ]

theorem Windows.release (windows : Windows cache pos (lock :: locks)) (tree : SameTree cache cache')
    (uuids : SameUuids cache cache') (sound : cache'.Sound) (released : Released cache pos lock cache') :
    Windows cache' pos locks where
  toLabels := windows.toLabels.congr tree uuids.uuid uuids.counter sound
  swa := fun entry mem => by
    have was := windows.swa entry (tree.mem.mp mem)
    rw [← released entry, countP_cons] at was
    simp only [decide_eq_true_eq] at was
    rw [Nat.add_right_cancel was]
    exact countP_iff fun other _ => tree.reached.symm
  marked := fun other mem holds => by
    simp only [Marked, tree.path, tree.parent, uuids.uuid]
    exact windows.marked other (mem_cons_of_mem _ mem) holds

theorem Windows.consReleased (windows : Windows cache pos locks) (released : lock.swaHeld = false) :
    Windows cache pos (lock :: locks) where
  toLabels := windows.toLabels
  swa := fun entry mem => by
    rw [windows.swa entry mem, countP_cons_of_neg]
    simp [Reached, released]
  marked := fun other mem holds => by
    rcases mem_cons.mp mem with rfl | mem
    · exact absurd (released.symm.trans holds) Bool.false_ne_true
    · exact windows.marked other mem holds

theorem Decremented.sound {above window : List ℕ} (decremented : Decremented cache above window cache')
    (sound : cache.Sound) : cache'.Sound := by
  intro entry mem dead
  rw [decremented.relock.tombstone] at dead
  have was := sound entry (decremented.relock.slots.tree.mem.mp mem) dead
  have now := decremented.swa entry
  omega

end

section

variable {fails : RadixCache τ → Prop} (shape : Shape cfg cache pos) (locked : Locked cache pos (lock :: locks))
  (windows : Windows cache pos (lock :: locks))

include shape locked windows

/-- `dec_lock_ref` of a lock, with its window or without. -/
theorem ensures_decLockRef_of_windows :
    Ensures (decLockRef lock.node lock.swaUuidForLock !lock.swaHeld) cache
      (fun _ cache' => Released cache pos lock cache' ∧
      Relock cache cache' ∧ Locked cache' pos locks ∧ Windows cache' pos locks) fails := by
  have self : lock ∈ lock :: locks := mem_cons_self ..
  have inTree := locked.inTree lock self
  refine (ensures_decLockRef shape inTree (locked.pos_of_mem_path self (shape.climb_path inTree).2)).mono ?_ ?_
  · intro _ cache' decremented
    have released : Released cache pos lock cache' := by
      intro entry
      rw [← decremented.swa entry]
      refine congrArg _ (if_congr ?_ rfl rfl)
      by_cases holds : lock.swaHeld = true
      · rw [holds, Bool.not_true, if_neg Bool.false_ne_true, windows.mem_windowOf_iff shape self holds inTree]
      · simp [Reached, holds]
    exact ⟨released, decremented.relock, decremented.locked locked,
      windows.release decremented.relock.slots.tree decremented.uuids (decremented.sound windows.sound) released⟩
  · rintro cache' ⟨_, whole, entry, reached, bad⟩
    exact absurd bad (windows.not_failed shape self (by simpa using whole) inTree reached)

theorem ensures_decSwaLockOnly_of_windows (holds : lock.swaHeld = true) :
    Ensures (decSwaLockOnly cfg lock.node lock.swaUuidForLock) cache (fun _ cache' => Released cache pos lock cache' ∧
      Shape cfg cache' pos ∧ Locked cache' pos ({ lock with swaHeld := false } :: locks) ∧
      Windows cache' pos ({ lock with swaHeld := false } :: locks)) fails := by
  have self : lock ∈ lock :: locks := mem_cons_self ..
  have inTree := locked.inTree lock self
  refine (ensures_decSwaLockOnly shape inTree).mono ?_ ?_
  · intro _ cache' unwindowed
    have released : Released cache pos lock cache' := by
      intro entry
      rw [← unwindowed.swa entry]
      exact congrArg _ (if_congr (windows.mem_windowOf_iff shape self holds inTree).symm rfl rfl)
    exact ⟨released, unwindowed.shape, locked.unwindow unwindowed.slots.tree unwindowed.full rfl rfl,
      (windows.release unwindowed.slots.tree unwindowed.uuids (unwindowed.sound windows.sound) released).consReleased
        rfl⟩
  · rintro cache' ⟨_, entry, reached, bad⟩
    exact absurd bad (windows.not_failed shape self holds inTree reached)

end

/-! ## Nodes that can be locked -/

theorem Shape.pos_eq {pos' : ℕ → ℕ} (shape : Shape cfg cache pos) (shape' : Shape cfg cache pos')
    (inTree : cache.InTree node) : pos' node = pos node := by
  rw [← shape.depth_eq inTree, shape'.depth_eq inTree]

/-- The window above the node has no tombstone. -/
def Lockable (cfg : RadixConfig) (cache : RadixCache τ) (node : ℕ) : Prop :=
  ∃ pos, Shape cfg cache pos ∧ cache.InTree node ∧ AliveWithin cache pos node cfg.slidingWindowSize

theorem Lockable.alive (lockable : Lockable cfg cache node) (shape : Shape cfg cache pos) :
    cache.InTree node ∧ AliveWithin cache pos node cfg.slidingWindowSize := by
  obtain ⟨pos', shape', inTree, alive⟩ := lockable
  refine ⟨inTree, fun entry passed close => alive entry passed ?_⟩
  rwa [shape.pos_eq shape' inTree, shape.pos_eq shape' (.inr ((shape.climb_path inTree).2 passed))]

theorem Relock.lockable (relock : Relock cache cache') (lockable : Lockable cfg cache node) :
    Lockable cfg cache' node := by
  obtain ⟨pos, shape, inTree, alive⟩ := lockable
  refine ⟨pos, relock.shape shape, relock.slots.tree.inTree.mpr inTree, fun entry passed close => ?_⟩
  rw [relock.slots.tree.path] at passed
  rw [relock.tombstone]
  exact alive entry passed close

/-- A lock covers the nodes that its window reaches. -/
theorem Shape.covers_iff (shape : Shape cfg cache pos) (inTree : cache.InTree lock.node)
    (bottom : pos lock.node = lock.bottom) {entry : ℕ} :
    lock.Covers cache entry ↔ entry ∈ cache.path lock.node ∧ lock.top ≤ pos (cache.nodes entry).parent := by
  refine and_congr_right fun passed => ?_
  have inside := (shape.climb_path inTree).2 passed
  have position := shape.position entry inside
  have low := shape.pos_le inTree passed
  rw [shape.depth_eq (.inr inside)]
  omega

end RadixCache

/-! ## Runs -/

namespace LockServer

open RadixCache

variable {τ : Type} [DecidableEq τ] {cfg : RadixConfig} {server : LockServer τ}

omit [DecidableEq τ] in
/-- A call that cannot raise leads to a state with what it ensures. -/
private theorem perform_of_returns {α : Type} {call : CacheM τ α} {note : RadixCache τ → α → LockServer τ}
    {post : α → RadixCache τ → Prop} {good : LockServer τ → Prop}
    (ensured : Ensures call server.cache post fun _ => False)
    (noted : ∀ result cache, post result cache → good (note cache result)) : good (server.perform call note) := by
  obtain ⟨result, cache, returns, holds⟩ := ensured.returns
  rw [perform, returns]
  exact noted result cache holds

/-- The tree is guarded by the locks, and the register holds a node that can be locked. -/
structure Consistent (cfg : RadixConfig) (server : LockServer τ) : Prop where
  running : server.raised = false
  guarded : Guarded cfg server.cache server.locks
  lockable : ∀ node ∈ server.matched, Lockable cfg server.cache node

theorem consistent_init (allocator : KvAllocator) : Consistent cfg (init allocator : LockServer τ) where
  running := rfl
  guarded := by
    have none : ∀ node, node ∉ (RadixCache.init allocator : RadixCache τ).fullLru := fun _ => not_mem_nil
    refine ⟨fun _ => 0, ?_, ⟨?_, ?_, ?_⟩, ⟨?_, ?_, ?_⟩, ?_, ?_⟩
    · refine ⟨rfl, rfl, Nat.one_pos, none _, nodup_nil, ?_, ?_, fun node _ key child => ?_, ?_, ?_, ?_, ?_,
        nodup_nil, fun node => ?_⟩
      case refine_3 => exact ⟨fun bound => absurd bound (some_ne_none _).symm, fun bound => absurd bound.1 (none _)⟩
      case refine_8 => exact ⟨fun mem => absurd mem not_mem_nil, fun mem => absurd mem.1 (none _)⟩
      all_goals exact fun node mem => absurd mem (none node)
    all_goals exact fun _ mem => absurd mem not_mem_nil
  lockable := fun _ is => absurd is (not_mem_none _)

/-- Consistent, unless a compaction has replaced the uuid of a lock. -/
def Undisturbed (cfg : RadixConfig) (server : LockServer τ) : Prop := server.Intact → Consistent cfg server

/-- A call that only edits the tree. -/
private theorem consistent_of_edits {server' : LockServer τ} {value pending : List ℕ}
    (consistent : Consistent cfg server)
    (edits : Edits cfg (server.cache, value) (server'.cache, pending)) (same : server'.locks = server.locks)
    (running : server'.raised = false) (lockable : ∀ node ∈ server'.matched, Lockable cfg server'.cache node) :
    Undisturbed cfg server' := fun intact =>
  ⟨running, same ▸ edits.guarded consistent.guarded (same ▸ intact), lockable⟩

/-- The locks, with one of them in front. -/
theorem perm_of_getElem? {locks : List RadixLock} {index : ℕ} {lock : RadixLock} (is : locks[index]? = some lock) :
    locks.Perm (lock :: locks.eraseIdx index) := by
  obtain ⟨inside, rfl⟩ := List.getElem?_eq_some_iff.mp is
  exact (getElem_cons_eraseIdx_perm inside).symm

theorem step_consistent (consistent : Consistent cfg server) (call : CacheCall τ) (aligned : Aligned cfg call) :
    Undisturbed cfg (step cfg server call) := by
  obtain ⟨running, ⟨pos, shape, locked, windows⟩, lockable⟩ := id consistent
  unfold step
  rw [running, if_neg Bool.false_ne_true]
  cases call with
  | matchPrefix key =>
    refine perform_of_returns (ensures_matchPrefix shape) ?_
    rintro ⟨slots, node⟩ cache' ⟨pos', reshapes, shape', matched⟩
    refine consistent_of_edits consistent reshapes.edits rfl rfl fun other is => ?_
    obtain rfl := some_inj.mp is
    exact ⟨pos', shape', matched.inTree, matched.alive⟩
  | insert key value prevPrefixLen swaEvictedSeqlen =>
    obtain ⟨length, keyAligned, evictedAligned⟩ := aligned
    refine perform_of_returns ((ensures_insert shape length keyAligned evictedAligned).mono (fun _ _ post => post)
      fun _ ⟨_, _, _, unsound⟩ => unsound windows.sound) ?_
    rintro _ cache' ⟨pos', skip, shape', passed, _⟩
    exact consistent_of_edits consistent passed.edits rfl rfl fun other is => absurd is (not_mem_none _)
  | evict numTokens swaNumTokens =>
    refine perform_of_returns (ensures_evict shape windows.sound numTokens swaNumTokens) fun _ cache' evicted => ?_
    exact consistent_of_edits consistent evicted.edits rfl rfl fun other is => absurd is (not_mem_none _)
  | incLockRef =>
    dsimp only
    cases matched : server.matched with
    | none => exact fun _ => consistent
    | some node =>
      obtain ⟨inTree, alive⟩ := (lockable node matched).alive shape
      refine perform_of_returns (ensures_incLockRef shape inTree alive) ?_
      rintro uuid cache' ⟨top, incremented⟩
      refine fun _ => ⟨rfl, ⟨pos, incremented.relock.shape shape, ?_, ?_⟩, fun other is => ?_⟩
      · exact incremented.locked locked inTree rfl (shape.depth_eq inTree)
      · dsimp only
        rw [incremented.taken shape inTree]
        exact incremented.windows windows
      · exact incremented.relock.lockable (lockable other (matched.trans is))
  | decLockRef index =>
    dsimp only
    cases found : server.locks[index]? with
    | none => exact fun _ => consistent
    | some lock =>
      have perm := (perm_of_getElem? found).symm
      refine perform_of_returns (ensures_decLockRef_of_windows shape (locked.perm perm) (windows.perm perm)) ?_
      rintro _ cache' ⟨_, relock, locked', windows'⟩
      exact fun _ =>
        ⟨rfl, ⟨pos, relock.shape shape, locked', windows'⟩, fun other is => relock.lockable (lockable other is)⟩
  | decSwaLockOnly index =>
    dsimp only
    cases found : server.locks[index]? with
    | none => exact fun _ => consistent
    | some lock =>
      dsimp only
      split_ifs with holds
      · have perm := (perm_of_getElem? found).symm
        have perm' := set_perm_cons_eraseIdx (List.getElem?_eq_some_iff.mp found).1 { lock with swaHeld := false }
        refine perform_of_returns
          (ensures_decSwaLockOnly_of_windows shape (locked.perm perm) (windows.perm perm) holds) ?_
        rintro _ cache' ⟨_, shape', locked', windows'⟩
        exact fun _ => ⟨rfl, ⟨pos, shape', locked'.perm perm', windows'.perm perm'⟩, fun other is =>
          absurd is (not_mem_none _)⟩
      · exact fun _ => consistent

/-- The call returns and takes one window lock from every node with tokens of the lock, and from no other node. -/
def Undoes (cache : RadixCache τ) (lock : RadixLock) (call : CacheM τ Unit) : Prop :=
  ∃ cache', call cache = .ok () cache' ∧ ∀ entry, cache.Reaches entry → entry ≠ rootNode →
    (cache'.nodes entry).swaLockRef + (if lock.swaHeld = true ∧ lock.Covers cache entry then 1 else 0) =
      (cache.nodes entry).swaLockRef

namespace Consistent

/-- Locking the matched node increments the nodes with the tokens that are noted for the lock. -/
private theorem locks_covered (consistent : Consistent cfg server) {node : ℕ} (matched : node ∈ server.matched) :
    ∃ uuid cache', incLockRef cfg node server.cache = .ok uuid cache' ∧ ∀ entry, server.cache.Reaches entry →
      entry ≠ rootNode → (cache'.nodes entry).swaLockRef = (server.cache.nodes entry).swaLockRef +
        if (RadixLock.taken server.cache cache' node uuid).Covers server.cache entry then 1 else 0 := by
  obtain ⟨pos, shape, locked, _⟩ := consistent.guarded
  obtain ⟨inTree, alive⟩ := (consistent.lockable node matched).alive shape
  have ensured : Ensures (incLockRef cfg node) server.cache _ fun _ => False := ensures_incLockRef shape inTree alive
  obtain ⟨uuid, cache', returns, top, incremented⟩ := ensured.returns
  refine ⟨uuid, cache', returns, fun entry reached away => ?_⟩
  rw [incremented.swa, incremented.taken shape inTree]
  refine congrArg _ (if_congr (Iff.symm ?_) rfl rfl)
  exact @Shape.covers_iff _ _ cfg _ pos ⟨node, uuid, true, top, pos node⟩ shape inTree rfl entry

theorem undoes {call : CacheM τ Unit} {pos : ℕ → ℕ} {lock : RadixLock} {after : RadixCache τ → Prop}
    (shape : Shape cfg server.cache pos) (locked : Locked server.cache pos server.locks) (mem : lock ∈ server.locks)
    (ensured : Ensures call server.cache (fun _ cache' => Released server.cache pos lock cache' ∧ after cache')
      fun _ => False) :
    Undoes server.cache lock call := by
  obtain ⟨_, cache', returns, released, _⟩ := ensured.returns
  refine ⟨cache', returns, fun entry _ _ => ?_⟩
  rw [← released entry]
  refine congrArg _ (if_congr ?_ rfl rfl)
  rw [shape.covers_iff (locked.inTree lock mem) (locked.bottom lock mem)]
  rfl

variable (consistent : Consistent cfg server)
include consistent

private theorem releases {lock : RadixLock} (mem : lock ∈ server.locks) :
    Undoes server.cache lock (decLockRef lock.node lock.swaUuidForLock !lock.swaHeld) := by
  obtain ⟨pos, shape, locked, windows⟩ := consistent.guarded
  have perm := (perm_cons_erase mem).symm
  exact undoes shape locked mem (ensures_decLockRef_of_windows shape (locked.perm perm) (windows.perm perm))

private theorem releases_window {lock : RadixLock} (mem : lock ∈ server.locks)
    (holds : lock.swaHeld = true) : Undoes server.cache lock (decSwaLockOnly cfg lock.node lock.swaUuidForLock) := by
  obtain ⟨pos, shape, locked, windows⟩ := consistent.guarded
  have perm := (perm_cons_erase mem).symm
  exact undoes shape locked mem (ensures_decSwaLockOnly_of_windows shape (locked.perm perm) (windows.perm perm) holds)

theorem unlocked (released : server.locks = []) {entry : ℕ}
    (reached : server.cache.Reaches entry) (away : entry ≠ rootNode) :
    (server.cache.nodes entry).fullLockRef = 0 ∧ (server.cache.nodes entry).swaLockRef = 0 := by
  obtain ⟨pos, shape, locked, windows⟩ := consistent.guarded
  have inside := (shape.inTree_of_reaches reached).resolve_left away
  rw [locked.full entry inside, windows.swa entry inside, released]
  exact ⟨rfl, rfl⟩

end Consistent

/-- In every run in which no compaction replaces the uuid of a lock whose window is held, no assert fails, a lock
increments `swa_lock_ref` on the nodes with the tokens noted for it and its release decrements it on the nodes that have
these tokens then, and without locks all counts are zero. -/
theorem lock_symmetry (cfg : RadixConfig) (allocator : KvAllocator) (calls : List (CacheCall τ))
    (admitted : Along (step cfg) (fun server call => Aligned cfg call ∧ (step cfg server call).Intact)
      (init allocator) calls) :
    let server := run (step cfg) (init allocator) calls
    server.raised = false ∧
    (∀ node ∈ server.matched, ∃ uuid cache', incLockRef cfg node server.cache = .ok uuid cache' ∧
      ∀ entry, server.cache.Reaches entry → entry ≠ rootNode → (cache'.nodes entry).swaLockRef =
        (server.cache.nodes entry).swaLockRef +
          if (RadixLock.taken server.cache cache' node uuid).Covers server.cache entry then 1 else 0) ∧
    (∀ lock ∈ server.locks, Undoes server.cache lock (decLockRef lock.node lock.swaUuidForLock !lock.swaHeld) ∧
      (lock.swaHeld = true → Undoes server.cache lock (decSwaLockOnly cfg lock.node lock.swaUuidForLock))) ∧
    (server.locks = [] → ∀ entry, server.cache.Reaches entry → entry ≠ rootNode →
      (server.cache.nodes entry).fullLockRef = 0 ∧ (server.cache.nodes entry).swaLockRef = 0) := by
  have consistent := admitted.invariant (consistent_init allocator) fun server call consistent allowed =>
    step_consistent consistent call allowed.1 allowed.2
  exact ⟨consistent.running, fun node matched => consistent.locks_covered matched,
    fun lock member => ⟨consistent.releases member, consistent.releases_window member⟩,
    fun released entry => consistent.unlocked released⟩

/-- A run that inserts, locks and splits below the lock. -/
def sharedPrefixRun : List (CacheCall ℕ) :=
  [.insert [1, 2, 3] [4, 5, 6] 0 0, .matchPrefix [1, 2, 3], .incLockRef, .insert [1, 2, 7] [8, 9, 10] 0 0,
    .decSwaLockOnly 0]

theorem lock_symmetry_shared_prefix :
    Along (step (.standard 1 2 (by decide) (by decide))) (fun server call =>
      Aligned (.standard 1 2 (by decide) (by decide)) call ∧
      (step (.standard 1 2 (by decide) (by decide)) server call).Intact) (init (.clear 1 8 8 false)) sharedPrefixRun ∧
    (run (step (.standard 1 2 (by decide) (by decide))) (init (.clear 1 8 8 false)) sharedPrefixRun).raised = false :=
  have admitted : Along (step (.standard 1 2 (by decide) (by decide))) (fun server call =>
      Aligned (.standard 1 2 (by decide) (by decide)) call ∧
      (step (.standard 1 2 (by decide) (by decide)) server call).Intact)
      (init (.clear 1 8 8 false)) sharedPrefixRun := by decide +kernel
  ⟨admitted, (lock_symmetry _ _ _ admitted).1⟩

/-- The uuid of a released lock replaces that of a lock that is held, and its release runs into a node that it never
locked. -/
def staleUuidRun : List (CacheCall ℕ) :=
  [.insert [1] [1] 0 0, .insert [1, 2] [1, 2] 1 0, .matchPrefix [1, 2], .incLockRef,
    .insert [1, 2, 3, 5, 6] [1, 2, 3, 5, 6] 2 0, .insert [1, 2, 3, 4] [1, 2, 3, 4] 3 0,
    .matchPrefix [1, 2, 3, 5, 6], .incLockRef, .decLockRef 0, .matchPrefix [1, 2, 3, 4], .incLockRef, .decLockRef 1,
    .matchPrefix [1, 2, 3, 4], .decLockRef 0]

theorem release_fails_after_compaction :
    (∀ call ∈ staleUuidRun, Aligned (.standard 1 3 (by decide) (by decide)) call) ∧
      (run (step (.standard 1 3 (by decide) (by decide))) (init (.clear 1 8 8 false)) staleUuidRun.dropLast).raised =
        false ∧
      (run (step (.standard 1 3 (by decide) (by decide))) (init (.clear 1 8 8 false)) staleUuidRun).raised = true := by
  decide +kernel

end LockServer

end FlashMemory
