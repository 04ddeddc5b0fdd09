import FlashMemory.Soundness.RadixLocks
import FlashMemory.Soundness.RadixMatch

/-! # Taking and releasing locks

The three lock operations walk from a node to the root. They change counts, uuids and sizes, and a release of the window
alone can also make a tombstone of a leaf. The walks are described by what they do to the count of every node on the
path.
-/

namespace FlashMemory

open List

namespace RadixCache

variable {τ : Type} [DecidableEq τ] {cfg : RadixConfig} {cache cache' cache'' : RadixCache τ} {pos : ℕ → ℕ} {node : ℕ}
  {uuid : Option ℕ} {fails : RadixCache τ → Prop} {above : List ℕ} (other : ℕ)

/-- The same tree with the same slots; only counts, uuids, sizes and tombstones may differ. -/
structure SameSlots (cache cache' : RadixCache τ) : Prop where
  tree : SameTree cache cache'
  fullLru : cache'.fullLru = cache.fullLru
  value : ∀ node, (cache'.nodes node).value = (cache.nodes node).value
  full : cache'.allocator.full = cache.allocator.full
  freeCalls : cache'.freeCalls = cache.freeCalls
  revivedLocks : cache'.revivedLocks = cache.revivedLocks
  lostUuids : cache'.lostUuids = cache.lostUuids

/-- The tombstones and the allocator are the same as well. -/
structure Relock (cache cache' : RadixCache τ) : Prop where
  slots : SameSlots cache cache'
  swaLru : cache'.swaLru = cache.swaLru
  tombstone : ∀ node, (cache'.nodes node).swaTombstone = (cache.nodes node).swaTombstone
  allocator : cache'.allocator = cache.allocator

section

omit [DecidableEq τ]

theorem SameSlots.refl (cache : RadixCache τ) : SameSlots cache cache :=
  ⟨⟨List.Perm.refl _, rfl, fun _ => rfl, fun _ => rfl, fun _ => rfl⟩, rfl, fun _ => rfl, rfl, rfl, rfl, rfl⟩

theorem SameTree.trans (first : SameTree cache cache') (second : SameTree cache' cache'') : SameTree cache cache'' :=
  ⟨second.members.trans first.members, second.counter.trans first.counter,
    fun node => (second.children node).trans (first.children node), fun node =>
      (second.parent node).trans (first.parent node),
    fun node => (second.key node).trans (first.key node)⟩

theorem SameSlots.trans (first : SameSlots cache cache') (second : SameSlots cache' cache'') :
    SameSlots cache cache'' :=
  ⟨first.tree.trans second.tree, second.fullLru.trans first.fullLru,
    fun node => (second.value node).trans (first.value node), second.full.trans first.full,
    second.freeCalls.trans first.freeCalls, second.revivedLocks.trans first.revivedLocks,
    second.lostUuids.trans first.lostUuids⟩

end

namespace Relock

omit [DecidableEq τ] in
theorem refl (cache : RadixCache τ) : Relock cache cache := ⟨.refl cache, rfl, fun _ => rfl, rfl⟩

omit [DecidableEq τ] in
theorem trans (first : Relock cache cache') (second : Relock cache' cache'') : Relock cache cache'' :=
  ⟨first.slots.trans second.slots, second.swaLru.trans first.swaLru,
    fun node => (second.tombstone node).trans (first.tombstone node), second.allocator.trans first.allocator⟩

theorem shape (relock : Relock cache cache') (shape : Shape cfg cache pos) : Shape cfg cache' pos := by
  refine relock.slots.tree.shape shape (fun node _ => by rw [relock.slots.value]) ?_ ?_ fun node => ?_
  · rw [relock.tombstone]
    exact shape.rootAlive
  · rw [relock.swaLru]
    exact shape.swaNodup
  · rw [relock.swaLru, relock.tombstone]
    exact shape.swaMember node

end Relock

/-! ## Single nodes -/

/-- Nothing but the counts of one node and the sizes may differ. -/
structure Recounts (cache : RadixCache τ) (node full swa : ℕ) (cache' : RadixCache τ) : Prop where
  nodes : cache'.nodes = Function.update cache.nodes node
    { cache.nodes node with fullLockRef := full, swaLockRef := swa }
  rest : cache' = { cache with
    nodes := cache'.nodes
    fullEvictableSize := cache'.fullEvictableSize
    fullProtectedSize := cache'.fullProtectedSize
    swaEvictableSize := cache'.swaEvictableSize
    swaProtectedSize := cache'.swaProtectedSize }

namespace Recounts

variable {full swa : ℕ} (recounts : Recounts cache node full swa cache')

include recounts

omit [DecidableEq τ]

theorem apply : cache'.nodes other =
    if other = node then { cache.nodes other with fullLockRef := full, swaLockRef := swa } else cache.nodes other := by
  rw [recounts.nodes, Function.update_apply]
  split_ifs with here
  · rw [here]
  · rfl

theorem relock : Relock cache cache' := by
  rw [recounts.rest]
  refine ⟨⟨⟨.refl _, rfl, ?_, ?_, ?_⟩, rfl, ?_, rfl, rfl, rfl, rfl⟩, rfl, ?_, rfl⟩ <;>
    exact fun other => by rw [recounts.apply]; split_ifs <;> rfl

end Recounts

section

omit [DecidableEq τ]

theorem recounts_lockFull :
    Recounts cache node ((cache.nodes node).fullLockRef + 1) (cache.nodes node).swaLockRef (cache.lockFull node) :=
  ⟨rfl, rfl⟩

theorem recounts_lockSwa :
    Recounts cache node (cache.nodes node).fullLockRef ((cache.nodes node).swaLockRef + 1) (cache.lockSwa node) :=
  ⟨rfl, rfl⟩

theorem recounts_lockBoth :
    Recounts cache node ((cache.nodes node).fullLockRef + 1) ((cache.nodes node).swaLockRef + 1)
      ((cache.lockFull node).lockSwa node) := ⟨by simp [lockSwa, lockFull, modifyNode], rfl⟩

theorem recounts_unlockFull :
    Recounts cache node ((cache.nodes node).fullLockRef - 1) (cache.nodes node).swaLockRef (cache.unlockFull node) :=
  ⟨rfl, rfl⟩

theorem recounts_unlockSwa :
    Recounts cache node (cache.nodes node).fullLockRef ((cache.nodes node).swaLockRef - 1) (cache.unlockSwa node) :=
  ⟨rfl, rfl⟩

theorem recounts_unlockBoth :
    Recounts cache node ((cache.nodes node).fullLockRef - 1) ((cache.nodes node).swaLockRef - 1)
      ((cache.unlockFull node).unlockSwa node) := ⟨by simp [unlockSwa, unlockFull, modifyNode], rfl⟩

theorem ensureUuid_nodes (other : ℕ) : (cache.ensureUuid node).nodes other =
    if other = node then { cache.nodes other with
      swaUuid := (cache.nodes other).swaUuid.or (some (cache.swaUuidCounter + 1)) }
    else cache.nodes other := by
  unfold ensureUuid
  cases uuid : (cache.nodes node).swaUuid with
  | none =>
    simp only [modifyNode, Function.update_apply]
    split_ifs with here
    · simp only [here, uuid, Option.none_or]
    · rfl
  | some _ =>
    split_ifs with here
    · simp only [here, uuid, Option.some_or]
      rw [← uuid]
    · rfl

theorem relock_ensureUuid : Relock cache (cache.ensureUuid node) := by
  have nodes := @ensureUuid_nodes _ cache node
  unfold ensureUuid at nodes ⊢
  cases uuid : (cache.nodes node).swaUuid with
  | none =>
    simp only [uuid] at nodes
    refine ⟨⟨⟨.refl _, rfl, ?_, ?_, ?_⟩, rfl, ?_, rfl, rfl, rfl, rfl⟩, rfl, ?_, rfl⟩ <;>
      exact fun other => by rw [nodes]; split_ifs <;> rfl
  | some _ => exact .refl cache

end

/-! ## Uuids -/

/-- The same uuids on all nodes. -/
structure SameUuids (cache cache' : RadixCache τ) : Prop where
  uuid : ∀ node, (cache'.nodes node).swaUuid = (cache.nodes node).swaUuid
  counter : cache'.swaUuidCounter = cache.swaUuidCounter

namespace SameUuids

omit [DecidableEq τ]

theorem refl (cache : RadixCache τ) : SameUuids cache cache := ⟨fun _ => rfl, rfl⟩

theorem trans (first : SameUuids cache cache') (second : SameUuids cache' cache'') : SameUuids cache cache'' :=
  ⟨fun node => (second.uuid node).trans (first.uuid node), second.counter.trans first.counter⟩

theorem of_recounts {full swa : ℕ} (recounts : Recounts cache node full swa cache') : SameUuids cache cache' := by
  rw [recounts.rest]
  exact ⟨fun other => by rw [recounts.apply]; split_ifs <;> rfl, rfl⟩

theorem ensureUuid (same : SameUuids cache cache') : SameUuids (cache.ensureUuid node) (cache'.ensureUuid node) where
  uuid := fun other => by
    rw [ensureUuid_nodes, ensureUuid_nodes, same.counter]
    split_ifs
    · rw [same.uuid]
    · exact same.uuid other
  counter := by
    unfold RadixCache.ensureUuid
    rw [same.uuid, same.counter]
    cases (cache.nodes node).swaUuid
    · rfl
    · exact same.counter

end SameUuids

/-! ## Taking a lock -/

/-- The counts after `inc_lock_ref` has walked over the nodes above, with a window that starts at `top`. -/
structure Incremented (cache : RadixCache τ) (pos : ℕ → ℕ) (node : ℕ) (above : List ℕ) (top : ℕ) (uuid : Option ℕ)
    (cache' : RadixCache τ) : Prop where
  relock : Relock cache cache'
  full : ∀ other, (cache'.nodes other).fullLockRef = (cache.nodes other).fullLockRef + if other ∈ above then 1 else 0
  swa : ∀ other, (cache'.nodes other).swaLockRef = (cache.nodes other).swaLockRef +
    if other ∈ above ∧ top ≤ pos (cache.nodes other).parent then 1 else 0
  alive : ∀ other ∈ above, top ≤ pos (cache.nodes other).parent → (cache.nodes other).swaTombstone = false
  top_le : top ≤ pos node
  ends : uuid = none ∧ top = 0 ∧ SameUuids cache cache' ∨
    ∃ carrier ∈ above, pos (cache.nodes carrier).parent = top ∧ uuid = (cache'.nodes carrier).swaUuid ∧
      SameUuids (cache.ensureUuid carrier) cache'

omit [DecidableEq τ] in
/-- Above the window only `full_lock_ref` grows. -/
private theorem ensures_incLockRefLoop_above {size : ℕ} (covered : cfg.slidingWindowSize ≤ size)
    (distinct : above.Nodup) :
    Ensures (incLockRefLoop cfg above size uuid) cache (fun result cache' => result = uuid ∧ Relock cache cache' ∧
      SameUuids cache cache' ∧ (∀ other, (cache'.nodes other).fullLockRef =
        (cache.nodes other).fullLockRef + if other ∈ above then 1 else 0) ∧
      ∀ other, (cache'.nodes other).swaLockRef = (cache.nodes other).swaLockRef) fails := by
  induction above generalizing cache with
  | nil => exact ⟨rfl, .refl cache, .refl cache, fun _ => rfl, fun _ => rfl⟩
  | cons node above ih =>
    obtain ⟨apart, distinct⟩ := nodup_cons.mp distinct
    rw [incLockRefLoop, ensures_bind, ensures_modify, ensures_bind, ensures_get, if_neg (not_lt.mpr covered)]
    refine (@ih (cache.lockFull node) distinct).mono ?_ fun _ fails => fails
    rintro result cache' ⟨same, relock, uuids, full, swa⟩
    refine ⟨same, recounts_lockFull.relock.trans relock, (SameUuids.of_recounts recounts_lockFull).trans uuids,
      fun other => ?_, fun other => ?_⟩
    · rw [full, recounts_lockFull.apply]
      by_cases here : other = node
      · subst here
        simp [apart]
      · simp [here]
    · rw [swa, recounts_lockFull.apply]
      split_ifs with here
      · rw [here]
      · rfl

omit [DecidableEq τ] in
/-- The window goes on above this node. -/
theorem Incremented.cons {top : ℕ} (apart : node ∉ above) (rises : pos (cache.nodes node).parent < pos node)
    (living : (cache.nodes node).swaTombstone = false)
    (rest : Incremented ((cache.lockFull node).lockSwa node) pos (cache.nodes node).parent above top uuid cache') :
    Incremented cache pos node (node :: above) top uuid cache' := by
  have both := @recounts_lockBoth _ cache node
  have parents := both.relock.slots.tree.parent
  have uuids := SameUuids.of_recounts both
  constructor
  case relock => exact both.relock.trans rest.relock
  case full =>
    intro other
    rw [rest.full, both.apply]
    by_cases here : other = node
    · subst here
      simp [apart]
    · simp [here]
  case swa =>
    intro other
    rw [rest.swa, parents, both.apply]
    by_cases here : other = node
    · subst here
      simp [apart, rest.top_le]
    · simp [here]
  case alive =>
    intro other passed reached
    rcases mem_cons.mp passed with rfl | passed
    · exact living
    · rw [← both.relock.tombstone other]
      exact rest.alive other passed (by rwa [parents])
  case top_le => exact rest.top_le.trans rises.le
  case ends =>
    rcases rest.ends with ⟨none, zero, same⟩ | ⟨carrier, passed, start, is, same⟩
    · exact .inl ⟨none, zero, uuids.trans same⟩
    · exact .inr ⟨carrier, mem_cons_of_mem _ passed, parents carrier ▸ start, is, uuids.ensureUuid.trans same⟩

/-- The window is full with this node, which gets a uuid if it has none. -/
private theorem ensures_incLockRefLoop_close {size : ℕ} (shape : Shape cfg cache pos) (mem : node ∈ cache.fullLru)
    (apart : node ∉ above) (distinct : above.Nodup)
    (low : ∀ entry ∈ above, pos (cache.nodes entry).parent < pos (cache.nodes node).parent)
    (living : (cache.nodes node).swaTombstone = false) (covered : cfg.slidingWindowSize ≤ size)
    (is : uuid = ((((cache.lockFull node).lockSwa node).ensureUuid node).nodes node).swaUuid) :
    Ensures (incLockRefLoop cfg above size uuid) (((cache.lockFull node).lockSwa node).ensureUuid node)
      (fun uuid cache' => ∃ top, Incremented cache pos node (node :: above) top uuid cache') fails := by
  have both := @recounts_lockBoth _ cache node
  refine (ensures_incLockRefLoop_above covered distinct).mono ?_ fun _ fails => fails
  rintro result cache' ⟨rfl, relock, uuids, full, swa⟩
  refine ⟨pos (cache.nodes node).parent, (both.relock.trans relock_ensureUuid).trans relock, fun other => ?_,
    fun other => ?_,
    fun other passed reached => ?_, (shape.parent_pos_lt mem).le, .inr ⟨node, mem_cons_self .., rfl, ?_, ?_⟩⟩
  · rw [full, ensureUuid_nodes, both.apply]
    by_cases here : other = node
    · subst here
      simp [apart]
    · simp [here]
  · rw [swa, ensureUuid_nodes, both.apply]
    by_cases here : other = node
    · subst here
      simp
    · simp only [here, if_false, mem_cons, false_or]
      rw [if_neg fun reached => absurd reached.2 (not_le.mpr (low other reached.1)), Nat.add_zero]
  · rcases mem_cons.mp passed with rfl | passed
    · exact living
    · exact absurd reached (not_le.mpr (low other passed))
  · rw [is, uuids.uuid]
  · exact (SameUuids.of_recounts both).ensureUuid.trans uuids

/-- The walk of `inc_lock_ref` while the window is still open. -/
theorem ensures_incLockRefLoop {size : ℕ} (shape : Shape cfg cache pos)
    (walk : Climb rootNode (fun node => (cache.nodes node).parent) node above) (within : above ⊆ cache.fullLru)
    (isOpen : size < cfg.slidingWindowSize)
    (raises : ∀ entry ∈ above, pos node + size < pos entry + cfg.slidingWindowSize →
      (cache.nodes entry).swaTombstone = true → ∀ cache', fails cache') :
    Ensures (incLockRefLoop cfg above size none) cache
      (fun uuid cache' => ∃ top, Incremented cache pos node above top uuid cache') fails := by
  induction above generalizing cache node size with
  | nil =>
    refine ⟨0, .refl cache, fun _ => rfl, fun other => ?_, fun other passed => ?_, Nat.zero_le _,
      .inl ⟨rfl, rfl, .refl cache⟩⟩
    · simp
    · exact absurd passed not_mem_nil
  | cons first above ih =>
    obtain ⟨rfl, away, rest⟩ := Climb.cons_iff.mp walk
    have mem := within (mem_cons_self ..)
    have within' : above ⊆ cache.fullLru := fun entry passed => within (mem_cons_of_mem _ passed)
    have falls : ∀ entry ∈ above, pos (cache.nodes entry).parent < pos entry :=
      fun entry passed => shape.parent_pos_lt (within' passed)
    obtain ⟨apart, distinct⟩ := nodup_cons.mp (walk.nodup fun entry passed => shape.parent_pos_lt (within passed))
    have position := shape.position first mem
    have length := shape.valueLength first mem
    have both := (@recounts_lockBoth _ cache first).relock
    rw [incLockRefLoop, ensures_bind, ensures_modify, ensures_bind, ensures_get, if_pos isOpen, ensures_bind,
      assertThat, ensures_ensure, recounts_lockFull.relock.tombstone]
    by_cases living : (cache.nodes first).swaTombstone = false
    swap
    · rw [if_neg living]
      exact raises first (mem_cons_self ..) (by omega) ((Bool.not_eq_false _).mp living) _
    rw [if_pos living]
    dsimp only
    rw [ensures_bind, ensures_set, recounts_lockFull.relock.slots.value, length]
    split_ifs with full
    · rw [ensures_bind, ensures_modify, ensures_bind, ensures_get]
      refine ensures_incLockRefLoop_close shape mem apart distinct (fun entry passed => ?_) living full rfl
      exact (falls entry passed).trans_le (rest.height_le falls passed)
    · have next := @ih ((cache.lockFull first).lockSwa first) (cache.nodes first).parent
        (size + (cache.nodes first).key.length) (both.shape shape)
        (rest.congr fun entry _ => both.slots.tree.parent entry)
        (both.slots.fullLru.symm ▸ within') (not_le.mp full) (fun entry passed close dead => ?_)
      · refine next.mono ?_ fun _ fails => fails
        rintro uuid cache' ⟨top, incremented⟩
        exact ⟨top, incremented.cons apart (shape.parent_pos_lt mem) living⟩
      · rw [both.tombstone] at dead
        exact raises entry (mem_cons_of_mem _ passed) (by omega) dead

/-- `inc_lock_ref` of any node raises or takes the lock. -/
theorem ensures_incLockRef_or (shape : Shape cfg cache pos) (inTree : cache.InTree node) :
    Ensures (incLockRef cfg node) cache
      (fun uuid cache' => ∃ top, Incremented cache pos node (cache.path node) top uuid cache') fun _ => True := by
  rw [incLockRef, ensures_bind, ensures_get]
  exact ensures_incLockRefLoop shape (shape.climb_path inTree).1 (shape.climb_path inTree).2 cfg.slidingWindowSize_pos
    fun _ _ _ _ _ => trivial

theorem ensures_incLockRef (shape : Shape cfg cache pos) (inTree : cache.InTree node)
    (alive : AliveWithin cache pos node cfg.slidingWindowSize) :
    Ensures (incLockRef cfg node) cache
      (fun uuid cache' => ∃ top, Incremented cache pos node (cache.path node) top uuid cache') fails := by
  rw [incLockRef, ensures_bind, ensures_get]
  refine ensures_incLockRefLoop shape (shape.climb_path inTree).1 (shape.climb_path inTree).2 cfg.slidingWindowSize_pos
    fun entry passed close dead => ?_
  exact absurd ((alive entry passed close).symm.trans dead) Bool.false_ne_true

/-! ## Releasing a lock -/

/-- The nodes whose window a release with this uuid decrements. -/
def windowOf (cache : RadixCache τ) (uuid : Option ℕ) : List ℕ → List ℕ
  | [] => []
  | node :: above => if endsAt uuid (cache.nodes node).swaUuid then [node] else node :: windowOf cache uuid above

section Window

variable {above : List ℕ} {uuid : Option ℕ}

omit [DecidableEq τ] in
theorem windowOf_subset : windowOf cache uuid above ⊆ above := by
  induction above with
  | nil => exact nil_subset _
  | cons node above ih =>
    rw [windowOf]
    split_ifs
    · exact cons_subset.mpr ⟨mem_cons_self .., nil_subset _⟩
    · exact cons_subset_cons _ ih

omit [DecidableEq τ] in
theorem windowOf_congr (same : SameUuids cache cache') : windowOf cache' uuid above = windowOf cache uuid above := by
  induction above with
  | nil => rfl
  | cons node above ih => rw [windowOf, windowOf, same.uuid, ih]

theorem endsAt_iff {uuid' : Option ℕ} : endsAt uuid uuid' = true ↔ uuid.isSome ∧ uuid' = uuid := by
  simp [endsAt]

section

variable (shape : Shape cfg cache pos) (walk : Climb rootNode (fun node => (cache.nodes node).parent) node above)
  (within : above ⊆ cache.fullLru)

include shape walk within

/-- If the uuid is nowhere below the start of the window, the release gets there. -/
theorem mem_windowOf {top : ℕ}
    (stops : ∀ entry ∈ above, endsAt uuid (cache.nodes entry).swaUuid = true → pos (cache.nodes entry).parent ≤ top)
    {entry : ℕ} (passed : entry ∈ above) (reached : top ≤ pos (cache.nodes entry).parent) :
    entry ∈ windowOf cache uuid above := by
  induction walk with
  | root => exact passed
  | @step node above away walk ih =>
    have within' : above ⊆ cache.fullLru := fun entry passed => within (mem_cons_of_mem _ passed)
    rw [windowOf]
    rcases mem_cons.mp passed with rfl | higher
    · split_ifs <;> exact mem_cons_self ..
    · split_ifs with ends
      · have stop := stops node (mem_cons_self ..) ends
        have below := walk.height_le (fun entry passed => shape.parent_pos_lt (within' passed)) higher
        have falls := shape.parent_pos_lt (within' higher)
        omega
      · exact mem_cons_of_mem _ (ih within' (forall_mem_cons.mp stops).2 higher)

/-- A release does not get further than a node with its uuid. -/
theorem start_le_of_mem_windowOf {carrier : ℕ} (passed : carrier ∈ above)
    (ends : endsAt uuid (cache.nodes carrier).swaUuid = true) {entry : ℕ}
    (reached : entry ∈ windowOf cache uuid above) :
    pos (cache.nodes carrier).parent ≤ pos (cache.nodes entry).parent := by
  induction walk with
  | root => exact absurd passed not_mem_nil
  | @step node above away walk ih =>
    have within' : above ⊆ cache.fullLru := fun entry passed => within (mem_cons_of_mem _ passed)
    have start : pos (cache.nodes carrier).parent ≤ pos (cache.nodes node).parent := by
      rcases mem_cons.mp passed with rfl | higher
      · exact le_rfl
      · exact (shape.parent_pos_lt (within' higher)).le.trans
          (walk.height_le (fun entry passed => shape.parent_pos_lt (within' passed)) higher)
    rw [windowOf] at reached
    split_ifs at reached with here
    · rw [mem_singleton.mp reached]
      exact start
    · rcases mem_cons.mp reached with rfl | reached
      · exact start
      · have higher := (mem_cons.mp passed).resolve_left fun same => here (same ▸ ends)
        exact ih within' higher reached

end

end Window

/-- The counts after `dec_lock_ref`: the full locks of the nodes above and the window locks of some of them. -/
structure Decremented (cache : RadixCache τ) (above window : List ℕ) (cache' : RadixCache τ) : Prop where
  relock : Relock cache cache'
  uuids : SameUuids cache cache'
  full : ∀ other, (cache'.nodes other).fullLockRef + (if other ∈ above then 1 else 0) = (cache.nodes other).fullLockRef
  swa : ∀ other, (cache'.nodes other).swaLockRef + (if other ∈ window then 1 else 0) = (cache.nodes other).swaLockRef

namespace Decremented

variable {above window : List ℕ}

omit [DecidableEq τ]

theorem refl (cache : RadixCache τ) : Decremented cache [] [] cache :=
  ⟨.refl cache, .refl cache, fun _ => rfl, fun _ => rfl⟩

/-- A node above the window. -/
private theorem consFull (apart : node ∉ above) (locked : 0 < (cache.nodes node).fullLockRef)
    (rest : Decremented (cache.unlockFull node) above window cache') :
    Decremented cache (node :: above) window cache' where
  relock := recounts_unlockFull.relock.trans rest.relock
  uuids := (SameUuids.of_recounts recounts_unlockFull).trans rest.uuids
  full := fun other => by
    have := rest.full other
    rw [recounts_unlockFull.apply] at this
    by_cases here : other = node
    · subst here
      simp only [if_true, apart, if_false, mem_cons_self] at this ⊢
      omega
    · simpa [here] using this
  swa := fun other => by
    rw [rest.swa, recounts_unlockFull.apply]
    split_ifs with here
    · rw [here]
    · rfl

/-- A node of the window. -/
private theorem consBoth (apart : node ∉ above) (inside : window ⊆ above) (locked : 0 < (cache.nodes node).fullLockRef)
    (locked' : 0 < (cache.nodes node).swaLockRef)
    (rest : Decremented ((cache.unlockFull node).unlockSwa node) above window cache') :
    Decremented cache (node :: above) (node :: window) cache' where
  relock := recounts_unlockBoth.relock.trans rest.relock
  uuids := (SameUuids.of_recounts recounts_unlockBoth).trans rest.uuids
  full := fun other => by
    have := rest.full other
    rw [recounts_unlockBoth.apply] at this
    by_cases here : other = node
    · subst here
      simp only [if_true, apart, if_false, mem_cons_self] at this ⊢
      omega
    · simpa [here] using this
  swa := fun other => by
    have := rest.swa other
    rw [recounts_unlockBoth.apply] at this
    by_cases here : other = node
    · subst here
      have outside : other ∉ window := fun passed => apart (inside passed)
      simp only [if_true, outside, if_false, mem_cons_self] at this ⊢
      omega
    · simpa [here] using this

end Decremented

omit [DecidableEq τ] in
/-- The walk of `dec_lock_ref`. It raises at a node of the window that is not locked. -/
theorem ensures_decLockRefLoop {above : List ℕ} {uuid : Option ℕ} {flag : Bool} (distinct : above.Nodup)
    (locked : ∀ entry ∈ above, 0 < (cache.nodes entry).fullLockRef) :
    Ensures (decLockRefLoop uuid above flag) cache
      (fun _ cache' => Decremented cache above (if flag then windowOf cache uuid above else []) cache')
      (fun cache' => Relock cache cache' ∧ flag = true ∧
        ∃ entry ∈ windowOf cache uuid above, (cache.nodes entry).swaTombstone = true ∨
        (cache.nodes entry).swaLockRef = 0) := by
  induction above generalizing cache flag with
  | nil =>
    have none : (if flag then windowOf cache uuid [] else []) = [] := ite_self _
    rw [none]
    exact .refl cache
  | cons node above ih =>
    obtain ⟨apart, distinct⟩ := nodup_cons.mp distinct
    have here := locked node (mem_cons_self ..)
    have others : ∀ entry ∈ above, entry ≠ node := fun entry passed same => apart (same ▸ passed)
    rw [decLockRefLoop, ensures_bind, ensures_get, ensures_bind, ensures_assertThat here, ensures_bind, ensures_set]
    cases flag with
    | false =>
      rw [if_neg Bool.false_ne_true]
      refine (@ih (cache.unlockFull node) false distinct fun entry passed => ?_).mono ?_ ?_
      · rw [recounts_unlockFull.apply, if_neg (others entry passed)]
        exact locked entry (mem_cons_of_mem _ passed)
      · exact fun _ cache' rest => rest.consFull apart here
      · exact fun cache' raised => absurd raised.2.1 Bool.false_ne_true
    | true =>
      have both := @recounts_unlockBoth _ cache node
      have uuids := SameUuids.of_recounts both
      have entries : ∀ entry ∈ above, ((cache.unlockFull node).unlockSwa node).nodes entry = cache.nodes entry := by
        intro entry passed
        rw [both.apply, if_neg (others entry passed)]
      have released := @recounts_unlockFull _ cache node
      have first : node ∈ windowOf cache uuid (node :: above) := by
        rw [windowOf]
        split_ifs <;> exact mem_cons_self ..
      rw [if_pos rfl, if_pos rfl, ensures_bind, ensures_get, released.apply, if_pos rfl]
      refine ensures_ensure_bind (fun _ => ?_) fun dead =>
        ⟨released.relock, rfl, node, first, .inl ((Bool.not_eq_false _).mp dead)⟩
      refine ensures_ensure_bind (fun held => ?_) fun zero =>
        ⟨released.relock, rfl, node, first, .inr (Nat.eq_zero_of_not_pos zero)⟩
      rw [ensures_bind, ensures_set]
      refine (@ih ((cache.unlockFull node).unlockSwa node) _ distinct fun entry passed => ?_).mono ?_ ?_
      · rw [entries entry passed]
        exact locked entry (mem_cons_of_mem _ passed)
      · intro _ cache' rest
        rw [windowOf_congr uuids] at rest
        rw [windowOf]
        split_ifs with ends
        · rw [ends, Bool.not_true, if_neg Bool.false_ne_true] at rest
          exact rest.consBoth apart (nil_subset _) here held
        · rw [Bool.not_eq_true] at ends
          rw [ends, Bool.not_false, if_pos rfl] at rest
          exact rest.consBoth apart windowOf_subset here held
      · rintro cache' ⟨relock, goesOn, entry, passed, bad⟩
        rw [windowOf_congr uuids] at passed
        rw [entries entry (windowOf_subset passed)] at bad
        refine ⟨both.relock.trans relock, rfl, entry, ?_, bad⟩
        rw [windowOf, if_neg (by simpa using goesOn)]
        exact mem_cons_of_mem _ passed

/-! ## Releasing the window alone -/

section

omit [DecidableEq τ]

theorem unlockSwaOnly_nodes (other : ℕ) : (cache.unlockSwaOnly cfg node).nodes other =
    if other = node then { cache.nodes other with
      swaLockRef := (cache.nodes other).swaLockRef - 1
      swaTombstone := (cache.nodes other).swaTombstone ||
        decide ((cache.nodes other).swaLockRef = 1 ∧ (cache.nodes other).children.values = []) }
    else cache.nodes other := by
  unfold unlockSwaOnly
  by_cases here : other = node
  · subst here
    by_cases last : (cache.nodes other).swaLockRef = 1 <;> by_cases leaf : (cache.nodes other).children.values = [] <;>
      simp [last, leaf, modifyNode, tombstone]
  · by_cases last : (cache.nodes node).swaLockRef = 1 <;> by_cases leaf : (cache.nodes node).children.values = [] <;>
      simp [last, leaf, here, modifyNode, tombstone]

private theorem unlockSwaOnly_swaLru : (cache.unlockSwaOnly cfg node).swaLru =
    if (cache.nodes node).swaLockRef = 1 ∧ (cache.nodes node).children.values = [] then cache.swaLru.filter (· ≠ node)
    else cache.swaLru := by
  unfold unlockSwaOnly
  by_cases last : (cache.nodes node).swaLockRef = 1 <;> by_cases leaf : (cache.nodes node).children.values = [] <;>
    simp [last, leaf, modifyNode, tombstone]

theorem sameSlots_unlockSwaOnly : SameSlots cache (cache.unlockSwaOnly cfg node) := by
  have nodes := @unlockSwaOnly_nodes _ cfg cache node
  have rest : (cache.unlockSwaOnly cfg node).fullLru = cache.fullLru ∧
      (cache.unlockSwaOnly cfg node).counter = cache.counter ∧
      (cache.unlockSwaOnly cfg node).allocator.full = cache.allocator.full ∧
      (cache.unlockSwaOnly cfg node).freeCalls = cache.freeCalls ∧
      (cache.unlockSwaOnly cfg node).revivedLocks = cache.revivedLocks ∧
      (cache.unlockSwaOnly cfg node).lostUuids = cache.lostUuids := by
    unfold unlockSwaOnly
    dsimp only
    split_ifs <;> exact ⟨rfl, rfl, rfl, rfl, rfl, rfl⟩
  obtain ⟨members, counter, pages, calls, revived, lost⟩ := rest
  refine ⟨⟨by rw [members], counter, ?_, ?_, ?_⟩, members, ?_, pages, calls, revived, lost⟩ <;>
    exact fun other => by rw [nodes]; split_ifs <;> rfl

theorem SameUuids.unlockSwaOnly : SameUuids cache (cache.unlockSwaOnly cfg node) := by
  refine ⟨fun other => by rw [unlockSwaOnly_nodes]; split_ifs <;> rfl, ?_⟩
  unfold RadixCache.unlockSwaOnly
  dsimp only
  split_ifs <;> rfl

end

theorem Shape.unlockSwaOnly (shape : Shape cfg cache pos) (mem : node ∈ cache.fullLru) :
    Shape cfg (cache.unlockSwaOnly cfg node) pos := by
  refine sameSlots_unlockSwaOnly.tree.shape shape (fun other _ => by rw [sameSlots_unlockSwaOnly.value]) ?_ ?_
    fun other => ?_
  · rw [unlockSwaOnly_nodes, if_neg (shape.ne_root mem).symm]
    exact shape.rootAlive
  · rw [unlockSwaOnly_swaLru]
    split_ifs
    · exact shape.swaNodup.filter _
    · exact shape.swaNodup
  · have was := shape.swaMember other
    rw [unlockSwaOnly_swaLru, unlockSwaOnly_nodes]
    by_cases here : other = node
    · subst here
      by_cases dead : (cache.nodes other).swaLockRef = 1 ∧ (cache.nodes other).children.values = []
      · simp [dead]
      · rw [if_neg dead, if_pos rfl, was]
        simp [dead]
    · rw [if_neg here]
      split_ifs
      · simp [here, was]
      · exact was

omit [DecidableEq τ] in
theorem Sound.unlockSwaOnly (sound : cache.Sound) : (cache.unlockSwaOnly cfg node).Sound := by
  intro other mem
  have was := sound other (sameSlots_unlockSwaOnly.tree.mem.mp mem)
  rw [unlockSwaOnly_nodes]
  split_ifs with here
  · intro dead
    rcases Bool.or_eq_true_iff.mp dead with dead | last
    · simp [was dead]
    · simp [(of_decide_eq_true last).1]
  · exact was

/-- The counts after `dec_swa_lock_only`. -/
structure Unwindowed (cfg : RadixConfig) (cache : RadixCache τ) (pos : ℕ → ℕ) (window : List ℕ)
    (cache' : RadixCache τ) : Prop where
  slots : SameSlots cache cache'
  uuids : SameUuids cache cache'
  full : ∀ other, (cache'.nodes other).fullLockRef = (cache.nodes other).fullLockRef
  swa : ∀ other, (cache'.nodes other).swaLockRef + (if other ∈ window then 1 else 0) = (cache.nodes other).swaLockRef
  shape : Shape cfg cache' pos
  sound : cache.Sound → cache'.Sound

/-- The state in which an assert of `dec_swa_lock_only` has failed. -/
structure UnwindowFailed (cache : RadixCache τ) (window : List ℕ) (cache' : RadixCache τ) : Prop where
  slots : SameSlots cache cache'
  reason : ∃ entry ∈ window, (cache.nodes entry).swaTombstone = true ∨ (cache.nodes entry).swaLockRef = 0

/-- One node of the window, and what follows it. -/
theorem Unwindowed.cons {window : List ℕ} (apart : node ∉ window) (held : 0 < (cache.nodes node).swaLockRef)
    (rest : Unwindowed cfg (cache.unlockSwaOnly cfg node) pos window cache') :
    Unwindowed cfg cache pos (node :: window) cache' where
  slots := sameSlots_unlockSwaOnly.trans rest.slots
  uuids := SameUuids.unlockSwaOnly.trans rest.uuids
  full := fun other => by
    rw [rest.full, unlockSwaOnly_nodes]
    split_ifs <;> rfl
  swa := fun other => by
    have := rest.swa other
    rw [unlockSwaOnly_nodes] at this
    by_cases here : other = node
    · subst here
      simp only [if_true, apart, if_false, mem_cons_self] at this ⊢
      omega
    · simpa [here] using this
  shape := rest.shape
  sound := fun sound => rest.sound sound.unlockSwaOnly

/-- The walk of `dec_swa_lock_only`. It raises at a node of the window that is not locked. -/
private theorem ensures_decSwaLockOnlyLoop (shape : Shape cfg cache pos) (distinct : above.Nodup)
    (within : above ⊆ cache.fullLru) : Ensures (decSwaLockOnlyLoop cfg uuid above) cache
      (fun _ cache' => Unwindowed cfg cache pos (windowOf cache uuid above) cache')
      (fun cache' => UnwindowFailed cache (windowOf cache uuid above) cache') := by
  induction above generalizing cache with
  | nil => exact ⟨.refl cache, .refl cache, fun _ => rfl, fun _ => rfl, shape, fun sound => sound⟩
  | cons node above ih =>
    obtain ⟨apart, distinct⟩ := nodup_cons.mp distinct
    have mem := within (mem_cons_self ..)
    have first : node ∈ windowOf cache uuid (node :: above) := by
      rw [windowOf]
      split_ifs <;> exact mem_cons_self ..
    rw [decSwaLockOnlyLoop, ensures_bind, ensures_get]
    dsimp only
    refine ensures_ensure_bind (fun living => ?_) fun dead =>
      ⟨.refl cache, node, first, .inl ((Bool.not_eq_false _).mp dead)⟩
    refine ensures_ensure_bind (fun held => ?_) fun zero =>
      ⟨.refl cache, node, first, .inr (Nat.eq_zero_of_not_pos zero)⟩
    rw [ensures_bind, ensures_assertThat fun _ _ => (shape.swaMember node).mpr ⟨mem, living⟩, ensures_bind, ensures_set,
      windowOf]
    split_ifs with ends
    · exact Unwindowed.cons not_mem_nil held
        ⟨.refl _, .refl _, fun _ => rfl, fun _ => rfl, shape.unlockSwaOnly mem, fun sound => sound⟩
    · refine (@ih (cache.unlockSwaOnly cfg node) (shape.unlockSwaOnly mem) distinct ?_).mono ?_ ?_
      · rw [sameSlots_unlockSwaOnly.fullLru]
        exact fun entry passed => within (mem_cons_of_mem _ passed)
      · intro _ cache' rest
        rw [windowOf_congr SameUuids.unlockSwaOnly] at rest
        exact rest.cons (fun passed => apart (windowOf_subset passed)) held
      · rintro cache' ⟨slots, entry, passed, bad⟩
        rw [windowOf_congr SameUuids.unlockSwaOnly] at passed
        rw [unlockSwaOnly_nodes, if_neg fun same => apart (windowOf_subset (same ▸ passed))] at bad
        exact ⟨sameSlots_unlockSwaOnly.trans slots, entry, mem_cons_of_mem _ passed, bad⟩

omit [DecidableEq τ] in
/-- What every decrement keeps holds at the end of the walk. -/
theorem ensures_decSwaLockOnlyLoop_of_step {good : RadixCache τ → Prop}
    (step : ∀ cache, good cache → ∀ node ∈ above, (cache.nodes node).swaTombstone = false →
      0 < (cache.nodes node).swaLockRef →
      ((cache.nodes node).swaLockRef = 1 → (cache.nodes node).children.values = [] → node ∈ cache.swaLru) →
      good (cache.unlockSwaOnly cfg node)) (start : good cache) :
    Ensures (decSwaLockOnlyLoop cfg uuid above) cache (fun _ cache' => good cache') fun _ => True := by
  induction above generalizing cache with
  | nil => exact start
  | cons node above ih =>
    rw [decSwaLockOnlyLoop, ensures_bind, ensures_get]
    dsimp only
    refine ensures_ensure_bind (fun alive => ?_) fun _ => trivial
    refine ensures_ensure_bind (fun held => ?_) fun _ => trivial
    refine ensures_ensure_bind (fun listed => ?_) fun _ => trivial
    have kept := step cache start node (mem_cons_self ..) alive held listed
    rw [ensures_bind, ensures_set]
    split_ifs
    · exact kept
    · exact ih (fun cache good other passed => step cache good other (mem_cons_of_mem _ passed)) kept

/-! ## The calls -/

theorem ensures_decLockRef {skip : Bool} (shape : Shape cfg cache pos) (inTree : cache.InTree node)
    (locked : ∀ entry ∈ cache.path node, 0 < (cache.nodes entry).fullLockRef) :
    Ensures (decLockRef node uuid skip) cache
      (fun _ cache' => Decremented cache (cache.path node)
        (if skip then [] else windowOf cache uuid (cache.path node)) cache')
      (fun cache' => Relock cache cache' ∧ skip = false ∧ ∃ entry ∈ windowOf cache uuid (cache.path node),
        (cache.nodes entry).swaTombstone = true ∨ (cache.nodes entry).swaLockRef = 0) := by
  rw [decLockRef, ensures_bind, ensures_get]
  have loop := @ensures_decLockRefLoop _ cache (cache.path node) uuid (!skip)
    ((shape.climb_path inTree).1.nodup (shape.falls inTree)) locked
  cases skip <;> simpa using loop

theorem ensures_decSwaLockOnly (shape : Shape cfg cache pos) (inTree : cache.InTree node) :
    Ensures (decSwaLockOnly cfg node uuid) cache
      (fun _ cache' => Unwindowed cfg cache pos (windowOf cache uuid (cache.path node)) cache')
      (fun cache' => UnwindowFailed cache (windowOf cache uuid (cache.path node)) cache') := by
  rw [decSwaLockOnly, ensures_bind, ensures_get]
  exact ensures_decSwaLockOnlyLoop shape ((shape.climb_path inTree).1.nodup (shape.falls inTree))
    (shape.climb_path inTree).2

/-! ## The locks after a call -/

section Locks

variable {locks : List RadixLock} {lock : RadixLock} {window : List ℕ}

section

omit [DecidableEq τ]

/-- A lock is added on a tree that is otherwise the same. -/
theorem Locked.cons (locked : Locked cache pos locks) (tree : SameTree cache cache') (inTree : cache.InTree lock.node)
    (bottom : pos lock.node = lock.bottom) (full : ∀ entry, (cache'.nodes entry).fullLockRef =
      (cache.nodes entry).fullLockRef + if entry ∈ cache.path lock.node then 1 else 0) :
    Locked cache' pos (lock :: locks) where
  inTree := forall_mem_cons.mpr ⟨tree.inTree.mpr inTree, fun other mem => tree.inTree.mpr (locked.inTree other mem)⟩
  bottom := forall_mem_cons.mpr ⟨bottom, locked.bottom⟩
  full := fun entry mem => by
    rw [full, locked.full entry (tree.mem.mp mem), countP_cons]
    simp only [tree.path, decide_eq_true_eq]

theorem Incremented.locked {top : ℕ} {uuid : Option ℕ}
    (incremented : Incremented cache pos node (cache.path node) top uuid cache')
    (locked : Locked cache pos locks) (inTree : cache.InTree node) (is : lock.node = node)
    (bottom : lock.bottom = pos node) : Locked cache' pos (lock :: locks) := by
  subst is
  exact locked.cons incremented.relock.slots.tree inTree bottom.symm incremented.full

theorem Decremented.locked (decremented : Decremented cache (cache.path lock.node) window cache')
    (locked : Locked cache pos (lock :: locks)) : Locked cache' pos locks := by
  have tree := decremented.relock.slots.tree
  refine ⟨fun other mem => tree.inTree.mpr (locked.inTree other (mem_cons_of_mem _ mem)),
    (forall_mem_cons.mp locked.bottom).2, fun entry mem => ?_⟩
  have was := locked.full entry (tree.mem.mp mem)
  rw [← decremented.full entry, countP_cons] at was
  simp only [tree.path, decide_eq_true_eq] at was ⊢
  exact Nat.add_right_cancel was

/-- What is locked does not depend on the windows. -/
theorem Locked.unwindow {lock' : RadixLock} (locked : Locked cache pos (lock :: locks)) (tree : SameTree cache cache')
    (full : ∀ other, (cache'.nodes other).fullLockRef = (cache.nodes other).fullLockRef) (is : lock'.node = lock.node)
    (bottom : lock'.bottom = lock.bottom) : Locked cache' pos (lock' :: locks) := by
  obtain ⟨first, inTree⟩ := forall_mem_cons.mp locked.inTree
  obtain ⟨start, starts⟩ := forall_mem_cons.mp locked.bottom
  refine ⟨forall_mem_cons.mpr ⟨?_, fun other mem => tree.inTree.mpr (inTree other mem)⟩,
    forall_mem_cons.mpr ⟨?_, starts⟩, fun entry mem => ?_⟩
  · rw [tree.inTree, is]
    exact first
  · rw [is, bottom]
    exact start
  · rw [full, locked.full entry (tree.mem.mp mem), countP_cons, countP_cons]
    simp only [tree.path, is]

/-- The nodes of a locked path have a lock. -/
theorem Locked.pos_of_mem_path (locked : Locked cache pos locks) (mem : lock ∈ locks)
    (within : cache.path lock.node ⊆ cache.fullLru) :
    ∀ entry ∈ cache.path lock.node, 0 < (cache.nodes entry).fullLockRef := by
  intro entry passed
  rw [locked.full entry (within passed), countP_pos_iff]
  exact ⟨lock, mem, decide_eq_true passed⟩

end

/-! ## The range of tokens of a lock -/

/-- The nodes of a path from some position on have the tokens from there on. -/
theorem Shape.tokens_above (shape : Shape cfg cache pos) (inTree : cache.InTree node) {top : ℕ}
    (whole : ∀ entry ∈ cache.path node, top < pos entry → top ≤ pos (cache.nodes entry).parent) :
    ((cache.path node).filter fun entry => top ≤ pos (cache.nodes entry).parent).foldr
      (fun entry total => (cache.nodes entry).key.length + total) 0 = pos node - top := by
  obtain ⟨walk, within⟩ := shape.climb_path inTree
  generalize cache.path node = above at walk within whole
  clear inTree
  induction walk with
  | root => rw [shape.rootPos, Nat.zero_sub]; rfl
  | @step node above away walk ih =>
    have mem := within (mem_cons_self ..)
    have rest := ih (fun entry passed => within (mem_cons_of_mem _ passed))
      (forall_mem_cons.mp whole).2
    have position := shape.position node mem
    have here := whole node (mem_cons_self ..)
    by_cases reached : top ≤ pos (cache.nodes node).parent
    · rw [filter_cons_of_pos (by simpa using reached), foldr_cons, rest]
      omega
    · rw [filter_cons_of_neg (by simpa using reached), rest]
      omega

theorem Incremented.taken {top : ℕ} {uuid : Option ℕ}
    (incremented : Incremented cache pos node (cache.path node) top uuid cache')
    (shape : Shape cfg cache pos) (inTree : cache.InTree node) :
    RadixLock.taken cache cache' node uuid = ⟨node, uuid, true, top, pos node⟩ := by
  have top_le := incremented.top_le
  have whole : ∀ entry ∈ cache.path node, top < pos entry → top ≤ pos (cache.nodes entry).parent := by
    intro entry passed inside
    rcases incremented.ends with ⟨_, zero, _⟩ | ⟨carrier, passed', rfl, _⟩
    · exact zero.le.trans (Nat.zero_le _)
    · exact shape.start_le inTree passed' passed inside
  have grown : RadixLock.grownSize cache cache' node = pos node - top := by
    rw [← shape.tokens_above inTree whole, RadixLock.grownSize]
    congr 1
    refine filter_congr fun entry passed => ?_
    rw [incremented.swa]
    by_cases reached : top ≤ pos (cache.nodes entry).parent <;> simp [passed, reached]
  rw [RadixLock.taken, shape.depth_eq inTree, grown, Nat.sub_sub_self top_le]

end Locks

end RadixCache

end FlashMemory
