import FlashMemory.Soundness.RadixConservation

/-! # Locked prefixes

A request that has locked a node reads the slots of the whole path. Matches, evictions and locks leave those slots where
they are. An insertion by another request frees slots of a locked node in one case: the node is a tombstone that gets
new slots. With no such insertion, no slot of a locked node is ever freed, and a locked path keeps its slots as long as
the lock is held. -/

namespace FlashMemory

open List

namespace RadixCache

variable {τ : Type} [DecidableEq τ] {cfg : RadixConfig} {cache cache' : RadixCache τ} {pos : ℕ → ℕ}
  {node child start k slot : ℕ}
  {slots pending : List ℕ} {before after : RadixCache τ × List ℕ} {locks : List RadixLock} {lock : RadixLock}

/-! ## The slots of a path -/

omit [DecidableEq τ] in
theorem slotsTo_congr (path : cache'.path node = cache.path node)
    (values : ∀ entry ∈ cache.path node, (cache'.nodes entry).value = (cache.nodes entry).value) :
    cache'.slotsTo node = cache.slotsTo node := by
  rw [slotsTo, slotsTo, path]
  exact flatMap_congr fun entry passed => values entry (mem_reverse.mp passed)

omit [DecidableEq τ] in
theorem SameSlots.slotsTo (same : SameSlots cache cache') : cache'.slotsTo node = cache.slotsTo node :=
  slotsTo_congr same.tree.path fun entry _ => same.value entry

namespace Shape

section

variable (shape : Shape cfg cache pos)

include shape

theorem slotsTo_subset (inTree : cache.InTree node) : cache.slotsTo node ⊆ cache.slots := by
  intro slot mem
  obtain ⟨entry, passed, inside⟩ := mem_flatMap.mp mem
  exact mem_slots.mpr ⟨entry, (shape.climb_path inTree).2 (mem_reverse.mp passed), inside⟩

theorem slotsTo_eq_map (inTree : cache.InTree node) : cache.slotsTo node = (cache.cellsTo node).map (·.1.2) := by
  rw [slotsTo, cellsTo, map_flatMap]
  refine flatMap_congr fun entry passed => ?_
  have length := shape.valueLength entry ((shape.climb_path inTree).2 (mem_reverse.mp passed))
  rw [TreeNode.cells, map_map]
  exact (map_snd_zip length.le).symm

private theorem slotsTo_split (splits : Splits cfg cache child k) (inTree : cache.InTree node) :
    (cache.split cfg child k).slotsTo node = cache.slotsTo node := by
  rw [shape.slotsTo_eq_map inTree, (shape.split splits).slotsTo_eq_map (inTree_split splits.member inTree),
    shape.cellsTo_split splits inTree]

private theorem slotsTo_merge (merges : Merges cache node child) (compactable : cache.Compactable node child)
    (inTree : cache.InTree start) (notNode : start ≠ node) (notChild : start ≠ child) :
    (cache.merge node child).slotsTo start = cache.slotsTo start := by
  have same := shape.cellsTo_merge merges compactable inTree
  rw [if_neg notChild, if_neg notNode] at same
  rw [shape.slotsTo_eq_map inTree, (shape.merge merges).slotsTo_eq_map (inTree_merge inTree notChild), same]

end

end Shape

omit [DecidableEq τ] in
@[simp] theorem free_revivedLocks : (cache.free cfg slots).revivedLocks = cache.revivedLocks := by
  unfold free
  split_ifs <;> rfl

/-- Tombstones that get new slots are noted before the earlier ones. -/
theorem Edit.revivedLocks (edit : Edit cfg before after) : before.1.revivedLocks ⊆ after.1.revivedLocks := by
  cases edit with
  | revive mem dead length taken => exact fun count noted => mem_cons_of_mem _ noted
  | free taken => simp
  | delete deletes => simp [deleteLeaf]
  | _ => exact List.Subset.refl _

theorem Edits.revivedLocks (edits : Edits cfg before after) : before.1.revivedLocks ⊆ after.1.revivedLocks := by
  induction edits with
  | refl => exact List.Subset.refl _
  | tail _ edit ih => exact List.Subset.trans ih edit.revivedLocks

/-- A locked path keeps its slots, unless a tombstone with a lock gets new ones. -/
theorem Edit.slotsTo (edit : Edit cfg before after) (shape : Shape cfg before.1 pos)
    (locked : Locked before.1 pos locks) (held : lock ∈ locks) (spared : ∀ count ∈ after.1.revivedLocks, count = 0) :
    after.1.slotsTo lock.node = before.1.slotsTo lock.node := by
  have inTree := locked.inTree lock held
  have unlocked : ∀ node ∈ before.1.fullLru, (before.1.nodes node).fullLockRef = 0 →
      node ∉ before.1.path lock.node := by
    intro node mem zero passed
    exact absurd zero (locked.pos_of_mem_path held (shape.climb_path inTree).2 node passed).ne'
  cases edit with
  | touch reorders => exact slotsTo_congr (sameTree_touch reorders.fullPerm).path fun _ _ => rfl
  | split splits => exact shape.slotsTo_split splits inTree
  | merge merges compactable =>
    exact shape.slotsTo_merge merges compactable inTree (locked.ne_node shape merges compactable lock held)
      (locked.ne_child shape merges compactable lock held)
  | add dead adds taken =>
    refine slotsTo_congr (shape.path_addNode adds inTree) fun entry passed => ?_
    rw [addNode_other (shape.ne_counter (.inr ((shape.climb_path inTree).2 passed)))]
  | @revive cache pending slots rest node mem dead length taken =>
    have zero : (cache.nodes node).fullLockRef = 0 := spared _ (mem_cons_self ..)
    refine slotsTo_congr sameTree_revive.path fun entry passed => ?_
    have other : entry ≠ node := fun same => unlocked node mem zero (same ▸ passed)
    rw [revive_nodes, if_neg other]
  | free taken =>
    refine slotsTo_congr sameTree_free.path fun entry _ => ?_
    rw [free_nodes]
  | @evictSwa cache pending node mem unlocked =>
    refine slotsTo_congr sameTree_evictSwa.path fun entry _ => ?_
    rw [evictSwa_nodes]
    split_ifs with same
    · rw [same]
    · rfl
  | @delete cache pending node deletes =>
    have other : lock.node ≠ node := by
      intro same
      have self := shape.self_passed deletes.member
      exact unlocked node deletes.member deletes.unlocked (same ▸ self)
    refine slotsTo_congr (shape.path_deleteLeaf deletes inTree other) fun entry _ => ?_
    rw [deleteLeaf_nodes]

theorem Edits.slotsTo (edits : Edits cfg before after) (spanned : Spanned cfg before.1 locks) (held : lock ∈ locks)
    (spared : ∀ count ∈ after.1.revivedLocks, count = 0) : after.1.slotsTo lock.node = before.1.slotsTo lock.node := by
  induction edits with
  | refl => rfl
  | tail earlier edit ih =>
    obtain ⟨pos, shape, locked, _⟩ := Edits.spanned earlier spanned
    exact (edit.slotsTo shape locked held spared).trans (ih fun count noted => spared count (edit.revivedLocks noted))

/-! ## Freed slots -/

section

omit [DecidableEq τ]

theorem lockedSlot_iff : cache.lockedSlot slot = true ↔
    ∃ node ∈ cache.fullLru, 0 < (cache.nodes node).fullLockRef ∧ slot ∈ (cache.nodes node).value := by
  simp [lockedSlot]

private theorem forall_freeCalls_free : (∀ call ∈ (cache.free cfg slots).freeCalls, call.locked = []) ↔
    (∀ slot ∈ slots, ¬cache.lockedSlot slot = true) ∧ ∀ call ∈ cache.freeCalls, call.locked = [] := by
  unfold free
  split_ifs with empty
  · simp [empty]
  · rw [forall_mem_cons, filter_eq_nil_iff]

/-- The slots of a node are locked if the node is. -/
private theorem lockedSlot_value (distinct : cache.slots.Nodup) (mem : node ∈ cache.fullLru)
    (inside : slot ∈ (cache.nodes node).value) : cache.lockedSlot slot = true ↔ 0 < (cache.nodes node).fullLockRef := by
  rw [lockedSlot_iff]
  constructor
  · rintro ⟨other, among, held, shared⟩
    rwa [eq_of_shared distinct mem among inside shared]
  · exact fun held => ⟨node, mem, held, inside⟩

end

/-- Are the freed slots those of nodes without a lock as long as no tombstone with a lock got new ones? -/
def Spares (cache : RadixCache τ) : Prop :=
  (∀ call ∈ cache.freeCalls, call.locked = []) ↔ ∀ count ∈ cache.revivedLocks, count = 0

theorem Edit.spares (edit : Edit cfg before after) (shape : Shape cfg before.1 pos) (stocked : Stocked cfg before)
    (spares : before.1.Spares) : after.1.Spares := by
  have distinct := nodup_append.mp stocked.distinct
  cases edit with
  | @revive cache pending slots rest node mem dead length taken =>
    have calls : (∀ call ∈ (cache.revive cfg node slots).freeCalls, call.locked = []) ↔ _ :=
      @forall_freeCalls_free _ cfg cache (cache.nodes node).value
    have nonempty : ∃ slot, slot ∈ (cache.nodes node).value := by
      refine exists_mem_of_length_pos ?_
      rw [shape.valueLength node mem]
      exact shape.keyPos node mem
    have locked : (∀ slot ∈ (cache.nodes node).value, ¬cache.lockedSlot slot = true) ↔
        (cache.nodes node).fullLockRef = 0 := by
      constructor
      · obtain ⟨slot, inside⟩ := nonempty
        intro none
        have := none slot inside
        rwa [lockedSlot_value distinct.1 mem inside, Nat.pos_iff_ne_zero, not_not] at this
      · intro zero slot inside
        rw [lockedSlot_value distinct.1 mem inside, zero]
        exact lt_irrefl 0
    have noted : (cache.revive cfg node slots).revivedLocks = (cache.nodes node).fullLockRef :: cache.revivedLocks :=
      rfl
    rw [Spares, calls, locked, noted, forall_mem_cons]
    exact and_congr_right' spares
  | @free cache pending slots rest taken =>
    rw [Spares, forall_freeCalls_free, free_revivedLocks]
    refine Iff.trans (and_iff_right fun slot inside locked => ?_) spares
    obtain ⟨node, mem, _, shared⟩ := lockedSlot_iff.mp locked
    exact distinct.2.2 slot (mem_slots.mpr ⟨node, mem, shared⟩) slot (taken.subset.1 inside) rfl
  | @delete cache pending node deletes =>
    have calls : (∀ call ∈ (cache.deleteLeaf cfg node).freeCalls, call.locked = []) ↔ _ :=
      @forall_freeCalls_free _ cfg cache (cache.nodes node).value
    have noted : (cache.deleteLeaf cfg node).revivedLocks = cache.revivedLocks := free_revivedLocks
    rw [Spares, calls, noted]
    refine Iff.trans (and_iff_right fun slot inside locked => ?_) spares
    rw [lockedSlot_value distinct.1 deletes.member inside, deletes.unlocked] at locked
    exact lt_irrefl 0 locked
  | _ => exact spares

theorem Edits.spares (edits : Edits cfg before after) (shape : Shape cfg before.1 pos) (stocked : Stocked cfg before)
    (spares : before.1.Spares) : after.1.Spares := by
  induction edits with
  | refl => exact spares
  | tail earlier edit ih =>
    obtain ⟨pos', shape'⟩ := Edits.shape earlier shape
    exact edit.spares shape' (Edits.stocked earlier shape stocked fun _ none => False.elim none).1 ih

omit [DecidableEq τ]

theorem SameSlots.spares (same : SameSlots cache cache') (spares : cache.Spares) : cache'.Spares := by
  rw [Spares, same.freeCalls, same.revivedLocks]
  exact spares

private theorem sameSlots_foldl_unlockSwaOnly {window : List ℕ} :
    SameSlots cache (window.foldl (fun cache node => cache.unlockSwaOnly cfg node) cache) := by
  induction window generalizing cache with
  | nil => exact .refl cache
  | cons node window ih => exact sameSlots_unlockSwaOnly.trans ih

end RadixCache

namespace LockServer

open RadixCache

variable {τ : Type} [DecidableEq τ] {cfg : RadixConfig} {server : LockServer τ} {calls : List (SharedCall τ)}
  {allocator : KvAllocator} {node : ℕ}

/-! ## Runs -/

/-- A call edits the tree, or it leaves all slots where they are. -/
private theorem moves_cases {call : TreeCall τ} {cache : RadixCache τ} (moves : Moves cfg server.cache call cache)
    (permitted : Permitted cfg server (.tree call)) (stocked : Stocked cfg (server.cache, [])) :
    (∃ pending, Stocked cfg (server.cache, pending) ∧ Edits cfg (server.cache, pending) (cache, [])) ∨
    SameSlots server.cache cache := by
  cases moves with
  | edit edits => exact .inl ⟨[], stocked, edits⟩
  | insert shape passed refills =>
    obtain ⟨b, admissible⟩ := permitted
    obtain ⟨before, edits, _⟩ := stocked_insert shape stocked admissible passed
    exact .inl ⟨_, before, edits⟩
  | relock relock => exact .inr relock.slots
  | unwind within => exact .inr sameSlots_foldl_unlockSwaOnly

theorem running_of_step {call : SharedCall τ} (returned : (sharedStep cfg server call).raised = false) :
    server.raised = false := by
  cases raised : server.raised with
  | false => rfl
  | true =>
    rw [sharedStep_raised call raised] at returned
    exact raised.symm.trans returned

/-- Does a request hold a lock on the node? -/
def Holds (server : LockServer τ) (node : ℕ) : Prop := ∃ lock ∈ server.locks, lock.node = node

instance (server : LockServer τ) (node : ℕ) : Decidable (server.Holds node) :=
  inferInstanceAs (Decidable (∃ lock ∈ server.locks, _))

theorem sharedStep_spares (call : SharedCall τ) (permitted : Permitted cfg server call) (orderly : Orderly cfg server)
    (stocked : Stocked cfg (server.cache, [])) (before : server.raised = false)
    (returned : (sharedStep cfg server call).raised = false) :
    (server.cache.Spares → (sharedStep cfg server call).cache.Spares) ∧
      server.cache.revivedLocks ⊆ (sharedStep cfg server call).cache.revivedLocks ∧
      ((∀ count ∈ (sharedStep cfg server call).cache.revivedLocks, count = 0) → ∀ node, server.Holds node →
        (sharedStep cfg server call).cache.slotsTo node = server.cache.slotsTo node) := by
  cases call with
  | tree call =>
    have moves := (treeStep_advances call permitted.aligned orderly before returned).moves
    obtain ⟨pos, shape, _⟩ := orderly.spanned
    rcases moves_cases moves permitted stocked with ⟨pending, pendingStocked, edits⟩ | same
    · refine ⟨edits.spares shape pendingStocked, edits.revivedLocks, fun spared node holds => ?_⟩
      obtain ⟨lock, held, rfl⟩ := holds
      exact edits.slotsTo orderly.spanned held spared
    · exact ⟨same.spares, fun _ noted => same.revivedLocks ▸ noted, fun _ _ _ => same.slotsTo⟩
  | requests allocator =>
    have goesOn : ¬server.raised = true := before ▸ Bool.false_ne_true
    rw [sharedStep, if_neg goesOn]
    exact ⟨id, List.Subset.refl _, fun _ _ _ => rfl⟩

/-- Along every run, slots of locked nodes are freed only for tombstones with a lock that get new ones. -/
private theorem spares_run (start : allocator.Pagewise cfg.pageSize)
    (permitted : Along (sharedStep cfg) (Permitted cfg) (init allocator) calls)
    (returned : (run (sharedStep cfg) (init allocator) calls).raised = false) :
    (run (sharedStep cfg) (init allocator) calls).cache.Spares := by
  induction calls using List.reverseRecOn with
  | nil => exact ⟨fun _ count noted => absurd noted not_mem_nil, fun _ call freed => absurd freed not_mem_nil⟩
  | append_singleton calls call ih =>
    obtain ⟨earlier, allowed, _⟩ := along_append.mp permitted
    rw [run_append] at returned ⊢
    have before := running_of_step returned
    obtain ⟨orderly, stocked⟩ := stocked_run start before earlier
    exact (sharedStep_spares call allowed orderly stocked before returned).1 (ih earlier before)

/-- As long as a lock on the node is held, its path keeps its slots. -/
private theorem slotsTo_run {first second : List (SharedCall τ)} (start : allocator.Pagewise cfg.pageSize)
    (permitted : Along (sharedStep cfg) (Permitted cfg) (init allocator) (first ++ second))
    (returned : (run (sharedStep cfg) (init allocator) (first ++ second)).raised = false)
    (held : Along (sharedStep cfg) (fun server _ => server.Holds node)
      (run (sharedStep cfg) (init allocator) first) second)
    (spared : ∀ count ∈ (run (sharedStep cfg) (init allocator) (first ++ second)).cache.revivedLocks, count = 0) :
    (run (sharedStep cfg) (init allocator) (first ++ second)).cache.slotsTo node =
      (run (sharedStep cfg) (init allocator) first).cache.slotsTo node := by
  induction second using List.reverseRecOn with
  | nil => rw [append_nil]
  | append_singleton second call ih =>
    rw [← append_assoc] at permitted returned spared ⊢
    obtain ⟨earlier, allowed, _⟩ := along_append.mp permitted
    obtain ⟨heldBefore, holds, _⟩ := along_append.mp held
    rw [run_append] at returned spared ⊢
    rw [← run_append] at holds
    have before := running_of_step returned
    obtain ⟨orderly, stocked⟩ := stocked_run start before earlier
    obtain ⟨_, noted, same⟩ := sharedStep_spares call allowed orderly stocked before returned
    exact (same spared node holds).trans (ih earlier before heldBefore fun count was => spared count (noted was))

/-- If no tombstone with a lock gets new slots, then no slot of a locked node is freed. While a lock on a node is held,
the slots of its path stay the same and in use. -/
theorem locked_prefix_not_freed (cfg : RadixConfig) (allocator : KvAllocator) (first second : List (SharedCall τ))
    (start : allocator.Pagewise cfg.pageSize)
    (permitted : Along (sharedStep cfg) (Permitted cfg) (init allocator) (first ++ second))
    (returned : (run (sharedStep cfg) (init allocator) (first ++ second)).raised = false)
    (spared : ∀ count ∈ (run (sharedStep cfg) (init allocator) (first ++ second)).cache.revivedLocks, count = 0) :
    let locked := run (sharedStep cfg) (init allocator) first
    let final := run (sharedStep cfg) (init allocator) (first ++ second)
    (∀ call ∈ final.cache.freeCalls, call.locked = []) ∧
      ∀ node, Along (sharedStep cfg) (fun server _ => server.Holds node) locked second → final.Holds node →
        final.cache.slotsTo node = locked.cache.slotsTo node ∧
          ∀ slot ∈ locked.cache.slotsTo node, slot / cfg.pageSize ∉ final.cache.allocator.full.pages := by
  intro locked final
  refine ⟨(spares_run start permitted returned).mpr spared, fun node held holds => ?_⟩
  have same := slotsTo_run start permitted returned held spared
  obtain ⟨⟨⟨pos, shape, locks, _⟩, _⟩, stocked⟩ := stocked_run start returned permitted
  obtain ⟨lock, member, rfl⟩ := holds
  refine ⟨same, fun slot inside => stocked.inUse slot (mem_append_left _ ?_)⟩
  rw [← same] at inside
  exact shape.slotsTo_subset (locks.inTree lock member) inside

/-- Pools from which two requests have got two pages each. -/
def twoPrompts : KvServer := run (KvServer.step 2) (.init 2 16 16 false) [.allocExtend [⟨0, 4, -1⟩, ⟨0, 4, -1⟩]]

/-- A request inserts its prompt in two chunks and locks it. The lock on the window does not reach the first page. -/
def chunkedPrompt : List (SharedCall ℕ) :=
  [.requests twoPrompts.allocator, .tree (.call (.insert [1, 2] [2, 3] 0 0)), .tree (.call (.matchPrefix [1, 2])),
    .tree (.call .incLockRef), .tree (.call (.insert [1, 2, 3, 4] [2, 3, 4, 5] 2 0)),
    .tree (.call (.matchPrefix [1, 2, 3, 4])), .tree (.call (.decLockRef 0)), .tree (.call .incLockRef)]

private theorem permitted_chunkedPrompt : Along (sharedStep (.standard 2 2 (by decide) (by decide)))
    (Permitted (.standard 2 2 (by decide) (by decide))) (init (.clear 2 16 16 false)) chunkedPrompt := by
  refine ⟨⟨KvServer.pagewise_run (by decide) (by decide +kernel), ?_, ?_⟩, ⟨0, ?_⟩, trivial, trivial, ⟨2, ?_⟩, trivial,
    trivial, trivial, trivial⟩
  · exact fun slot mem => absurd mem not_mem_nil
  · exact fun slot mem => absurd mem not_mem_nil
  · exact ⟨rfl, by decide, ⟨[1], rfl⟩,
      ⟨rootNode, by simp, by decide +kernel, rfl, rfl⟩, by decide, by decide, by decide +kernel, by decide, by decide⟩
  · exact ⟨rfl, by decide, ⟨[1, 2], rfl⟩,
      ⟨1, by decide +kernel, by decide +kernel, by decide +kernel, by decide +kernel⟩, by decide,
      by decide, by decide +kernel, by decide, by decide⟩

/-- The window of the first page is evicted, and another request inserts its own slots. -/
def otherPrompt (key : List ℕ) :
    List (SharedCall ℕ) := [.tree (.call (.evict 0 2)), .tree (.call (.insert key [6, 7, 8, 9] 0 0))]

theorem permitted_otherPrompt {key : List ℕ} (length : key.length = 4) :
    Along (sharedStep (.standard 2 2 (by decide) (by decide)))
    (Permitted (.standard 2 2 (by decide) (by decide))) (init (.clear 2 16 16 false))
    (chunkedPrompt ++ otherPrompt key) := by
  refine along_append.mpr ⟨permitted_chunkedPrompt, trivial, ⟨0, ?_⟩, trivial⟩
  exact ⟨length.symm, length ▸ by decide, ⟨[3, 4], rfl⟩,
    ⟨rootNode, by simp, nil_prefix, rfl, rfl⟩, by decide, by decide, by decide +kernel, by decide, Nat.zero_le _⟩

/-- With a prompt of its own the other request frees nothing. -/
theorem locked_prefix_not_freed_on_otherPrompt :
    let cfg : RadixConfig := .standard 2 2 (by decide) (by decide)
    let locked := run (sharedStep cfg) (init (.clear 2 16 16 false)) chunkedPrompt
    let final := run (sharedStep cfg) (init (.clear 2 16 16 false)) (chunkedPrompt ++ otherPrompt [7, 8, 9, 9])
    locked.cache.slotsTo 2 = [2, 3, 4, 5] ∧ final.Holds 2 ∧ (∀ call ∈ final.cache.freeCalls, call.locked = []) ∧
      final.cache.slotsTo 2 = [2, 3, 4, 5] ∧ ∀ slot ∈ [2, 3, 4, 5], slot / 2 ∉ final.cache.allocator.full.pages := by
  intro cfg locked final
  have slots : locked.cache.slotsTo 2 = [2, 3, 4, 5] := by decide +kernel
  have holds : final.Holds 2 := by decide +kernel
  obtain ⟨unlocked, kept⟩ := locked_prefix_not_freed cfg (.clear 2 16 16 false) chunkedPrompt (otherPrompt [7, 8, 9, 9])
    (KvServer.paged_init 16 16 false).pagewise (permitted_otherPrompt rfl) (by decide +kernel) (by decide +kernel)
  obtain ⟨same, inUse⟩ := kept 2 (by decide +kernel) holds
  exact ⟨slots, holds, unlocked, same.trans slots, slots ▸ inUse⟩

/-- With a prompt that shares the first page it frees the slots of that page, which the first request still has locked
and reads. -/
theorem locked_slots_freed :
    let cfg : RadixConfig := .standard 2 2 (by decide) (by decide)
    let locked := run (sharedStep cfg) (init (.clear 2 16 16 false)) chunkedPrompt
    let final := run (sharedStep cfg) (init (.clear 2 16 16 false)) (chunkedPrompt ++ otherPrompt [1, 2, 9, 9])
    Along (sharedStep cfg) (Permitted cfg) (init (.clear 2 16 16 false)) (chunkedPrompt ++ otherPrompt [1, 2, 9, 9]) ∧
      final.raised = false ∧ locked.cache.slotsTo 2 = [2, 3, 4, 5] ∧
      Along (sharedStep cfg) (fun server _ => server.Holds 2) locked (otherPrompt [1, 2, 9, 9]) ∧ final.Holds 2 ∧
      final.cache.freeCalls = [⟨[2, 3], [2, 3]⟩] ∧ 2 / 2 ∈ final.cache.allocator.full.pages := by
  refine ⟨permitted_otherPrompt rfl, ?_, ?_, ?_, ?_, ?_, ?_⟩ <;> decide +kernel

end LockServer

end FlashMemory
