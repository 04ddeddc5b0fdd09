import FlashMemory.Soundness.EvictionCounts
import FlashMemory.Soundness.KvCapacity
import Mathlib.Data.Finset.Max

/-! # Eviction is sufficient

`evict` looks for the next victim before it deletes the present one, and starts over when a deletion has made a new
leaf. So at the head of every round it holds the least recently used candidate, and it stops only when it has evicted
enough or when there is none left. A node below an unlocked node is unlocked, so without an unlocked leaf there is no
unlocked node, and nothing is evictable any more. What leaves the evictable sizes arrives in the pools.
-/

namespace FlashMemory

open List KvPool

/-! ## The pools -/

namespace KvPool

variable {pageSize : ℕ} {pool : KvPool} {slots : List ℕ}

theorem availableSize_free : (pool.free pageSize slots).availableSize pageSize =
    (pagesOf pageSize slots).length * pageSize + pool.availableSize pageSize := by
  rw [availableSize_eq, availableSize_eq, perm_free.length_eq, length_append, Nat.add_mul]

theorem length_pagesOf (page : pageSize ≠ 1) :
    (pagesOf pageSize slots).length = (slots.map (· / pageSize)).dedup.length := by
  rw [pagesOf, if_neg page, length_insertionSort]

/-- Whole pages are as many slots. -/
private theorem length_pagesOf_inPages (positive : 0 < pageSize) (inPages : InPages pageSize slots)
    (distinct : slots.Nodup) : (pagesOf pageSize slots).length * pageSize = slots.length := by
  by_cases page : pageSize = 1
  · rw [pagesOf, if_pos page, page, Nat.mul_one]
  · rw [length_pagesOf page, inPages.length_dedup positive distinct]

end KvPool

namespace KvAllocator

variable {pageSize : ℕ} {allocator : KvAllocator} {slots : List ℕ}

section

variable (positive : 0 < pageSize) (inPages : InPages pageSize slots) (distinct : slots.Nodup)
include positive inPages distinct

theorem availableSize_full_free : (allocator.free pageSize slots).full.availableSize pageSize =
      slots.length + allocator.full.availableSize pageSize := by
  rw [← length_pagesOf_inPages positive inPages distinct]
  exact availableSize_free

/-- The windows of whole pages are whole pages. -/
private theorem availableSize_swa_freeSwa
    (pagewise : allocator.Pagewise pageSize) (mapped : ∀ slot ∈ slots, allocator.fullToSwa slot ≠ 0) :
    (allocator.freeSwa pageSize slots).swa.availableSize pageSize =
      slots.length + allocator.swa.availableSize pageSize := by
  have windows : allocator.swaIndices slots = slots.map allocator.fullToSwa := by
    refine filter_eq_self.mpr fun window mem => ?_
    obtain ⟨slot, isSlot, rfl⟩ := mem_map.mp mem
    exact decide_eq_true (Nat.pos_of_ne_zero (mapped slot isSlot))
  have length : (KvPool.pagesOf pageSize (allocator.swaIndices slots)).length * pageSize = slots.length := by
    by_cases page : pageSize = 1
    · rw [KvPool.pagesOf, if_pos page, page, Nat.mul_one, windows, length_map]
    · have same := @length_dedup_map_eq _ (fun slot => allocator.fullToSwa slot / pageSize) (· / pageSize) slots
        fun slot isSlot other isOther => (pagewise.pages slot other (mapped slot isSlot) (mapped other isOther)).symm
      rw [length_pagesOf page, windows, map_map]
      exact (congrArg (· * pageSize) same).trans (inPages.length_dedup positive distinct)
  rw [← length]
  exact availableSize_free

end

theorem availableSize_swa_le_freeSwa :
    allocator.swa.availableSize pageSize ≤ (allocator.freeSwa pageSize slots).swa.availableSize pageSize :=
  (Nat.le_add_left _ _).trans availableSize_free.ge

end KvAllocator

namespace RadixCache

variable {τ : Type} [DecidableEq τ] {cfg : RadixConfig} {cache cache' after : RadixCache τ} {pos : ℕ → ℕ}
  {node last more : ℕ} {gone dimmed : List ℕ} {locks : List RadixLock}

omit [DecidableEq τ] in
theorem Stocked.value_nodup (stocked : Stocked cfg (cache, [])) (mem : node ∈ cache.fullLru) :
    (cache.nodes node).value.Nodup := by
  have distinct := (nodup_append.mp stocked.distinct).1
  exact (nodup_flatMap.mp distinct).1 node mem

omit [DecidableEq τ] in
/-- The window pool gets the window of every slot of a living node. -/
theorem Stocked.freeSwa (stocked : Stocked cfg (cache, [])) (backed : Backed (fun _ => True) (cache, []))
    (mem : node ∈ cache.fullLru) (alive : (cache.nodes node).swaTombstone = false) :
    (cache.allocator.freeSwa cfg.pageSize (cache.nodes node).value).swa.availableSize cfg.pageSize =
      (cache.nodes node).value.length + cache.allocator.swa.availableSize cfg.pageSize :=
  KvAllocator.availableSize_swa_freeSwa cfg.pageSize_pos (stocked.valuePages node mem)
    (stocked.value_nodup mem) stocked.pagewise fun slot inside => backed slot trivial (.inl ⟨node, mem, alive, inside⟩)

section

variable (evictions : Evictions cfg cache gone dimmed cache') (shape : Shape cfg cache pos)
include evictions shape

/-- What leaves the evictable size of the full pool arrives in the pool. -/
theorem Evictions.full (stocked : Stocked cfg (cache, [])) :
    cache'.allocator.full.availableSize cfg.pageSize =
      cache.tokens gone + cache.allocator.full.availableSize cfg.pageSize ∧
      cache'.fullEvictableSize = cache.fullEvictableSize - cache.tokens gone := by
  induction evictions with
  | nil => exact ⟨(Nat.zero_add _).symm, (Int.sub_zero _).symm⟩
  | @delete cache cache' node gone dimmed deletes rest ih =>
    have first : Evictions cfg cache [node] _ _ := .delete deletes .nil
    have stocked' := (first.evicted shape).edits.stocked shape stocked (fun _ none => False.elim none)
    obtain ⟨available, evictable⟩ := ih (shape.deleteLeaf deletes) stocked'.1
    have frees : (cache.deleteLeaf cfg node).allocator = cache.allocator.free cfg.pageSize (cache.nodes node).value :=
      allocator_free
    have size : (cache.deleteLeaf cfg node).fullEvictableSize =
        cache.fullEvictableSize - (cache.nodes node).key.length := rfl
    have length := shape.valueLength node deletes.member
    have pages : InPages cfg.pageSize (cache.nodes node).value := stocked.valuePages node deletes.member
    rw [available, evictable, frees, size, KvAllocator.availableSize_full_free cfg.pageSize_pos pages
      (stocked.value_nodup deletes.member), first.tokens_eq, tokens_cons]
    omega
  | @tombstone cache cache' node gone dimmed mem unlocked rest ih =>
    have first : Evictions cfg cache [] [node] _ := .tombstone mem unlocked .nil
    have stocked' := (first.evicted shape).edits.stocked shape stocked (fun _ none => False.elim none)
    have same := ih (shape.evictSwa mem) stocked'.1
    rwa [first.tokens_eq] at same

/-- What leaves the evictable size of the window pool arrives in the pool. -/
theorem Evictions.swa (stocked : Stocked cfg (cache, [])) (backed : Backed (fun _ => True) (cache, [])) :
    cache.tokens dimmed + cache.allocator.swa.availableSize cfg.pageSize ≤
      cache'.allocator.swa.availableSize cfg.pageSize ∧
      cache'.swaEvictableSize = cache.swaEvictableSize - cache.tokens dimmed := by
  induction evictions with
  | nil => exact ⟨(Nat.zero_add _).le, (Int.sub_zero _).symm⟩
  | @delete cache cache' node gone dimmed deletes rest ih =>
    have first : Evictions cfg cache [node] _ _ := .delete deletes .nil
    have kept := (first.evicted shape).edits.stocked shape stocked backed
    obtain ⟨available, evictable⟩ := ih (shape.deleteLeaf deletes) kept.1 kept.2
    have frees : (cache.deleteLeaf cfg node).allocator.swa =
        (cache.allocator.freeSwa cfg.pageSize (cache.nodes node).value).swa :=
      (congrArg KvAllocator.swa (@allocator_free _ cfg cache (cache.nodes node).value) :)
    rw [first.tokens_eq, frees] at available
    rw [tokens_append, evictable, first.tokens_eq]
    have mem := deletes.member
    have length := shape.valueLength node mem
    cases dead : (cache.nodes node).swaTombstone with
    | true =>
      have grows := @KvAllocator.availableSize_swa_le_freeSwa cfg.pageSize cache.allocator (cache.nodes node).value
      have size : (cache.deleteLeaf cfg node).swaEvictableSize = cache.swaEvictableSize := if_pos dead
      have none : cache.tokens (cache.withWindow node) = 0 := by rw [withWindow, if_pos dead, tokens, map_nil, sum_nil]
      rw [none, size]
      omega
    | false =>
      have alive : ¬(cache.nodes node).swaTombstone = true := by simp [dead]
      have size : (cache.deleteLeaf cfg node).swaEvictableSize =
          cache.swaEvictableSize - (cache.nodes node).key.length :=
        if_neg alive
      have one : cache.tokens (cache.withWindow node) = (cache.nodes node).value.length := by
        rw [withWindow, if_neg alive, tokens_cons]
        rfl
      rw [stocked.freeSwa backed mem dead] at available
      rw [one, size]
      omega
  | @tombstone cache cache' node gone dimmed mem unlocked rest ih =>
    have first : Evictions cfg cache [] [node] _ := .tombstone mem unlocked .nil
    have kept := (first.evicted shape).edits.stocked shape stocked backed
    obtain ⟨available, evictable⟩ := ih (shape.evictSwa mem) kept.1 kept.2
    obtain ⟨inTree, alive⟩ := (shape.swaMember node).mp mem
    have frees : (cache.evictSwa cfg node (cache.nodes node).value.length).allocator =
        cache.allocator.freeSwa cfg.pageSize (cache.nodes node).value := rfl
    have size : (cache.evictSwa cfg node (cache.nodes node).value.length).swaEvictableSize =
        cache.swaEvictableSize - (cache.nodes node).value.length := rfl
    rw [first.tokens_eq, frees, stocked.freeSwa backed inTree alive] at available
    rw [tokens_cons, evictable, size, first.tokens_eq]
    omega

/-! ## No lock is violated -/

theorem Evictions.unlocked (covered : cache.Covered) :
    (∀ node ∈ gone, (cache.nodes node).fullLockRef = 0) ∧ ∀ node ∈ dimmed, (cache.nodes node).swaLockRef = 0 := by
  induction evictions with
  | nil => exact ⟨fun node none => absurd none not_mem_nil, fun node none => absurd none not_mem_nil⟩
  | @delete cache cache' node gone dimmed deletes rest ih =>
    have first : Evictions cfg cache [node] _ _ := .delete deletes .nil
    have covered' : (cache.deleteLeaf cfg node).Covered :=
      (Edit.delete deletes : Edit cfg (cache, []) _).covered shape covered
    obtain ⟨full, swa⟩ := ih (shape.deleteLeaf deletes) covered'
    constructor
    · intro other mem
      rcases mem_cons.mp mem with rfl | later
      · exact deletes.unlocked
      · have was := full other later
        rwa [deleteLeaf_nodes] at was
    · intro other mem
      rcases mem_append.mp mem with here | later
      · have atMost := covered node (.inr deletes.member)
        rw [deletes.unlocked] at atMost
        exact eq_of_mem_withWindow here ▸ Nat.le_zero.mp atMost
      · exact ((first.evicted shape).windows other).symm.trans (swa other later)
  | @tombstone cache cache' node gone dimmed mem unlocked rest ih =>
    have first : Evictions cfg cache [] [node] _ := .tombstone mem unlocked .nil
    have covered' : (cache.evictSwa cfg node (cache.nodes node).value.length).Covered :=
      (Edit.evictSwa mem unlocked : Edit cfg (cache, []) _).covered shape covered
    obtain ⟨full, swa⟩ := ih (shape.evictSwa mem) covered'
    constructor
    · exact fun other later => (sameLocks_evictSwa.full other).symm.trans (full other later)
    · intro other isLost
      rcases mem_cons.mp isLost with rfl | later
      · exact unlocked
      · exact ((first.evicted shape).windows other).symm.trans (swa other later)

end

/-! ## The least recently used candidate -/

/-- Candidates in two lists that are taken from one. -/
private theorem lruOf_filter_congr {lru : List ℕ} {keep keep' free free' : ℕ → Bool}
    (same : ∀ entry ∈ lru, (free entry && keep entry) = (free' entry && keep' entry)) :
    lruOf (lru.filter keep) free = lruOf (lru.filter keep') free' := by
  rw [lruOf, lruOf, ← filter_reverse, ← filter_reverse, ← head?_filter, ← head?_filter,
    filter_filter, filter_filter]
  exact congrArg List.head? (filter_congr fun entry mem => same entry (mem_reverse.mp mem))

/-- What a deletion leaves of the tree, and where the rest of it hung: a node that goes is the first one or has a child,
and goes with its parent or is the last one. -/
theorem Prunes.left (prunes : Prunes cfg cache node last more after) :
    (∀ other ∈ after.fullLru, other ∈ cache.fullLru ∧ other ≠ node) ∧
      ∀ other ∈ cache.fullLru, other ∉ after.fullLru →
        (other = node ∨ ∃ child ∈ cache.fullLru, (cache.nodes child).parent = other) ∧
        ((cache.nodes other).parent ∉ after.fullLru ∨ (cache.nodes other).parent = (cache.nodes last).parent) := by
  induction prunes with
  | stop deletes _ =>
    refine ⟨fun other kept => mem_fullLru_deleteLeaf.mp kept, fun other mem missing => ?_⟩
    rw [mem_fullLru_deleteLeaf, not_and, not_not] at missing
    obtain rfl := missing mem
    exact ⟨.inl rfl, .inr rfl⟩
  | @climb cache after node last more deletes dead _ ih =>
    have parents : ∀ other, ((cache.deleteLeaf cfg node).nodes other).parent = (cache.nodes other).parent :=
      fun other => by
      rw [deleteLeaf_nodes]
    simp only [parents, mem_fullLru_deleteLeaf] at ih
    obtain ⟨kept, lost⟩ := ih
    refine ⟨fun other mem => (kept other mem).1, fun other mem missing => ?_⟩
    by_cases same : other = node
    · exact ⟨.inl same, .inl fun above => (kept _ above).2 (same ▸ rfl)⟩
    · obtain ⟨below, above⟩ := lost other ⟨mem, same⟩ missing
      refine ⟨.inr ?_, above⟩
      rcases below with rfl | ⟨child, isChild, parent⟩
      · exact ⟨node, deletes.member, rfl⟩
      · exact ⟨child, isChild.1, parent⟩

theorem Prunes.fullLru_eq (prunes : Prunes cfg cache node last more after) :
    ∃ keep, after.fullLru = cache.fullLru.filter keep := by
  induction prunes with
  | stop => exact ⟨_, rfl⟩
  | climb _ _ _ ih =>
    obtain ⟨keep, is⟩ := ih
    exact ⟨_, is.trans filter_filter⟩

omit [DecidableEq τ] in
theorem leafNoLock_iff : cache.leafNoLock node = true ↔
    (cache.nodes node).fullLockRef = 0 ∧ (cache.nodes node).children.values = [] := by
  rw [leafNoLock, decide_eq_true_eq]

section

variable (prunes : Prunes cfg cache node last more after) (shape : Shape cfg cache pos)
include prunes shape

/-- If the parent of the last node has other children, the candidates are those of before without the victim. -/
theorem Prunes.leafNoLock_iff
    (stays : (after.nodes (after.nodes last).parent).children.values ≠ []) {other : ℕ} (mem : other ∈ cache.fullLru) :
    cache.leafNoLock other = true ∧ other ≠ node ↔ after.leafNoLock other = true ∧ other ∈ after.fullLru := by
  obtain ⟨kept, lost⟩ := prunes.left
  obtain ⟨_, evictions, _, _⟩ := prunes.evictions
  have shape' := (prunes.evicted shape).shape
  have parents : ∀ entry, (after.nodes entry).parent = (cache.nodes entry).parent := fun entry => by
    obtain ⟨_, _, is⟩ := evictions.nodes entry
    rw [is]
  have locks : (after.nodes other).fullLockRef = (cache.nodes other).fullLockRef := by
    obtain ⟨_, _, is⟩ := evictions.nodes other
    rw [is]
  rw [RadixCache.leafNoLock_iff, RadixCache.leafNoLock_iff, locks, shape.values_nil (.inr mem)]
  constructor
  · rintro ⟨⟨unlocked, leaf⟩, apart⟩
    have inside : other ∈ after.fullLru := by
      by_contra missing
      obtain ⟨child, isChild, parent⟩ := (lost other mem missing).1.resolve_left apart
      exact leaf child isChild parent
    refine ⟨⟨unlocked, (shape'.values_nil (.inr inside)).mpr fun child isChild => ?_⟩, inside⟩
    rw [parents]
    exact leaf child (kept child isChild).1
  · rintro ⟨⟨unlocked, leaf⟩, inside⟩
    refine ⟨⟨unlocked, fun child isChild parent => ?_⟩, (kept other inside).2⟩
    -- a child that has gone hung below a node that has gone, or below the parent of the last one
    have gone : child ∉ after.fullLru := fun still =>
      (shape'.values_nil (.inr inside)).mp leaf child still ((parents child).trans parent)
    rcases (lost child isChild gone).2 with above | top
    · exact above (parent ▸ inside)
    · rw [parents, ← top, parent] at stays
      exact stays leaf

/-- After a round of the loop over the full list, the next entry is again the least recently used candidate. -/
theorem Prunes.next
    (least : lruOf cache.fullLru cache.leafNoLock = some node) :
    (if (after.nodes (after.nodes last).parent).children.values = [] then lruOf after.fullLru after.leafNoLock
      else prevOf cache.fullLru cache.leafNoLock node) = lruOf after.fullLru after.leafNoLock := by
  split_ifs with stays
  · rfl
  · obtain ⟨keep, is⟩ := prunes.fullLru_eq
    have candidates := fun entry (mem : entry ∈ cache.fullLru) => prunes.leafNoLock_iff shape stays mem
    rw [is] at candidates ⊢
    rw [prevOf_eq_lruOf shape.nodup least]
    refine lruOf_filter_congr fun entry mem => ?_
    rw [Bool.eq_iff_iff, Bool.and_eq_true, Bool.and_eq_true, decide_eq_true_eq, candidates entry mem, mem_filter]
    exact and_congr_right fun _ => and_iff_right mem

end

/-- The loop over the full list stops with enough, or without a candidate. -/
theorem FullRounds.exhausts {numTokens : ℕ} {next : Option ℕ} {result result' : EvictResult}
    (rounds : FullRounds cfg numTokens cache next result cache' result') (shape : Shape cfg cache pos)
    (least : next = lruOf cache.fullLru cache.leafNoLock) :
    numTokens ≤ result'.numTokensEvicted ∨ lruOf cache'.fullLru cache'.leafNoLock = none := by
  induction rounds with
  | @stop cache next result stopped =>
    cases next with
    | none => exact .inr least.symm
    | some node =>
      have enough := stopped node rfl
      exact .inl (not_lt.mp fun short => enough ⟨short, lruOf_mem least.symm⟩)
  | round _ prunes _ ih => exact ih (prunes.evicted shape).shape (prunes.next shape least.symm)

theorem SwaRounds.exhausts {swaNumTokens : ℕ} {next : Option ℕ} {result result' : EvictResult}
    (rounds : SwaRounds cfg swaNumTokens cache next result cache' result') (shape : Shape cfg cache pos)
    (least : next = lruOf cache.swaLru cache.swaNoLock) :
    swaNumTokens ≤ result'.swaNumTokensEvicted ∨ lruOf cache'.swaLru cache'.swaNoLock = none := by
  induction rounds with
  | @stop cache next result stopped =>
    cases next with
    | none => exact .inr least.symm
    | some node =>
      have enough := stopped node rfl
      exact .inl (not_lt.mp fun short => enough ⟨short, lruOf_mem least.symm⟩)
  | tombstone _ mem unlocked _ _ ih =>
    exact ih (shape.evictSwa mem) (next_swa (.evictSwa shape mem unlocked) rfl shape least.symm)
  | delete _ _ _ prunes _ ih =>
    have evicted := prunes.evicted shape
    exact ih evicted.shape (next_swa evicted (prunes.swaLru shape) shape least.symm)

/-! ## Nothing is left -/

/-- A node below an unlocked node is unlocked. -/
theorem Locked.child_unlocked {child : ℕ} (locked : Locked cache pos locks) (shape : Shape cfg cache pos)
    (mem : node ∈ cache.fullLru) (unlocked : (cache.nodes node).fullLockRef = 0) (isChild : child ∈ cache.fullLru)
    (below : (cache.nodes child).parent = node) : (cache.nodes child).fullLockRef = 0 := by
  rw [locked.full child isChild, countP_eq_zero]
  intro lock held passed
  obtain ⟨walk, _⟩ := shape.climb_path (locked.inTree lock held)
  have above := walk.parent_mem (of_decide_eq_true passed) (below ▸ shape.ne_root mem)
  exact locked.not_mem_path mem unlocked lock held (below ▸ above)

/-- Without an unlocked leaf every node is locked. -/
theorem Locked.all_locked (locked : Locked cache pos locks) (shape : Shape cfg cache pos)
    (none : lruOf cache.fullLru cache.leafNoLock = none) :
    ∀ node ∈ cache.fullLru, (cache.nodes node).fullLockRef ≠ 0 := by
  by_contra some
  push Not at some
  -- the deepest unlocked node is a leaf
  have nonempty : (cache.fullLru.toFinset.filter fun node => (cache.nodes node).fullLockRef = 0).Nonempty := by
    obtain ⟨node, mem, unlocked⟩ := some
    exact ⟨node, Finset.mem_filter.mpr ⟨mem_toFinset.mpr mem, unlocked⟩⟩
  obtain ⟨node, isNode, deepest⟩ := Finset.exists_max_image _ pos nonempty
  obtain ⟨mem, unlocked⟩ := Finset.mem_filter.mp isNode
  rw [mem_toFinset] at mem
  have leaf : (cache.nodes node).children.values = [] := by
    refine (shape.values_nil (.inr mem)).mpr fun child isChild below => ?_
    have free := locked.child_unlocked shape mem unlocked isChild below
    have higher := deepest child (Finset.mem_filter.mpr ⟨mem_toFinset.mpr isChild, free⟩)
    have lower := shape.parent_pos_lt isChild
    rw [below] at lower
    omega
  refine find?_eq_none.mp none node (mem_reverse.mpr mem) ?_
  exact RadixCache.leafNoLock_iff.mpr ⟨unlocked, leaf⟩

omit [DecidableEq τ] in
theorem Booked.fullEvictable_eq_zero (booked : Booked cache)
    (locked : ∀ node ∈ cache.fullLru, (cache.nodes node).fullLockRef ≠ 0) : cache.fullEvictableSize = 0 := by
  rw [booked.fullEvictable]
  exact tally_eq_zero fun node mem => if_neg (by simpa using locked node mem)

theorem Booked.swaEvictable_eq_zero (booked : Booked cache) (shape : Shape cfg cache pos)
    (none : lruOf cache.swaLru cache.swaNoLock = none) : cache.swaEvictableSize = 0 := by
  rw [booked.swaEvictable]
  refine tally_eq_zero fun node mem => if_neg fun chosen => ?_
  obtain ⟨alive, unlocked⟩ := of_decide_eq_true chosen
  refine find?_eq_none.mp none node (mem_reverse.mpr ((shape.swaMember node).mpr ⟨mem, alive⟩)) ?_
  rw [swaNoLock]
  exact decide_eq_true unlocked

/-! ## Enough is evicted -/

/-- Without a shortage nothing is asked of `evict`. -/
private theorem evictFromTreeCache_eq {numTokens : ℕ} {result : EvictResult}
    (evicts : evict cfg (numTokens - cache.allocator.full.availableSize cfg.pageSize)
      (numTokens - cache.allocator.swa.availableSize cfg.pageSize) cache = .ok result cache') :
    evictFromTreeCache cfg numTokens cache = .ok () cache' := by
  have same : Ensures (evictFromTreeCache cfg numTokens) cache (fun _ after => after = cache') fun _ => False := by
    rw [evictFromTreeCache, ensures_bind, ensures_get]
    dsimp only
    split_ifs with short
    · rw [ensures_bind, Ensures, evicts]
      rfl
    · obtain ⟨enough, swaEnough⟩ := not_or.mp short
      rw [Nat.sub_eq_zero_of_le (not_lt.mp enough), Nat.sub_eq_zero_of_le (not_lt.mp swaEnough)] at evicts
      exact (EStateM.Result.ok.inj evicts).2
  obtain ⟨_, after, is, rfl⟩ := same.returns
  exact is

end RadixCache

namespace LockServer

open RadixCache

variable {τ : Type} [DecidableEq τ]

/-- `evict_from_tree_cache` on any tree that a run leads to, when both pools have enough free and evictable slots: it
returns after the rounds of its loops, both pools then have enough free slots, and no lock is violated. -/
theorem eviction_sufficient (cfg : RadixConfig) (allocator : KvAllocator) (calls : List (SharedCall τ))
    (start : allocator.Pagewise cfg.pageSize)
    (permitted : Along (sharedStep cfg) (Permitted cfg) (init allocator) calls)
    (truthful : Along (sharedStep cfg) (Truthful cfg) (init allocator) calls)
    (returned : (run (sharedStep cfg) (init allocator) calls).raised = false) (numTokens : ℕ) :
    let cache := (run (sharedStep cfg) (init allocator) calls).cache
    let fullAvailableSize := cache.allocator.full.availableSize cfg.pageSize
    let swaAvailableSize := cache.allocator.swa.availableSize cfg.pageSize
    (numTokens : ℤ) ≤ fullAvailableSize + cache.fullEvictableSize →
    (numTokens : ℤ) ≤ swaAvailableSize + cache.swaEvictableSize →
    ∃ between middle result cache', evictFromTreeCache cfg numTokens cache = .ok () cache' ∧
      FullRounds cfg (numTokens - fullAvailableSize) cache (lruOf cache.fullLru cache.leafNoLock)
        ⟨0, 0⟩ middle between ∧
      SwaRounds cfg (numTokens - swaAvailableSize) middle (lruOf middle.swaLru middle.swaNoLock) between cache' result ∧
      numTokens ≤ cache'.allocator.full.availableSize cfg.pageSize ∧
      numTokens ≤ cache'.allocator.swa.availableSize cfg.pageSize ∧
      (∀ node ∈ cache.fullLru, 0 < (cache.nodes node).fullLockRef → node ∈ cache'.fullLru) ∧
      ∀ node ∈ cache.swaLru, 0 < (cache.nodes node).swaLockRef → node ∈ cache'.swaLru := by
  intro cache fullAvailableSize swaAvailableSize fullRoom swaRoom
  obtain ⟨orderly, stocked⟩ : _ ∧ Stocked cfg (cache, []) := stocked_run start returned permitted
  have backed : Backed (fun _ => True) (cache, []) := backed_run start returned permitted truthful
  have accounted : Accounted cache := orderly.accounted
  obtain ⟨pos, shape, _⟩ : Spanned cfg cache _ := orderly.spanned
  obtain ⟨between, middle, result, cache', _, second, full, swa⟩ := evict_returns shape accounted.sound
    (numTokens - cache.allocator.full.availableSize cfg.pageSize)
    (numTokens - cache.allocator.swa.availableSize cfg.pageSize)
  have evicted := full.evicted shape
  obtain ⟨gone, dimmed, evictions, counted, windows⟩ := full.evictions
  obtain ⟨gone', dimmed', evictions', windows', _⟩ := swa.evictions evicted.shape rfl
  rw [Nat.zero_add] at counted windows
  have all := evictions.append evictions'
  obtain ⟨unlocked, unlockedSwa⟩ := all.unlocked shape accounted.covered
  refine ⟨between, middle, result, cache', evictFromTreeCache_eq second, full, swa, ?_, ?_, fun node mem held => ?_,
    fun node mem held => ?_⟩
  · obtain ⟨available, _⟩ := all.full shape stocked
    obtain ⟨_, evictable⟩ := evictions.full shape stocked
    rw [tokens_append] at available
    rcases full.exhausts shape rfl with enough | none
    · rw [counted] at enough
      omega
    · obtain ⟨_, shape', locked, _⟩ := evicted.edits.spanned orderly.spanned
      have empty : middle.fullEvictableSize = 0 :=
        (evicted.edits.accounted shape accounted).booked.fullEvictable_eq_zero (locked.all_locked shape' none)
      omega
  · obtain ⟨available, evictable⟩ := all.swa shape stocked backed
    rw [tokens_append] at available evictable
    rcases swa.exhausts evicted.shape rfl with enough | none
    · rw [windows', windows, evictions.tokens_eq] at enough
      omega
    · have evicted' := all.evicted shape
      have empty : cache'.swaEvictableSize = 0 :=
        (evicted'.edits.accounted shape accounted).booked.swaEvictable_eq_zero evicted'.shape none
      omega
  · rcases mem_append.mp ((all.fullLru shape).mem_iff.mpr mem) with lost | kept
    · exact absurd (unlocked node lost) held.ne'
    · exact kept
  · rcases mem_append.mp ((all.swaLru shape).mem_iff.mpr mem) with lost | kept
    · exact absurd (unlockedSwa node lost) held.ne'
    · exact kept

/-- Eight slots are free in one pool and ten in the other. For twelve, all of the tree has to go. -/
theorem eviction_sufficient_on_tombstoneRun :
    let cfg : RadixConfig := .standard 2 2 (by decide) (by decide)
    let cache := (run (sharedStep cfg) (init (.clear 2 16 16 false)) tombstoneRun).cache
    cache.allocator.full.availableSize 2 = 8 ∧ cache.allocator.swa.availableSize 2 = 10 ∧
      ∃ cache', evictFromTreeCache cfg 12 cache = .ok () cache' ∧ 12 ≤ cache'.allocator.full.availableSize 2 ∧
        12 ≤ cache'.allocator.swa.availableSize 2 := by
  intro cfg cache
  obtain ⟨_, _, _, cache', returns, _, _, full, swa, _⟩ := eviction_sufficient cfg (.clear 2 16 16 false) tombstoneRun
    (KvServer.paged_init 16 16 false).pagewise permitted_tombstoneRun truthful_tombstoneRun (by decide +kernel) 12
    (by decide +kernel) (by decide +kernel)
  exact ⟨by decide +kernel, by decide +kernel, cache', returns, full, swa⟩

end LockServer

end FlashMemory
