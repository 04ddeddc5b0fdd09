import FlashMemory.Soundness.RadixConservation
import Mathlib.Algebra.BigOperators.Group.List.Basic

/-! # What an eviction frees

The rounds of `evict` are evictions of two kinds: a leaf is deleted, or a node becomes a tombstone. Over them we follow
the nodes that leave the tree and those that lose their windows. The two numbers that `evict` returns are compared with
the tokens of these nodes. The loop over the window list does not count the tombstones that go with a deleted leaf.
-/

namespace FlashMemory

open List

namespace RadixCache

variable {τ : Type} [DecidableEq τ] {cfg : RadixConfig} {cache cache' cache'' after : RadixCache τ} {pos : ℕ → ℕ}
  {node last more : ℕ} {gone gone' dimmed dimmed' : List ℕ}

/-- The number of tokens of some nodes. -/
def tokens (cache : RadixCache τ) (nodes : List ℕ) : ℕ := (nodes.map fun node => (cache.nodes node).value.length).sum

/-- A node, if it has a window. -/
def withWindow (cache : RadixCache τ) (node : ℕ) : List ℕ := if (cache.nodes node).swaTombstone then [] else [node]

/-- Evictions that take some nodes out of the tree, and the windows of some nodes. -/
inductive Evictions (cfg : RadixConfig) : RadixCache τ → List ℕ → List ℕ → RadixCache τ → Prop
  | nil {cache : RadixCache τ} : Evictions cfg cache [] [] cache
  | delete {cache cache' : RadixCache τ} {node : ℕ} {gone dimmed : List ℕ} : Deletes cache node →
      Evictions cfg (cache.deleteLeaf cfg node) gone dimmed cache' →
      Evictions cfg cache (node :: gone) (cache.withWindow node ++ dimmed) cache'
  | tombstone {cache cache' : RadixCache τ} {node : ℕ} {gone dimmed : List ℕ} : node ∈ cache.swaLru →
      (cache.nodes node).swaLockRef = 0 →
      Evictions cfg (cache.evictSwa cfg node (cache.nodes node).value.length) gone dimmed cache' →
      Evictions cfg cache gone (node :: dimmed) cache'

namespace Evictions

theorem append (first : Evictions cfg cache gone dimmed cache') (second : Evictions cfg cache' gone' dimmed' cache'') :
    Evictions cfg cache (gone ++ gone') (dimmed ++ dimmed') cache'' := by
  induction first with
  | nil => exact second
  | delete deletes _ ih =>
    rw [cons_append, append_assoc]
    exact .delete deletes (ih second)
  | tombstone mem unlocked _ ih => exact .tombstone mem unlocked (ih second)

section

variable (evictions : Evictions cfg cache gone dimmed cache')

include evictions

theorem evicted (shape : Shape cfg cache pos) : Evicted cfg cache cache' pos := by
  induction evictions with
  | nil => exact .refl shape
  | delete deletes _ ih => exact (Evicted.delete shape deletes).trans (ih (shape.deleteLeaf deletes))
  | tombstone mem unlocked _ ih => exact (Evicted.evictSwa shape mem unlocked).trans (ih (shape.evictSwa mem))

/-- Records of nodes change in their children and tombstones only. -/
theorem nodes (other : ℕ) :
    ∃ children dead, cache'.nodes other = { cache.nodes other with children := children, swaTombstone := dead } := by
  induction evictions with
  | nil => exact ⟨_, _, rfl⟩
  | delete _ _ ih =>
    obtain ⟨children, dead, is⟩ := ih
    rw [deleteLeaf_nodes] at is
    exact ⟨children, dead, is⟩
  | tombstone _ _ _ ih =>
    obtain ⟨children, dead, is⟩ := ih
    rw [evictSwa_nodes] at is
    split_ifs at is with same
    · exact ⟨children, dead, same ▸ is⟩
    · exact ⟨children, dead, is⟩

theorem value (other : ℕ) : (cache'.nodes other).value = (cache.nodes other).value := by
  obtain ⟨_, _, is⟩ := evictions.nodes other
  rw [is]

theorem tokens_eq (nodes : List ℕ) : cache'.tokens nodes = cache.tokens nodes := by
  unfold tokens
  simp only [evictions.value]

/-- The nodes that left the tree. -/
theorem fullLru (shape : Shape cfg cache pos) : (gone ++ cache'.fullLru).Perm cache.fullLru := by
  induction evictions with
  | nil => exact .refl _
  | delete deletes _ ih =>
    exact ((ih (shape.deleteLeaf deletes)).cons _).trans (perm_cons_filter_ne shape.nodup deletes.member)
  | tombstone mem _ _ ih => exact ih (shape.evictSwa mem)

end

private theorem withWindow_perm (shape : Shape cfg cache pos) (deletes : Deletes cache node) :
    (cache.withWindow node ++ (cache.deleteLeaf cfg node).swaLru).Perm cache.swaLru := by
  unfold withWindow
  split_ifs with dead
  · exact List.Perm.of_eq (if_pos dead)
  · have alive : node ∈ cache.swaLru := (shape.swaMember node).mpr ⟨deletes.member, by simpa using dead⟩
    rw [swaLru_deleteLeaf shape]
    exact perm_cons_filter_ne shape.swaNodup alive

/-- The nodes that lost their windows. -/
theorem swaLru (evictions : Evictions cfg cache gone dimmed cache') (shape : Shape cfg cache pos) :
    (dimmed ++ cache'.swaLru).Perm cache.swaLru := by
  induction evictions with
  | nil => exact .refl _
  | delete deletes _ ih =>
    rw [append_assoc]
    exact ((ih (shape.deleteLeaf deletes)).append_left _).trans (withWindow_perm shape deletes)
  | tombstone mem _ _ ih =>
    exact ((ih (shape.evictSwa mem)).cons _).trans (perm_cons_filter_ne shape.swaNodup mem)

/-- The slots of the nodes that left the tree are freed, and no others. -/
theorem freed (evictions : Evictions cfg cache gone dimmed cache') :
    ∃ freed, cache'.freedSlots = freed ++ cache.freedSlots ∧
    freed.Perm (gone.flatMap fun node => (cache.nodes node).value) := by
  induction evictions with
  | nil => exact ⟨[], rfl, .refl _⟩
  | @delete cache cache' node gone dimmed deletes rest ih =>
    obtain ⟨freed, noted, perm⟩ := ih
    have first : (cache.deleteLeaf cfg node).freedSlots = (cache.nodes node).value ++ cache.freedSlots :=
      freedSlots_free
    have values : ∀ other, ((cache.deleteLeaf cfg node).nodes other).value = (cache.nodes other).value :=
      fun other => by
      rw [deleteLeaf_nodes]
    simp only [values] at perm
    refine ⟨freed ++ (cache.nodes node).value, by rw [noted, first, append_assoc], ?_⟩
    rw [flatMap_cons]
    exact perm_append_comm.trans (perm.append_left _)
  | @tombstone cache cache' node gone dimmed mem unlocked rest ih =>
    obtain ⟨freed, noted, perm⟩ := ih
    have values : ∀ other, ((cache.evictSwa cfg node (cache.nodes node).value.length).nodes other).value =
        (cache.nodes other).value := (Evictions.tombstone mem unlocked .nil).value
    simp only [values] at perm
    exact ⟨freed, noted, perm⟩

end Evictions

/-! ## The rounds -/

omit [DecidableEq τ] in
theorem tokens_cons (nodes : List ℕ) :
    cache.tokens (node :: nodes) = (cache.nodes node).value.length + cache.tokens nodes :=
  sum_cons

omit [DecidableEq τ] in
theorem eq_of_mem_withWindow {other : ℕ} (mem : other ∈ cache.withWindow node) : other = node := by
  unfold withWindow at mem
  split_ifs at mem
  · exact absurd mem not_mem_nil
  · exact mem_singleton.mp mem

omit [DecidableEq τ] in
theorem tokens_append (nodes nodes' : List ℕ) :
    cache.tokens (nodes ++ nodes') = cache.tokens nodes + cache.tokens nodes' := by
  rw [tokens, map_append, sum_append, tokens, tokens]

theorem Prunes.deletes (prunes : Prunes cfg cache node last more after) : Deletes cache node := by
  cases prunes <;> assumption

theorem Prunes.evictions (prunes : Prunes cfg cache node last more after) :
    ∃ gone, Evictions cfg cache (node :: gone) (cache.withWindow node) after ∧ cache.tokens gone = more := by
  induction prunes with
  | @stop cache node deletes _ =>
    have single := Evictions.delete deletes (@Evictions.nil _ _ cfg _)
    rw [append_nil] at single
    exact ⟨[], single, rfl⟩
  | @climb cache after node last more deletes dead _ ih =>
    obtain ⟨gone, rest, counted⟩ := ih
    have none : (cache.deleteLeaf cfg node).withWindow (cache.nodes node).parent = [] := if_pos dead.1
    rw [none] at rest
    have all := Evictions.delete deletes rest
    rw [append_nil] at all
    have same := (Evictions.delete deletes .nil : Evictions cfg cache [node] _ _).tokens_eq gone
    exact ⟨(cache.nodes node).parent :: gone, all, by rw [tokens_cons, ← same, counted]⟩

/-- The loop over the full list counts what leaves the tree and which windows are lost. -/
theorem FullRounds.evictions {numTokens : ℕ} {next : Option ℕ} {result result' : EvictResult}
    (rounds : FullRounds cfg numTokens cache next result cache' result') :
    ∃ gone dimmed, Evictions cfg cache gone dimmed cache' ∧
      result'.numTokensEvicted = result.numTokensEvicted + cache.tokens gone ∧
      result'.swaNumTokensEvicted = result.swaNumTokensEvicted + cache.tokens dimmed := by
  induction rounds with
  | stop _ => exact ⟨[], [], .nil, rfl, rfl⟩
  | @round cache after cache' node last more result result' _ prunes _ ih =>
    obtain ⟨above, first, counted⟩ := prunes.evictions
    obtain ⟨gone, dimmed, rest, full, swa⟩ := ih
    refine ⟨_, _, first.append rest, ?_, ?_⟩
    · rw [full, tokens_append, tokens_cons, counted, first.tokens_eq]
      simp only [Nat.add_assoc]
    · rw [swa, tokens_append, first.tokens_eq, withWindow]
      cases dead : (cache.nodes node).swaTombstone with
      | true => simp [tokens]
      | false => simp [tokens, Nat.add_assoc]

/-! ## Tombstones that lose their last leaf -/

/-- The window nodes are visited for some tokens: a leaf without a lock leaves the tree, another node becomes a
tombstone. Does a tombstone without a lock become a leaf by that? -/
def strands (parent : ℕ → ℕ) (unlocked : ℕ → Bool) (size : ℕ → ℕ) : List ℕ → ℕ → List ℕ → (ℕ → Bool) → Bool
  | [], _, _, _ => false
  | node :: newer, needed, tree, dead =>
    if needed = 0 then false
    else if unlocked node ∧ ∀ child ∈ tree, parent child ≠ node then
      let above := parent node
      let tree := tree.filter (· ≠ node)
      (dead above ∧ (∀ child ∈ tree, parent child ≠ above) ∧ above ≠ rootNode ∧ unlocked above) ||
        strands parent unlocked size newer (needed - size node) tree dead
    else strands parent unlocked size newer (needed - size node) tree fun other => other = node || dead other

/-- Does the loop over the window list take the last leaf below a tombstone? It visits the nodes without a window lock,
the least recently used ones first. -/
def strandsTombstone (cache : RadixCache τ) (needed : ℕ) : Bool :=
  strands (fun node => (cache.nodes node).parent) (fun node => (cache.nodes node).fullLockRef = 0)
    (fun node => (cache.nodes node).value.length) (cache.swaLru.reverse.filter cache.swaNoLock) needed cache.fullLru
    fun node => (cache.nodes node).swaTombstone

/-- The entry before the least recently used one is the least recently used one of the rest. -/
theorem prevOf_eq_lruOf {lru : List ℕ} {free : ℕ → Bool} (nodup : lru.Nodup) (least : lruOf lru free = some node) :
    prevOf lru free node = lruOf (lru.filter (· ≠ node)) free := by
  obtain ⟨_, older, newer, split, taken⟩ := find?_eq_some_iff_append.mp least
  have whole : lru = newer.reverse ++ node :: older.reverse := by
    rw [← reverse_reverse lru, split, reverse_append, reverse_cons, append_assoc, singleton_append]
  rw [whole] at nodup
  have absent : ∀ other ∈ newer.reverse, decide (other ≠ node) = true := fun other mem =>
    decide_eq_true fun same => (nodup_append.mp nodup).2.2 other mem node (mem_cons_self ..) same
  have none : older.find? free = none := find?_eq_none.mpr fun other mem => by simpa using taken other mem
  rw [prevOf, lruOf, whole, LinkedList.filter_ne_append nodup, takeWhile_append_of_pos absent,
    takeWhile_cons_of_neg (by simp), append_nil, reverse_append, reverse_reverse, reverse_reverse,
    find?_append, none, Option.none_or]

/-- A round of the loop over the window list takes the victim out of the list and changes no lock. -/
theorem next_swa (evicted : Evicted cfg cache after pos) (taken : after.swaLru = cache.swaLru.filter (· ≠ node))
    (shape : Shape cfg cache pos) (least : lruOf cache.swaLru cache.swaNoLock = some node) :
    prevOf cache.swaLru cache.swaNoLock node = lruOf after.swaLru after.swaNoLock := by
  have same : after.swaNoLock = cache.swaNoLock := funext fun other => by rw [swaNoLock, swaNoLock, evicted.windows]
  rw [prevOf_eq_lruOf shape.swaNodup least, taken, same]

theorem lruOf_mem {lru : List ℕ} {free : ℕ → Bool} (least : lruOf lru free = some node) : node ∈ lru :=
  mem_reverse.mp (mem_of_find?_eq_some least)

theorem reverse_filter_of_least {lru : List ℕ} {free : ℕ → Bool} (nodup : lru.Nodup)
    (least : lruOf lru free = some node) :
    lru.reverse.filter free = node :: (lru.filter (· ≠ node)).reverse.filter free := by
  have distinct := (nodup_reverse.mpr nodup).filter free
  have first : (lru.reverse.filter free).head? = some node := head?_filter.trans least
  rw [← filter_reverse, filter_filter, filter_congr fun other _ => Bool.and_comm .., ← filter_filter]
  obtain ⟨rest, is⟩ := head?_eq_some_iff.mp first
  rw [is] at distinct ⊢
  have others : ∀ other ∈ rest, decide (other ≠ node) = true := fun other mem =>
    decide_eq_true fun same => (nodup_cons.mp distinct).1 (same ▸ mem)
  rw [filter_cons_of_neg (by simp), filter_eq_self.mpr others]

/-- Evictions change neither parents nor locks nor values. -/
theorem Evictions.strandsTombstone_eq (evictions : Evictions cfg cache gone dimmed cache') (needed : ℕ) :
    cache'.strandsTombstone needed = strands (fun node => (cache.nodes node).parent)
      (fun node => (cache.nodes node).fullLockRef = 0) (fun node => (cache.nodes node).value.length)
      (cache'.swaLru.reverse.filter cache.swaNoLock) needed cache'.fullLru fun node =>
        (cache'.nodes node).swaTombstone := by
  have parents : ∀ node, (cache'.nodes node).parent = (cache.nodes node).parent := fun node => by
    obtain ⟨_, _, is⟩ := evictions.nodes node
    rw [is]
  have locks : ∀ node, (cache'.nodes node).fullLockRef = (cache.nodes node).fullLockRef ∧
      (cache'.nodes node).swaLockRef = (cache.nodes node).swaLockRef := fun node => by
    obtain ⟨_, _, is⟩ := evictions.nodes node
    rw [is]
    exact ⟨rfl, rfl⟩
  have windows : cache'.swaNoLock = cache.swaNoLock := funext fun node => by rw [swaNoLock, swaNoLock, (locks node).2]
  simp only [strandsTombstone, parents, locks, evictions.value, windows]

section

variable (shape : Shape cfg cache pos) (least : lruOf cache.swaLru cache.swaNoLock = some node) {needed : ℕ}
  (short : needed ≠ 0)

include shape least short

private theorem strandsTombstone_evictSwa (stays : ¬Deletes cache node) :
    cache.strandsTombstone needed = (cache.evictSwa cfg node (cache.nodes node).value.length).strandsTombstone
      (needed - (cache.nodes node).value.length) := by
  have inside := lruOf_mem least
  have mem := ((shape.swaMember node).mp inside).1
  have kept : ¬(decide ((cache.nodes node).fullLockRef = 0) = true ∧ ∀ child ∈ cache.fullLru,
      (cache.nodes child).parent ≠ node) :=
    fun both => stays ⟨mem, (shape.values_nil (.inr mem)).mpr both.2, of_decide_eq_true both.1⟩
  have first : Evictions cfg cache [] [node] _ := .tombstone inside (of_decide_eq_true (lruOf_spec least)) .nil
  have dims : (fun other => ((cache.evictSwa cfg node (cache.nodes node).value.length).nodes other).swaTombstone) =
      fun other => decide (other = node) || (cache.nodes other).swaTombstone := funext fun other => by
    rw [evictSwa_nodes]
    split_ifs with same <;> simp [same]
  rw [strandsTombstone, reverse_filter_of_least shape.swaNodup least, strands, if_neg short, if_neg kept,
    first.strandsTombstone_eq, dims]
  rfl

private theorem strandsTombstone_deleteLeaf (deletes : Deletes cache node) :
    cache.strandsTombstone needed = true ↔ (cache.deleteLeaf cfg node).DeadLeaf (cache.nodes node).parent ∨
      (cache.deleteLeaf cfg node).strandsTombstone (needed - (cache.nodes node).value.length) = true := by
  have leaf := (shape.values_nil (.inr deletes.member)).mp deletes.leaf
  have first : Evictions cfg cache [node] _ _ := .delete deletes .nil
  have parents : ∀ other, ((cache.deleteLeaf cfg node).nodes other).parent = (cache.nodes other).parent :=
    fun other => by
    rw [deleteLeaf_nodes]
  have above := parent_inTree_deleteLeaf shape deletes.member
  rw [parents] at above
  have dead : (fun other => ((cache.deleteLeaf cfg node).nodes other).swaTombstone) = fun other =>
      (cache.nodes other).swaTombstone :=
    funext fun other => by rw [deleteLeaf_nodes]
  rw [strandsTombstone, reverse_filter_of_least shape.swaNodup least, strands, if_neg short,
    if_pos ⟨decide_eq_true deletes.unlocked, leaf⟩, first.strandsTombstone_eq, swaLru_deleteLeaf shape, dead,
    Bool.or_eq_true, DeadLeaf, (shape.deleteLeaf deletes).values_nil above, decide_eq_true_eq]
  simp only [deleteLeaf_nodes, decide_eq_true_eq]
  rfl

end

/-- The loop over the window list counts all windows, and all nodes if no tombstone loses its last leaf. -/
theorem SwaRounds.evictions {swaNumTokens : ℕ} {next : Option ℕ} {result result' : EvictResult}
    (rounds : SwaRounds cfg swaNumTokens cache next result cache' result') (shape : Shape cfg cache pos)
    (least : next = lruOf cache.swaLru cache.swaNoLock) :
    ∃ gone dimmed, Evictions cfg cache gone dimmed cache' ∧
      result'.swaNumTokensEvicted = result.swaNumTokensEvicted + cache.tokens dimmed ∧
      result'.numTokensEvicted ≤ result.numTokensEvicted + cache.tokens gone ∧
      (result'.numTokensEvicted = result.numTokensEvicted + cache.tokens gone ↔
        cache.strandsTombstone (swaNumTokens - result.swaNumTokensEvicted) = false) := by
  induction rounds with
  | @stop cache next result stopped =>
    refine ⟨[], [], .nil, rfl, le_rfl, iff_of_true rfl ?_⟩
    cases next with
    | none =>
      have none : cache.swaLru.reverse.filter cache.swaNoLock = [] :=
        filter_eq_nil_iff.mpr (find?_eq_none.mp least.symm)
      rw [strandsTombstone, none, strands]
    | some node =>
      have enough := not_lt.mp fun short => stopped node rfl ⟨short, lruOf_mem least.symm⟩
      rw [strandsTombstone, reverse_filter_of_least shape.swaNodup least.symm, strands,
        if_pos (Nat.sub_eq_zero_of_le enough)]
  | @tombstone cache cache' node result result' short mem unlocked stays _ ih =>
    have next := next_swa (.evictSwa shape mem unlocked) rfl shape least.symm
    obtain ⟨gone, dimmed, rest, swa, atMost, full⟩ := ih (shape.evictSwa mem) next
    have first : Evictions cfg cache [] [node] _ := .tombstone mem unlocked .nil
    refine ⟨gone, node :: dimmed, first.append rest, ?_, ?_, ?_⟩
    · rw [swa, tokens_cons, first.tokens_eq, Nat.add_assoc]
    · rwa [first.tokens_eq] at atMost
    · rw [strandsTombstone_evictSwa shape least.symm (Nat.sub_ne_zero_of_lt short) stays, Nat.sub_sub]
      rwa [first.tokens_eq] at full
  | @delete cache after cache' node last more result result' short mem unlocked prunes _ ih =>
    obtain ⟨above, first, counted⟩ := prunes.evictions
    have evicted := prunes.evicted shape
    obtain ⟨gone, dimmed, rest, swa, atMost, full⟩ :=
      ih evicted.shape (next_swa evicted (prunes.swaLru shape) shape least.symm)
    have alive : cache.withWindow node = [node] := if_neg (by simp [((shape.swaMember node).mp mem).2])
    rw [alive] at first
    have total : cache.tokens (node :: above ++ gone) = (cache.nodes node).value.length + more + cache.tokens gone := by
      rw [tokens_append, tokens_cons, counted]
    rw [first.tokens_eq] at atMost full
    refine ⟨_, _, first.append rest, ?_, ?_, ?_⟩
    · rw [swa, singleton_append, tokens_cons, first.tokens_eq, Nat.add_assoc]
    · rw [total]
      dsimp only at atMost
      omega
    · rw [total, ← Bool.not_eq_true, strandsTombstone_deleteLeaf shape least.symm
        (Nat.sub_ne_zero_of_lt short) prunes.deletes]
      dsimp only at atMost full
      cases prunes with
      | stop _ stays =>
        rw [Nat.add_zero, ← Nat.add_assoc, full, or_iff_right stays, Bool.not_eq_true, Nat.sub_sub]
      | @climb _ _ _ _ more deletes dead above =>
        have some : 0 < (cache.nodes (cache.nodes node).parent).value.length := by
          have mem := (shape.parent node deletes.member).resolve_left dead.2.2.1
          rw [shape.valueLength _ mem]
          exact shape.keyPos _ mem
        refine iff_of_false ?_ (not_not.mpr (.inl dead))
        omega

/-- Lost windows are given back. -/
theorem Evictions.unmapped (evictions : Evictions cfg cache gone dimmed cache') {slot : ℕ}
    (lost : cache.allocator.fullToSwa slot = 0 ∨ ∃ node ∈ dimmed, slot ∈ (cache.nodes node).value) :
    cache'.allocator.fullToSwa slot = 0 := by
  induction evictions with
  | nil =>
    rcases lost with lost | ⟨node, none, _⟩
    · exact lost
    · exact absurd none not_mem_nil
  | @delete cache cache' node gone dimmed deletes rest ih =>
    have allocator : (cache.deleteLeaf cfg node).allocator.fullToSwa slot =
        if slot ∈ (cache.nodes node).value then 0 else cache.allocator.fullToSwa slot :=
      congrArg (fun allocator : KvAllocator => allocator.fullToSwa slot) allocator_free
    apply ih
    rw [allocator]
    rcases lost with lost | ⟨other, mem, inside⟩
    · exact .inl (by rw [lost, ite_self])
    · rcases mem_append.mp mem with isNode | later
      · exact .inl (if_pos (eq_of_mem_withWindow isNode ▸ inside))
      · refine .inr ⟨other, later, ?_⟩
        rwa [deleteLeaf_nodes]
  | @tombstone cache cache' node gone dimmed mem unlocked rest ih =>
    have allocator : (cache.evictSwa cfg node (cache.nodes node).value.length).allocator.fullToSwa slot =
        if slot ∈ (cache.nodes node).value then 0 else cache.allocator.fullToSwa slot := rfl
    apply ih
    rw [allocator]
    rcases lost with lost | ⟨other, isLost, inside⟩
    · exact .inl (by rw [lost, ite_self])
    · rcases mem_cons.mp isLost with rfl | later
      · exact .inl (if_pos inside)
      · refine .inr ⟨other, later, ?_⟩
        rwa [(Evictions.tombstone mem unlocked .nil : Evictions cfg cache [] [node] _).value]

end RadixCache

namespace LockServer

open RadixCache

variable {τ : Type} [DecidableEq τ]

end LockServer

end FlashMemory
