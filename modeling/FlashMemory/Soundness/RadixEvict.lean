import FlashMemory.Collections.Tally
import FlashMemory.Soundness.RadixMatch

/-! # Evicting

`evict` deletes unlocked leaves, the tombstones that become leaves by that, and makes tombstones of nodes whose window
is not locked. The entry it looks at next was chosen before the deletions of the present round; it is still unlocked
afterwards, since deletions change no counts.

`_iteratively_delete_tombstone_leaf` and the two loops of `evict` run as long as their conditions hold. The relations
here say just that. Every round takes a node out of a list, so the bounds of the executable loops are never reached:
whenever no tombstone is locked, `evict` returns, and its rounds are those of the relations.
-/

namespace FlashMemory

open List

namespace RadixCache

variable {τ : Type} [DecidableEq τ] {cfg : RadixConfig} {cache cache' cache'' after : RadixCache τ}
  {pos pos' pos'' : ℕ → ℕ} {node last more : ℕ} {next : Option ℕ}

/-- Some evictions: unlocked leaves stay unlocked leaves, and no window is locked. -/
structure Evicted (cfg : RadixConfig) (cache : RadixCache τ) (cache' : RadixCache τ) (pos' : ℕ → ℕ) :
    Prop where
  edits : Edits cfg (cache, []) (cache', [])
  shape : Shape cfg cache' pos'
  leaves : ∀ node, cache.leafNoLock node → cache'.leafNoLock node
  windows : ∀ node, (cache'.nodes node).swaLockRef = (cache.nodes node).swaLockRef

namespace Evicted

theorem refl (shape : Shape cfg cache pos) : Evicted cfg cache cache pos :=
  ⟨.refl, shape, fun _ leaf => leaf, fun _ => rfl⟩

theorem trans (first : Evicted cfg cache cache' pos') (second : Evicted cfg cache' cache'' pos'') :
    Evicted cfg cache cache'' pos'' :=
  ⟨first.edits.trans second.edits, second.shape, fun node leaf => second.leaves node (first.leaves node leaf),
    fun node => (second.windows node).trans (first.windows node)⟩

theorem delete (shape : Shape cfg cache pos) (deletes : Deletes cache node) :
    Evicted cfg cache (cache.deleteLeaf cfg node) pos := by
  refine ⟨.single (.delete deletes), shape.deleteLeaf deletes, fun other leaf => ?_,
    fun other => by rw [deleteLeaf_nodes]⟩
  simp only [leafNoLock, deleteLeaf_nodes, decide_eq_true_eq] at leaf ⊢
  refine ⟨leaf.1, ?_⟩
  split_ifs
  · have none : (cache.nodes other).children.entries = [] := map_eq_nil_iff.mp leaf.2
    simp [OrderedDict.values, OrderedDict.pop, none]
  · exact leaf.2

theorem evictSwa (shape : Shape cfg cache pos) (mem : node ∈ cache.swaLru)
    (unlocked : (cache.nodes node).swaLockRef = 0) :
    Evicted cfg cache (cache.evictSwa cfg node (cache.nodes node).value.length) pos := by
  refine ⟨.single (.evictSwa mem unlocked), shape.evictSwa mem, fun other leaf => ?_, sameLocks_evictSwa.swa⟩
  simpa only [leafNoLock, sameLocks_evictSwa.full, sameTree_evictSwa.children] using leaf

end Evicted

theorem ensures_deleteNode {post : Unit → RadixCache τ → Prop} {fails : RadixCache τ → Prop}
    (shape : Shape cfg cache pos) (deletes : Deletes cache node) (ensured : post () (cache.deleteLeaf cfg node)) :
    Ensures (deleteNode cfg node) cache post fails := by
  have mem := deletes.member
  rw [deleteNode, ensures_bind, ensures_get]
  dsimp only
  rw [ensures_bind, ensures_assertThat ⟨mem, fun alive => (shape.swaMember node).mpr ⟨mem, alive⟩⟩,
    ensures_bind, ensures_assertThat deletes.leaf, ensures_bind, ensures_assertThat (shape.get?_parent mem)]
  exact ensured

/-! ## The loops without a bound -/

/-- The condition of the loop of `_iteratively_delete_tombstone_leaf` on the parent. -/
def DeadLeaf (cache : RadixCache τ) (node : ℕ) : Prop :=
  (cache.nodes node).swaTombstone = true ∧ (cache.nodes node).children.values = [] ∧ node ≠ rootNode ∧
    (cache.nodes node).fullLockRef = 0

/-- A leaf is deleted, and the tombstones above it up to `last` that become leaves by that, which have `more` tokens. -/
inductive Prunes (cfg : RadixConfig) : RadixCache τ → ℕ → ℕ → ℕ → RadixCache τ → Prop
  | stop {cache : RadixCache τ} {node : ℕ} : Deletes cache node →
      ¬(cache.deleteLeaf cfg node).DeadLeaf (cache.nodes node).parent →
      Prunes cfg cache node node 0 (cache.deleteLeaf cfg node)
  | climb {cache after : RadixCache τ} {node last more : ℕ} : Deletes cache node →
      (cache.deleteLeaf cfg node).DeadLeaf (cache.nodes node).parent →
      Prunes cfg (cache.deleteLeaf cfg node) (cache.nodes node).parent last more after →
      Prunes cfg cache node last ((cache.nodes (cache.nodes node).parent).value.length + more) after

/-- The rounds of the loop over the full list. -/
inductive FullRounds (cfg : RadixConfig) (numTokens : ℕ) :
    RadixCache τ → Option ℕ → EvictResult → RadixCache τ → EvictResult → Prop
  | stop {cache : RadixCache τ} {next : Option ℕ} {result : EvictResult} :
      (∀ node ∈ next, ¬(result.numTokensEvicted < numTokens ∧ node ∈ cache.fullLru)) →
      FullRounds cfg numTokens cache next result cache result
  | round {cache after cache' : RadixCache τ} {node last more : ℕ} {result result' : EvictResult} :
      result.numTokensEvicted < numTokens → Prunes cfg cache node last more after →
      FullRounds cfg numTokens after
        (if (after.nodes (after.nodes last).parent).children.values = [] then lruOf after.fullLru after.leafNoLock
          else prevOf cache.fullLru cache.leafNoLock node)
        ⟨result.numTokensEvicted + (cache.nodes node).value.length + more,
          if (cache.nodes node).swaTombstone then result.swaNumTokensEvicted
          else result.swaNumTokensEvicted + (cache.nodes node).value.length⟩ cache' result' →
      FullRounds cfg numTokens cache (some node) result cache' result'

/-- The rounds of the loop over the window list. The tokens of the tombstones that a deletion takes along are not
counted. -/
inductive SwaRounds (cfg : RadixConfig) (swaNumTokens : ℕ) :
    RadixCache τ → Option ℕ → EvictResult → RadixCache τ → EvictResult → Prop
  | stop {cache : RadixCache τ} {next : Option ℕ} {result : EvictResult} :
      (∀ node ∈ next, ¬(result.swaNumTokensEvicted < swaNumTokens ∧ node ∈ cache.swaLru)) →
      SwaRounds cfg swaNumTokens cache next result cache result
  | tombstone {cache cache' : RadixCache τ} {node : ℕ} {result result' : EvictResult} :
      result.swaNumTokensEvicted < swaNumTokens → node ∈ cache.swaLru → (cache.nodes node).swaLockRef = 0 →
      ¬Deletes cache node → SwaRounds cfg swaNumTokens (cache.evictSwa cfg node (cache.nodes node).value.length)
        (prevOf cache.swaLru cache.swaNoLock node)
        ⟨result.numTokensEvicted, result.swaNumTokensEvicted + (cache.nodes node).value.length⟩ cache' result' →
      SwaRounds cfg swaNumTokens cache (some node) result cache' result'
  | delete {cache after cache' : RadixCache τ} {node last more : ℕ} {result result' : EvictResult} :
      result.swaNumTokensEvicted < swaNumTokens → node ∈ cache.swaLru → (cache.nodes node).swaLockRef = 0 →
      Prunes cfg cache node last more after →
      SwaRounds cfg swaNumTokens after (prevOf cache.swaLru cache.swaNoLock node)
        ⟨result.numTokensEvicted + (cache.nodes node).value.length,
          result.swaNumTokensEvicted + (cache.nodes node).value.length⟩ cache' result' →
      SwaRounds cfg swaNumTokens cache (some node) result cache' result'

/-! ## Deleting upwards -/

/-- Leaving out one item. -/
theorem length_filter_ne {items : List ℕ} {item : ℕ} (nodup : items.Nodup) (mem : item ∈ items) :
    (items.filter (· ≠ item)).length + 1 = items.length := by
  rw [← (perm_cons_filter_ne nodup mem).length_eq, length_cons]

section

variable (shape : Shape cfg cache pos)

include shape

theorem Prunes.evicted (prunes : Prunes cfg cache node last more after) : Evicted cfg cache after pos := by
  induction prunes with
  | stop deletes _ => exact .delete shape deletes
  | climb deletes _ _ ih => exact (Evicted.delete shape deletes).trans (ih (shape.deleteLeaf deletes))

theorem Prunes.length_lt (prunes : Prunes cfg cache node last more after) :
    after.fullLru.length < cache.fullLru.length := by
  induction prunes with
  | stop deletes _ =>
    have shorter := length_filter_ne shape.nodup deletes.member
    exact Nat.lt_of_succ_le shorter.le
  | climb deletes _ _ ih =>
    have shorter := length_filter_ne shape.nodup deletes.member
    exact (ih (shape.deleteLeaf deletes)).trans (Nat.lt_of_succ_le shorter.le)

/-- A deletion takes the node out of the window list, if it was there. -/
theorem swaLru_deleteLeaf : (cache.deleteLeaf cfg node).swaLru = cache.swaLru.filter (· ≠ node) := by
  cases dead : (cache.nodes node).swaTombstone with
  | false => exact if_neg (by simp [dead])
  | true =>
    have absent : node ∉ cache.swaLru := fun inside => by
      have alive := ((shape.swaMember node).mp inside).2
      exact absurd (dead.symm.trans alive) Bool.noConfusion
    have same : (cache.deleteLeaf cfg node).swaLru = cache.swaLru := if_pos dead
    rw [same, filter_eq_self.mpr]
    exact fun other inside => decide_eq_true fun equal => absent (equal ▸ inside)

/-- The tombstones above are in no window list. -/
theorem Prunes.swaLru (prunes : Prunes cfg cache node last more after) :
    after.swaLru = cache.swaLru.filter (· ≠ node) := by
  induction prunes with
  | stop deletes _ => exact swaLru_deleteLeaf shape
  | @climb cache after node last more deletes dead _ ih =>
    have shape' := shape.deleteLeaf deletes
    rw [ih shape', ← swaLru_deleteLeaf shape, filter_eq_self.mpr]
    intro other inside
    have alive := ((shape'.swaMember other).mp inside).2
    refine decide_eq_true fun equal => ?_
    rw [equal, dead.1] at alive
    exact Bool.noConfusion alive

theorem parent_inTree_deleteLeaf (mem : node ∈ cache.fullLru) :
    (cache.deleteLeaf cfg node).InTree ((cache.deleteLeaf cfg node).nodes node).parent := by
  rw [deleteLeaf_nodes]
  exact (shape.parent _ mem).imp id fun old => mem_fullLru_deleteLeaf.mpr ⟨old, shape.parent_ne mem⟩

/-- `_iteratively_delete_tombstone_leaf` after the deletion of a leaf. -/
theorem ensures_prunes (sound : cache.Sound) (deletes : Deletes cache node) {fuel : ℕ}
    (enough : (cache.deleteLeaf cfg node).fullLru.length ≤ fuel) (evicted : ℕ) :
    Ensures (iterativelyDeleteTombstoneLeaf cfg fuel node evicted) (cache.deleteLeaf cfg node)
      (fun result after => ∃ more, result.2 = evicted + more ∧ Prunes cfg cache node result.1 more after)
      fun _ => False := by
  induction fuel generalizing cache node evicted with
  | zero =>
    -- nothing is left but the root
    refine ⟨0, rfl, .stop deletes fun dead => ?_⟩
    have inTree := parent_inTree_deleteLeaf shape deletes.member
    rw [deleteLeaf_nodes] at inTree
    have mem := inTree.resolve_left dead.2.2.1
    rw [eq_nil_of_length_eq_zero (Nat.le_zero.mp enough)] at mem
    exact not_mem_nil mem
  | succ fuel ih =>
    have parent : ((cache.deleteLeaf cfg node).nodes node).parent =
        (cache.nodes node).parent := by rw [deleteLeaf_nodes]
    rw [iterativelyDeleteTombstoneLeaf, ensures_bind, ensures_get]
    dsimp only
    rw [parent]
    split_ifs with dead
    · have inTree := parent_inTree_deleteLeaf shape deletes.member
      rw [parent] at inTree
      have mem := inTree.resolve_left dead.2.2.1
      have shape' := shape.deleteLeaf deletes
      have sound' : (cache.deleteLeaf cfg node).Sound := 
        (@Evicted.delete _ _ cfg cache pos _ shape deletes).edits.sound shape sound
      have deletes' : Deletes (cache.deleteLeaf cfg node) (cache.nodes node).parent := ⟨mem, dead.2.1, dead.2.2.2⟩
      rw [ensures_bind, ensures_assertThat (sound' _ mem dead.1), ensures_bind]
      apply ensures_deleteNode shape' deletes'
      have shorter := length_filter_ne shape'.nodup mem
      refine (ih shape' sound' deletes' (by exact Nat.le_of_lt_succ (shorter.trans_le enough)) _).mono ?_
        fun _ never => never
      rintro ⟨last, total⟩ after ⟨more, is, prunes⟩
      have value : ((cache.deleteLeaf cfg node).nodes (cache.nodes node).parent).value =
          (cache.nodes (cache.nodes node).parent).value := by rw [deleteLeaf_nodes]
      refine ⟨_, ?_, .climb deletes dead prunes⟩
      rw [is, value, Nat.add_assoc]
    · exact ⟨0, rfl, .stop deletes dead⟩

end

/-! ## The loops -/

theorem prevOf_spec {lru : List ℕ} {free : ℕ → Bool} {start found : ℕ} (is : prevOf lru free start = some found) :
    free found = true := find?_some is

theorem lruOf_spec {lru : List ℕ} {free : ℕ → Bool} {found : ℕ} (is : lruOf lru free = some found) :
    free found = true :=
  find?_some is

theorem FullRounds.evicted {numTokens : ℕ} {result result' : EvictResult}
    (rounds : FullRounds cfg numTokens cache next result cache' result') (shape : Shape cfg cache pos) :
    Evicted cfg cache cache' pos := by
  induction rounds with
  | stop _ => exact .refl shape
  | round _ prunes _ ih => exact (prunes.evicted shape).trans (ih (prunes.evicted shape).shape)

theorem SwaRounds.evicted {swaNumTokens : ℕ} {result result' : EvictResult}
    (rounds : SwaRounds cfg swaNumTokens cache next result cache' result') (shape : Shape cfg cache pos) :
    Evicted cfg cache cache' pos := by
  induction rounds with
  | stop _ => exact .refl shape
  | tombstone _ mem unlocked _ _ ih =>
    exact (Evicted.evictSwa shape mem unlocked).trans (ih (shape.evictSwa mem))
  | delete _ _ _ prunes _ ih => exact (prunes.evicted shape).trans (ih (prunes.evicted shape).shape)

theorem Prunes.sound (prunes : Prunes cfg cache node last more after) (shape : Shape cfg cache pos)
    (sound : cache.Sound) : after.Sound := (prunes.evicted shape).edits.sound shape sound

section

variable (shape : Shape cfg cache pos) (sound : cache.Sound)

include shape sound

/-- A leaf is deleted with the tombstones above it, as both loops do it. -/
theorem ensures_prunes_bind {α : Type} {next : ℕ × ℕ → CacheM τ α} {post : α → RadixCache τ → Prop}
    (deletes : Deletes cache node)
    (rest : ∀ last more after, Prunes cfg cache node last more after →
      Ensures (next (last, more)) after post fun _ => False) :
    Ensures (deleteNode cfg node >>= fun _ => iterativelyDeleteTombstoneLeaf cfg cache.fullLru.length node 0 >>= next)
      cache post fun _ => False := by
  rw [ensures_bind]
  apply ensures_deleteNode shape deletes
  have shorter := length_filter_ne shape.nodup deletes.member
  rw [ensures_bind]
  refine (ensures_prunes shape sound deletes (Nat.le_of_lt (Nat.lt_of_succ_le shorter.le)) 0).mono ?_
    fun _ never => never
  rintro ⟨last, total⟩ after ⟨more, is, prunes⟩
  obtain rfl : total = more := by simpa using is
  exact rest last total after prunes

private theorem ensures_fullRounds (numTokens : ℕ) {fuel : ℕ} {result : EvictResult}
    (chosen : ∀ node ∈ next, cache.leafNoLock node) (enough : cache.fullLru.length ≤ fuel) :
    Ensures (evictFullLoop cfg numTokens fuel next result) cache
      (fun result' cache' => FullRounds cfg numTokens cache next result cache' result') fun _ => False := by
  induction fuel generalizing cache next result with
  | zero =>
    refine .stop fun node _ again => ?_
    rw [eq_nil_of_length_eq_zero (Nat.le_zero.mp enough)] at again
    exact not_mem_nil again.2
  | succ fuel ih =>
    cases next with
    | none => exact .stop fun node is => absurd is (Option.not_mem_none node)
    | some node =>
      rw [evictFullLoop, ensures_bind, ensures_get]
      by_cases again : result.numTokensEvicted < numTokens ∧ node ∈ cache.fullLru
      · rw [if_pos again]
        have leaf := chosen node rfl
        simp only [leafNoLock, decide_eq_true_eq] at leaf
        have deletes : Deletes cache node := ⟨again.2, leaf.2, leaf.1⟩
        dsimp only
        rw [ensures_bind, ensures_assertThat ⟨shape.ne_root again.2, leaf.1⟩]
        apply ensures_prunes_bind shape sound deletes
        intro last more after prunes
        rw [ensures_bind, ensures_get]
        have fewer := prunes.length_lt shape
        refine (ih (prunes.evicted shape).shape (prunes.sound shape sound) ?_ (by omega)).mono ?_ fun _ never => never
        · intro other is
          split_ifs at is with bare
          · exact lruOf_spec is
          · exact (prunes.evicted shape).leaves other (prevOf_spec is)
        · exact fun result' cache' rounds => .round again.1 prunes rounds
      · rw [if_neg again]
        refine .stop fun other is => ?_
        obtain rfl := Option.some_inj.mp is
        exact again

private theorem ensures_swaRounds (swaNumTokens : ℕ) {fuel : ℕ} {result : EvictResult}
    (chosen : ∀ node ∈ next, cache.swaNoLock node) (enough : cache.swaLru.length ≤ fuel) :
    Ensures (evictSwaLoop cfg swaNumTokens fuel next result) cache
      (fun result' cache' => SwaRounds cfg swaNumTokens cache next result cache' result') fun _ => False := by
  induction fuel generalizing cache next result with
  | zero =>
    refine .stop fun node _ again => ?_
    rw [eq_nil_of_length_eq_zero (Nat.le_zero.mp enough)] at again
    exact not_mem_nil again.2
  | succ fuel ih =>
    cases next with
    | none => exact .stop fun node is => absurd is (Option.not_mem_none node)
    | some node =>
      rw [evictSwaLoop, ensures_bind, ensures_get]
      by_cases again : result.swaNumTokensEvicted < swaNumTokens ∧ node ∈ cache.swaLru
      · rw [if_pos again]
        have unlocked : (cache.nodes node).swaLockRef = 0 := by
          have free := chosen node rfl
          simpa only [swaNoLock, decide_eq_true_eq] using free
        obtain ⟨mem, alive⟩ := (shape.swaMember node).mp again.2
        have shorter := length_filter_ne shape.swaNodup again.2
        -- the next entry is still unlocked after the round, and the list is shorter
        have onward : ∀ result after, Evicted cfg cache after pos → after.swaLru = cache.swaLru.filter (· ≠ node) →
            Ensures (evictSwaLoop cfg swaNumTokens fuel (prevOf cache.swaLru cache.swaNoLock node) result) after
              (fun result' cache' => SwaRounds cfg swaNumTokens after
                (prevOf cache.swaLru cache.swaNoLock node) result cache' result') fun _ => False := by
          intro result after evicted taken
          apply ih evicted.shape (evicted.edits.sound shape sound)
          · intro other is
            have free := prevOf_spec is
            simpa only [swaNoLock, evicted.windows] using free
          · rw [taken]
            omega
        have tombstoned := @Evicted.evictSwa _ _ cfg cache pos node shape again.2 unlocked
        have intoTombstone := fun stays => (onward _ _ tombstoned rfl).mono
          (fun result' cache' rounds => SwaRounds.tombstone again.1 again.2 unlocked stays rounds) fun _ never => never
        dsimp only
        rw [ensures_bind, ensures_assertThat ⟨alive, shape.ne_root mem, unlocked⟩]
        by_cases inner : (cache.nodes node).children.values ≠ []
        · rw [if_pos inner, ensures_bind, ensures_set, ← shape.valueLength node mem]
          exact intoTombstone fun deletes => inner deletes.leaf
        · rw [if_neg inner]
          by_cases locked : 0 < (cache.nodes node).fullLockRef
          · rw [if_pos locked, ensures_bind, ensures_set]
            exact intoTombstone fun deletes => locked.ne' deletes.unlocked
          · rw [if_neg locked]
            have deletes : Deletes cache node := ⟨mem, not_not.mp inner, Nat.eq_zero_of_not_pos locked⟩
            apply ensures_prunes_bind shape sound deletes
            intro last more after prunes
            refine (onward _ after (prunes.evicted shape) (prunes.swaLru shape)).mono ?_ fun _ never => never
            exact fun result' cache' rounds => .delete again.1 again.2 unlocked prunes rounds
      · rw [if_neg again]
        refine .stop fun other is => ?_
        obtain rfl := Option.some_inj.mp is
        exact again

/-- The first half of `evict`. -/
private theorem evictFull_returns (numTokens : ℕ) :
    ∃ result cache', evictFull cfg numTokens cache = .ok result cache' ∧
      FullRounds cfg numTokens cache (lruOf cache.fullLru cache.leafNoLock) ⟨0, 0⟩ cache' result := by
  refine Ensures.returns ?_
  rw [evictFull, ensures_bind, ensures_get]
  split_ifs with some
  · exact ensures_fullRounds shape sound numTokens (fun node is => lruOf_spec is) le_rfl
  · exact .stop fun node _ again => some again.1

/-- If no tombstone is locked, `evict` returns, after the rounds of the two loops. -/
theorem evict_returns (numTokens swaNumTokens : ℕ) :
    ∃ between middle result cache', evictFull cfg numTokens cache = .ok between middle ∧
      evict cfg numTokens swaNumTokens cache = .ok result cache' ∧
      FullRounds cfg numTokens cache (lruOf cache.fullLru cache.leafNoLock) ⟨0, 0⟩ middle between ∧
      SwaRounds cfg swaNumTokens middle (lruOf middle.swaLru middle.swaNoLock) between cache' result := by
  obtain ⟨between, middle, first, rounds⟩ := @evictFull_returns _ _ cfg cache pos shape sound numTokens
  have evicted := rounds.evicted shape
  have second : Ensures (evict cfg numTokens swaNumTokens) cache (fun result cache' =>
      SwaRounds cfg swaNumTokens middle (lruOf middle.swaLru middle.swaNoLock) between cache' result)
      fun _ => False := by
    rw [evict, ensures_bind]
    simp only [Ensures, first]
    change Ensures _ middle _ _
    rw [ensures_bind, ensures_get]
    split_ifs with some
    · exact ensures_swaRounds evicted.shape (evicted.edits.sound shape sound) swaNumTokens
        (fun node is => lruOf_spec is) le_rfl
    · exact .stop fun node _ again => some again.1
  obtain ⟨result, cache', returned, rest⟩ := second.returns
  exact ⟨between, middle, result, cache', first, returned, rounds, rest⟩

/-- `evict` only edits the tree. -/
theorem ensures_evict (numTokens swaNumTokens : ℕ) :
    Ensures (evict cfg numTokens swaNumTokens) cache (fun _ cache' => Evicted cfg cache cache' pos) fun _ => False := by
  obtain ⟨_, _, _, _, _, returned, full, swa⟩ := @evict_returns _ _ cfg cache pos shape sound numTokens swaNumTokens
  rw [Ensures, returned]
  exact (full.evicted shape).trans (swa.evicted (full.evicted shape).shape)

end

end RadixCache

end FlashMemory
