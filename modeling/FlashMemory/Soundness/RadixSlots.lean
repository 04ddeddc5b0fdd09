import FlashMemory.Model.RadixRequests
import FlashMemory.Soundness.RadixSizes
import FlashMemory.Soundness.KvPageMap

/-! # The slots of the tree

An edit moves slots between the tree, the pending slots of an insertion and the allocator, and loses none. As the slots
come in whole pages and none occurs twice, the pages that an edit frees hold no slot of the tree or of the insertion. A
node that is no tombstone keeps the window slots of all its slots.
-/

namespace FlashMemory

open List KvServer

/-! ## The allocator -/

namespace KvAllocator

variable {pageSize : ℕ} {allocator : KvAllocator} {slots : List ℕ}

variable (pagewise : allocator.Pagewise pageSize) (positive : 0 < pageSize)
  (inPages : InPages pageSize slots)
include pagewise positive inPages

/-- The window slots of whole pages are given up. -/
theorem Pagewise.freeSwa : (allocator.freeSwa pageSize slots).Pagewise pageSize := by
  refine ⟨fun slot other mapped otherMapped => ?_, fun slot mapped free => ?_⟩
  · obtain ⟨_, was, same⟩ := mapped_freeSwa mapped
    obtain ⟨_, otherWas, otherSame⟩ := mapped_freeSwa otherMapped
    rw [same, otherSame]
    exact pagewise.pages slot other was otherWas
  · obtain ⟨kept, was, same⟩ := mapped_freeSwa mapped
    rw [same] at free
    rcases KvPool.mem_pages_free.mp free with freed | free
    · obtain ⟨window, among, page⟩ := mem_map.mp freed
      obtain ⟨nonzero, other, isFreed, rfl⟩ := mem_swaIndices.mp among
      exact kept (inPages.mem_of_page positive isFreed ((pagewise.pages slot other was nonzero).mpr page.symm))
    · exact pagewise.taken slot was free

theorem Pagewise.free : (allocator.free pageSize slots).Pagewise pageSize :=
  Pagewise.freeSwa ⟨pagewise.pages, pagewise.taken⟩ positive inPages

end KvAllocator

namespace RadixCache

variable {τ : Type} [DecidableEq τ] {cfg : RadixConfig} {cache cache' : RadixCache τ} {pos : ℕ → ℕ} {node slot : ℕ}
  {pending slots rest : List ℕ} {before after : RadixCache τ × List ℕ}

/-! ## Where the slots of a node go -/

/-- How often a slot occurs in a value. -/
def countOf (slot : ℕ) (_dead : Bool) (_full _swa : ℕ) (value : List ℕ) : ℤ := value.count slot

theorem additive_countOf (slot : ℕ) : Additive (countOf slot) := by
  intro _ _ _ first second
  simp only [countOf, count_append, Int.natCast_add]

omit [DecidableEq τ] in
theorem perm_of_weigh (left right : List ℕ)
    (same : ∀ slot, (left.count slot : ℤ) + cache'.weigh (countOf slot) =
      right.count slot + cache.weigh (countOf slot)) :
    (left ++ cache'.slots).Perm (right ++ cache.slots) := by
  have counts : ∀ (cache : RadixCache τ) slot, (cache.slots.count slot : ℤ) = cache.weigh (countOf slot) :=
    fun cache slot => count_flatMap_eq_tally
  rw [perm_iff_count]
  intro slot
  have known := same slot
  rw [← counts, ← counts] at known
  rw [count_append, count_append]
  omega

theorem slots_split {child k : ℕ} (shape : Shape cfg cache pos) (splits : Splits cfg cache child k) :
    (cache.split cfg child k).slots.Perm cache.slots := by
  refine @perm_of_weigh _ cache (cache.split cfg child k) [] [] fun slot => ?_
  rw [weigh_split (additive_countOf slot) shape splits]

theorem slots_merge {child : ℕ} (shape : Shape cfg cache pos) (merges : Merges cache node child)
    (compactable : cache.Compactable node child) : (cache.merge node child).slots.Perm cache.slots := by
  refine @perm_of_weigh _ cache (cache.merge node child) [] [] fun slot => ?_
  rw [weigh_merge (additive_countOf slot) shape merges compactable]

private theorem slots_addNode {parent : ℕ} {key : List τ} {dead : Bool} (shape : Shape cfg cache pos)
    (adds : Adds cfg cache parent key slots) :
    (cache.addNode cfg parent key slots dead).slots.Perm (slots ++ cache.slots) := by
  refine @perm_of_weigh _ cache (cache.addNode cfg parent key slots dead) [] slots fun slot => ?_
  rw [weigh_addNode _ shape adds, countOf, count_nil]
  omega

omit [DecidableEq τ] in
private theorem slots_revive (nodup : cache.fullLru.Nodup) (mem : node ∈ cache.fullLru) :
    ((cache.nodes node).value ++ (cache.revive cfg node slots).slots).Perm (slots ++ cache.slots) := by
  refine perm_of_weigh _ _ fun slot => ?_
  rw [weigh_revive _ nodup mem]
  simp only [weightOf, countOf]
  omega

omit [DecidableEq τ] in
private theorem slots_evictSwa {size : ℕ} : (cache.evictSwa cfg node size).slots = cache.slots :=
  flatMap_congr fun other _ => by
    rw [evictSwa_nodes]
    split_ifs with same
    · rw [same]
    · rfl

private theorem slots_deleteLeaf (nodup : cache.fullLru.Nodup) (mem : node ∈ cache.fullLru) :
    ((cache.nodes node).value ++ (cache.deleteLeaf cfg node).slots).Perm cache.slots := by
  refine @perm_of_weigh _ cache (cache.deleteLeaf cfg node) _ [] fun slot => ?_
  rw [weigh_deleteLeaf _ nodup mem]
  simp only [weightOf, countOf, count_nil]
  omega

omit [DecidableEq τ] in
private theorem slots_free : (cache.free cfg slots).slots = cache.slots := by
  rw [RadixCache.slots, free_fullLru, free_nodes, RadixCache.slots]

omit [DecidableEq τ] in
theorem freedSlots_free : (cache.free cfg slots).freedSlots = slots ++ cache.freedSlots := by
  unfold free
  split_ifs with empty
  · rw [empty, nil_append]
  · rfl

/-! ## Conservation -/

/-- Slots of the tree, pending slots and slots that were freed. -/
def holdings (state : RadixCache τ × List ℕ) : List ℕ := state.1.slots ++ state.2 ++ state.1.freedSlots

omit [DecidableEq τ] in
/-- The tree takes some pending slots, and others leave it. -/
private theorem perm_holdings (freed moved : List ℕ) (tree : (freed ++ after.1.slots).Perm (moved ++ before.1.slots))
    (pending : before.2.Perm (moved ++ after.2)) (noted : after.1.freedSlots = freed ++ before.1.freedSlots) :
    (holdings after).Perm (holdings before) := by
  rw [perm_iff_count]
  intro slot
  have tree := tree.count_eq slot
  have pending := pending.count_eq slot
  simp only [holdings, noted, count_append] at tree pending ⊢
  omega

theorem Edit.conserves (edit : Edit cfg before after) (shape : Shape cfg before.1 pos) :
    (holdings after).Perm (holdings before) := by
  cases edit with
  | touch reorders => exact perm_holdings [] [] (reorders.fullPerm.flatMap_right _) (.refl _) rfl
  | split splits => exact perm_holdings [] [] (slots_split shape splits) (.refl _) rfl
  | merge merges compactable => exact perm_holdings [] [] (slots_merge shape merges compactable) (.refl _) rfl
  | add dead adds taken => exact perm_holdings [] _ (slots_addNode shape adds) taken.perm rfl
  | revive mem dead length taken => exact perm_holdings _ _ (slots_revive shape.nodup mem) taken.perm freedSlots_free
  | free taken => exact perm_holdings _ _ (by rw [slots_free]) taken.perm freedSlots_free
  | evictSwa mem unlocked => exact perm_holdings [] [] (by rw [slots_evictSwa]) (.refl _) rfl
  | delete deletes => exact perm_holdings _ [] (slots_deleteLeaf shape.nodup deletes.member) (.refl _) freedSlots_free

theorem Edits.conserve (edits : Edits cfg before after) (shape : Shape cfg before.1 pos) :
    (holdings after).Perm (holdings before) := by
  induction edits with
  | refl => exact .refl _
  | tail earlier edit ih =>
    obtain ⟨pos', shape'⟩ := Edits.shape earlier shape
    exact (edit.conserves shape').trans ih

/-- Freed slots are noted before the earlier ones. -/
theorem Edit.frees (edit : Edit cfg before after) : ∃ freed, after.1.freedSlots = freed ++ before.1.freedSlots := by
  cases edit with
  | touch reorders => exact ⟨[], rfl⟩
  | split splits => exact ⟨[], rfl⟩
  | merge merges compactable => exact ⟨[], rfl⟩
  | add dead adds taken => exact ⟨[], rfl⟩
  | revive mem dead length taken => exact ⟨_, freedSlots_free⟩
  | free taken => exact ⟨_, freedSlots_free⟩
  | evictSwa mem unlocked => exact ⟨[], rfl⟩
  | delete deletes => exact ⟨_, freedSlots_free⟩

theorem Edits.frees (edits : Edits cfg before after) : ∃ freed, after.1.freedSlots = freed ++ before.1.freedSlots := by
  induction edits with
  | refl => exact ⟨[], rfl⟩
  | tail earlier edit ih =>
    obtain ⟨first, isFirst⟩ := ih
    obtain ⟨second, isSecond⟩ := edit.frees
    exact ⟨second ++ first, by rw [isSecond, isFirst, append_assoc]⟩

/-! ## Pages -/

/-- The slots of the tree and the pending ones are different, in use, and in whole pages. -/
structure Stocked (cfg : RadixConfig) (state : RadixCache τ × List ℕ) : Prop where
  distinct : (state.1.slots ++ state.2).Nodup
  valuePages : ∀ node ∈ state.1.fullLru, InPages cfg.pageSize (state.1.nodes node).value
  pendingPages : InPages cfg.pageSize state.2
  inUse : ∀ slot ∈ state.1.slots ++ state.2, slot / cfg.pageSize ∉ state.1.allocator.full.pages
  pagewise : state.1.allocator.Pagewise cfg.pageSize

/-- What an edit does to the slots: some of them are freed, and some give up their windows. -/
structure Effect (cfg : RadixConfig) (before after : RadixCache τ × List ℕ) (freed released : List ℕ) : Prop where
  perm : (after.1.slots ++ after.2 ++ freed).Perm (before.1.slots ++ before.2)
  freedPages : InPages cfg.pageSize freed
  valuePages : ∀ node ∈ after.1.fullLru, InPages cfg.pageSize (after.1.nodes node).value
  pendingPages : InPages cfg.pageSize after.2
  full : ∀ number ∈ after.1.allocator.full.pages, number ∈ freed.map (· / cfg.pageSize) ∨
    number ∈ before.1.allocator.full.pages
  mapped : ∀ slot ∉ released, after.1.allocator.fullToSwa slot = before.1.allocator.fullToSwa slot
  pagewise : after.1.allocator.Pagewise cfg.pageSize
  alive : ∀ slot, after.1.Alive slot ∨ slot ∈ after.2 → (before.1.Alive slot ∨ slot ∈ before.2) ∧ slot ∉ released

omit [DecidableEq τ] in
/-- An effect keeps the slots apart from the free pages. -/
theorem Effect.stocked {freed released : List ℕ} (effect : Effect cfg before after freed released)
    (stocked : Stocked cfg before) : Stocked cfg after := by
  have distinct := effect.perm.nodup_iff.mpr stocked.distinct
  refine ⟨(nodup_append.mp distinct).1, effect.valuePages, effect.pendingPages, fun slot mem => ?_, effect.pagewise⟩
  intro free
  rcases effect.full _ free with page | free
  · obtain ⟨other, among, same⟩ := mem_map.mp page
    have inside := effect.freedPages.mem_of_page cfg.pageSize_pos among same.symm
    exact (nodup_append.mp distinct).2.2 slot mem slot inside rfl
  · exact stocked.inUse slot (effect.perm.mem_iff.mp (mem_append_left _ mem)) free

/-- The chosen slots of living nodes and the chosen pending ones have window slots. -/
def Backed (chosen : ℕ → Prop) (state : RadixCache τ × List ℕ) : Prop :=
  ∀ slot, chosen slot → state.1.Alive slot ∨ slot ∈ state.2 → state.1.allocator.fullToSwa slot ≠ 0

section

omit [DecidableEq τ]

theorem Effect.backed {freed released : List ℕ} {chosen : ℕ → Prop} (effect : Effect cfg before after freed released)
    (backed : Backed chosen before) : Backed chosen after := by
  intro slot isChosen present
  obtain ⟨was, kept⟩ := effect.alive slot present
  rw [effect.mapped slot kept]
  exact backed slot isChosen was

/-- A slot belongs to one node only. -/
theorem eq_of_shared {first second : ℕ} (distinct : cache.slots.Nodup) (isFirst : first ∈ cache.fullLru)
    (isSecond : second ∈ cache.fullLru) (inFirst : slot ∈ (cache.nodes first).value)
    (inSecond : slot ∈ (cache.nodes second).value) : first = second := by
  by_contra different
  have symmetric : Std.Symm (Function.onFun List.Disjoint fun node => (cache.nodes node).value) :=
    ⟨fun _ _ apart => apart.symm⟩
  have apart := List.Pairwise.forall (nodup_flatMap.mp distinct).2 isFirst isSecond different
  exact apart inFirst inSecond

theorem mem_slots : slot ∈ cache.slots ↔ ∃ node ∈ cache.fullLru, slot ∈ (cache.nodes node).value := mem_flatMap

theorem Alive.mem_slots (alive : cache.Alive slot) : slot ∈ cache.slots := by
  obtain ⟨node, mem, _, inside⟩ := alive
  exact RadixCache.mem_slots.mpr ⟨node, mem, inside⟩

theorem allocator_free : (cache.free cfg slots).allocator = cache.allocator.free cfg.pageSize slots := by
  unfold free
  split_ifs with empty
  · rw [empty, free_nil]
  · rfl

/-- Some slots are freed and the others stay. -/
theorem Stocked.freeing {freed : List ℕ} (stocked : Stocked cfg before)
    (allocator : after.1.allocator = before.1.allocator.free cfg.pageSize freed)
    (perm : (after.1.slots ++ after.2 ++ freed).Perm (before.1.slots ++ before.2))
    (freedPages : InPages cfg.pageSize freed)
    (valuePages : ∀ node ∈ after.1.fullLru, InPages cfg.pageSize (after.1.nodes node).value)
    (pendingPages : InPages cfg.pageSize after.2)
    (alive : ∀ slot, after.1.Alive slot ∨ slot ∈ after.2 → before.1.Alive slot ∨ slot ∈ before.2) :
    Effect cfg before after freed freed := by
  have distinct := nodup_append.mp (perm.nodup_iff.mpr stocked.distinct)
  refine ⟨perm, freedPages, valuePages, pendingPages, fun number free => ?_, fun slot kept => ?_, ?_,
    fun slot present => ?_⟩
  · rw [allocator] at free
    exact KvPool.mem_pages_free.mp free
  · rw [allocator]
    exact if_neg kept
  · rw [allocator]
    exact stocked.pagewise.free cfg.pageSize_pos freedPages
  · refine ⟨alive slot present, fun isFreed => distinct.2.2 slot ?_ slot isFreed rfl⟩
    exact mem_append.mpr (present.imp_left Alive.mem_slots)

/-- A node becomes a tombstone, and all slots stay where they are. -/
theorem Stocked.releasing (stocked : Stocked cfg (cache, pending)) (mem : node ∈ cache.fullLru)
    (allocator : cache'.allocator = cache.allocator.freeSwa cfg.pageSize (cache.nodes node).value)
    (same : cache'.fullLru = cache.fullLru) (values : ∀ other, (cache'.nodes other).value = (cache.nodes other).value)
    (tombstones : ∀ other, (cache'.nodes other).swaTombstone = false → other ≠ node ∧
      (cache.nodes other).swaTombstone = false) :
    Effect cfg (cache, pending) (cache', pending) [] (cache.nodes node).value := by
  have slots : cache'.slots = cache.slots := by
    rw [RadixCache.slots, same]
    exact flatMap_congr fun other _ => values other
  have distinct := nodup_append.mp stocked.distinct
  have living : ∀ slot, cache'.Alive slot → cache.Alive slot ∧ slot ∉ (cache.nodes node).value := by
    rintro slot ⟨other, kept, alive, inside⟩
    rw [same] at kept
    rw [values] at inside
    obtain ⟨apart, alive⟩ := tombstones other alive
    exact ⟨⟨other, kept, alive, inside⟩, fun shared => apart (eq_of_shared distinct.1 kept mem inside shared)⟩
  refine ⟨?_, .nil, fun other kept => ?_, stocked.pendingPages, fun number free => .inr ?_, fun slot kept => ?_, ?_,
    fun slot present => ?_⟩
  · rw [append_nil, slots]
  · rw [values]
    exact stocked.valuePages other (same ▸ kept)
  · rw [allocator] at free
    exact free
  · rw [allocator]
    exact if_neg kept
  · rw [allocator]
    exact stocked.pagewise.freeSwa cfg.pageSize_pos (stocked.valuePages node mem)
  · rcases present with alive | waiting
    · exact ⟨.inl (living slot alive).1, (living slot alive).2⟩
    · exact ⟨.inr waiting, fun inside => distinct.2.2 slot (mem_slots.mpr ⟨node, mem, inside⟩) slot waiting rfl⟩

end

/-- What is left of whole pages, and what was taken from them. -/
theorem Taken.inPages (taken : Taken cfg pending slots rest) (whole : InPages cfg.pageSize pending) :
    InPages cfg.pageSize slots ∧ InPages cfg.pageSize rest := by
  obtain ⟨front, back, rfl, rfl, aligned, aligned'⟩ := taken.pieces
  have aligned'' : cfg.pageSize ∣ (front ++ slots).length := by
    rw [length_append]
    exact Nat.dvd_add aligned aligned'
  have both := whole.left aligned''
  exact ⟨both.right aligned, (both.left aligned).append (whole.right aligned'')⟩

theorem Edit.effect (edit : Edit cfg before after) (shape : Shape cfg before.1 pos) (stocked : Stocked cfg before) :
    ∃ freed released, Effect cfg before after freed released := by
  have alive := fun slot => @Edit.alive _ _ cfg pos _ _ edit shape slot
  have moved : ∀ freed, after.1.freedSlots = freed ++ before.1.freedSlots →
      (after.1.slots ++ after.2 ++ freed).Perm (before.1.slots ++ before.2) := by
    intro freed noted
    have conserved := edit.conserves shape
    rw [holdings, holdings, noted, ← append_assoc] at conserved
    exact (perm_append_right_iff _).mp conserved
  cases edit with
  | touch reorders =>
    refine ⟨[], [], stocked.freeing (free_nil _).symm (moved [] rfl) .nil
      (fun node mem => ?_) stocked.pendingPages alive⟩
    exact stocked.valuePages node (reorders.fullPerm.mem_iff.mp mem)
  | split splits =>
    have mem := splits.member
    have whole := stocked.valuePages _ mem
    refine ⟨[], [], stocked.freeing (free_nil _).symm (moved [] rfl) .nil ?_ stocked.pendingPages alive⟩
    refine shape.split_cases mem ?_ ?_ fun node old notChild notNew => ?_
    · rw [shape.split_counter splits]
      exact whole.take splits.aligned
    · rw [shape.split_child splits]
      exact whole.drop splits.aligned
    · rw [split_other notChild notNew]
      exact stocked.valuePages node old
  | @merge cache pending node child merges compactable =>
    refine ⟨[], [], stocked.freeing (free_nil _).symm (moved [] rfl) .nil
      (fun other kept => ?_) stocked.pendingPages alive⟩
    have was := stocked.valuePages other (mem_fullLru_merge.mp kept).1
    by_cases same : other = node
    · rw [same] at was ⊢
      rw [merge_node]
      exact was.append (stocked.valuePages child (shape.merges_child merges).1)
    · rwa [merge_other same]
  | add dead adds taken =>
    obtain ⟨slotPages, restPages⟩ := taken.inPages stocked.pendingPages
    refine ⟨[], [], stocked.freeing (free_nil _).symm (moved [] rfl) .nil ?_ restPages alive⟩
    refine shape.addNode_cases ?_ fun node old notNew => ?_
    · rw [addNode_counter (shape.ne_counter adds.inTree)]
      exact slotPages
    · rw [addNode_other notNew]
      exact stocked.valuePages node old
  | @revive cache pending slots rest node mem dead length taken =>
    obtain ⟨slotPages, restPages⟩ := taken.inPages stocked.pendingPages
    refine ⟨_, _, stocked.freeing allocator_free (moved _ freedSlots_free) (stocked.valuePages node mem)
      (fun other kept => ?_) restPages alive⟩
    rw [revive_nodes]
    split_ifs
    · exact slotPages
    · exact stocked.valuePages other (sameTree_revive.mem.mp kept)
  | free taken =>
    obtain ⟨slotPages, restPages⟩ := taken.inPages stocked.pendingPages
    refine ⟨_, _, stocked.freeing allocator_free (moved _ freedSlots_free) slotPages
      (fun node mem => ?_) restPages alive⟩
    rw [free_nodes]
    exact stocked.valuePages node (sameTree_free.mem.mp mem)
  | @evictSwa cache pending node mem unlocked =>
    refine ⟨[], _, stocked.releasing ((shape.swaMember node).mp mem).1 rfl rfl (fun other => ?_) fun other alive => ?_⟩
    · rw [evictSwa_nodes]
      split_ifs with same
      · rw [same]
      · rfl
    · rw [evictSwa_nodes] at alive
      split_ifs at alive with same
      exact ⟨same, alive⟩
  | @delete cache pending node deletes =>
    refine ⟨_, _, stocked.freeing allocator_free (moved _ freedSlots_free) (stocked.valuePages node deletes.member)
      (fun other kept => ?_) stocked.pendingPages alive⟩
    rw [deleteLeaf_nodes]
    exact stocked.valuePages other (mem_fullLru_deleteLeaf.mp kept).1

/-- Edits keep the slots of the tree in order, with the windows of the living ones. -/
theorem Edits.stocked {chosen : ℕ → Prop} (edits : Edits cfg before after) (shape : Shape cfg before.1 pos)
    (stocked : Stocked cfg before) (backed : Backed chosen before) : Stocked cfg after ∧ Backed chosen after := by
  induction edits with
  | refl => exact ⟨stocked, backed⟩
  | tail earlier edit ih =>
    obtain ⟨pos', shape'⟩ := Edits.shape earlier shape
    obtain ⟨freed, released, effect⟩ := edit.effect shape' ih.1
    exact ⟨effect.stocked ih.1, effect.backed ih.2⟩

end RadixCache

end FlashMemory
