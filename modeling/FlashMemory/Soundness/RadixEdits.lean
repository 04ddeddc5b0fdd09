import FlashMemory.Soundness.LruLists
import FlashMemory.Soundness.RadixReshape
import Mathlib.Logic.Relation

/-! # What the operations do to the tree

Matching, inserting and evicting are sequences of a few kinds of changes. An `Edit` is one of them, with what is
known when it happens. An insertion brings slots with it, and the second component of an edit holds those that are
neither in the tree nor freed yet; they are taken from it in whole pages. Invariants of the tree are proved once for
each kind of edit.
-/

namespace FlashMemory

open List

namespace RadixCache

variable {τ : Type} [DecidableEq τ] {cfg : RadixConfig} {cache cache' : RadixCache τ} {pos : ℕ → ℕ}
  {pending pending' slots rest : List ℕ} {before after : RadixCache τ × List ℕ}
variable {node size : ℕ}

/-- Some whole pages are taken out of the pending slots. -/
structure Taken (cfg : RadixConfig) (pending slots rest : List ℕ) : Prop where
  pieces : ∃ before after, pending = before ++ slots ++ after ∧ rest = before ++ after ∧
    cfg.pageSize ∣ before.length ∧ cfg.pageSize ∣ slots.length

/-- Other orders of the two lists, with pointers that follow them. -/
structure Reorders (cache : RadixCache τ) (full swa : List ℕ) (fullLinks swaLinks : LinkedList ℕ) : Prop where
  fullPerm : full.Perm cache.fullLru
  swaPerm : swa.Perm cache.swaLru
  fullFollows : cache.fullLinks.Represents cache.fullLru → fullLinks.Represents full
  swaFollows : cache.swaLinks.Represents cache.swaLru → swaLinks.Represents swa

/-- One change of the tree. -/
inductive Edit (cfg : RadixConfig) : RadixCache τ × List ℕ → RadixCache τ × List ℕ → Prop
  | touch {cache : RadixCache τ} {pending full swa : List ℕ} {fullLinks swaLinks : LinkedList ℕ} :
      Reorders cache full swa fullLinks swaLinks →
      Edit cfg (cache, pending)
        ({ cache with fullLru := full, swaLru := swa, fullLinks := fullLinks, swaLinks := swaLinks }, pending)
  | split {cache : RadixCache τ} {pending : List ℕ} {child k : ℕ} : Splits cfg cache child k →
      Edit cfg (cache, pending) (cache.split cfg child k, pending)
  | merge {cache : RadixCache τ} {pending : List ℕ} {node child : ℕ} :
      Merges cache node child → cache.Compactable node child →
      Edit cfg (cache, pending) (cache.merge node child, pending)
  | add {cache : RadixCache τ} {pending slots rest : List ℕ} {parent : ℕ} {key : List τ} (dead : Bool) :
      Adds cfg cache parent key slots → Taken cfg pending slots rest →
      Edit cfg (cache, pending) (cache.addNode cfg parent key slots dead, rest)
  | revive {cache : RadixCache τ} {pending slots rest : List ℕ} {node : ℕ} :
      node ∈ cache.fullLru → (cache.nodes node).swaTombstone = true →
      slots.length = (cache.nodes node).value.length → Taken cfg pending slots rest →
      Edit cfg (cache, pending) (cache.revive cfg node slots, rest)
  | free {cache : RadixCache τ} {pending slots rest : List ℕ} : Taken cfg pending slots rest →
      Edit cfg (cache, pending) (cache.free cfg slots, rest)
  | evictSwa {cache : RadixCache τ} {pending : List ℕ} {node : ℕ} :
      node ∈ cache.swaLru → (cache.nodes node).swaLockRef = 0 →
      Edit cfg (cache, pending) (cache.evictSwa cfg node (cache.nodes node).value.length, pending)
  | delete {cache : RadixCache τ} {pending : List ℕ} {node : ℕ} : Deletes cache node →
      Edit cfg (cache, pending) (cache.deleteLeaf cfg node, pending)

/-- Any number of changes. -/
abbrev Edits (cfg : RadixConfig) : RadixCache τ × List ℕ → RadixCache τ × List ℕ → Prop :=
  Relation.ReflTransGen (Edit cfg)

/-- One of the changes that a match makes: they concern the order of the lists and the borders of the nodes only. -/
inductive Reshape (cfg : RadixConfig) : RadixCache τ → RadixCache τ → Prop
  | touch {cache : RadixCache τ} {full swa : List ℕ} {fullLinks swaLinks : LinkedList ℕ} :
      Reorders cache full swa fullLinks swaLinks →
      Reshape cfg cache { cache with fullLru := full, swaLru := swa, fullLinks := fullLinks, swaLinks := swaLinks }
  | split {cache : RadixCache τ} {child k : ℕ} : Splits cfg cache child k → Reshape cfg cache (cache.split cfg child k)
  | merge {cache : RadixCache τ} {node child : ℕ} :
      Merges cache node child → cache.Compactable node child → Reshape cfg cache (cache.merge node child)

theorem Reshape.edit {cache cache' : RadixCache τ} (reshape : Reshape cfg cache cache') :
    Edit cfg (cache, []) (cache', []) := by
  cases reshape with
  | touch reorders => exact .touch reorders
  | split splits => exact .split splits
  | merge merges compactable => exact .merge merges compactable

abbrev Reshapes (cfg : RadixConfig) : RadixCache τ → RadixCache τ → Prop := Relation.ReflTransGen (Reshape cfg)

theorem Reshapes.edits {cache cache' : RadixCache τ} (reshapes : Reshapes cfg cache cache') :
    Edits cfg (cache, []) (cache', []) := reshapes.lift (·, []) fun _ _ => Reshape.edit

/-! ## The edits that leave the tree as it is -/

section

omit [DecidableEq τ]

theorem sameTree_touch {full swa : List ℕ} {fullLinks swaLinks : LinkedList ℕ} (perm : full.Perm cache.fullLru) :
    SameTree cache { cache with fullLru := full, swaLru := swa, fullLinks := fullLinks, swaLinks := swaLinks } :=
  ⟨perm, rfl, fun _ => rfl, fun _ => rfl, fun _ => rfl⟩

theorem sameTree_free : SameTree cache (cache.free cfg slots) :=
  ⟨by rw [free_fullLru], free_counter, fun _ => by rw [free_nodes], fun _ => by rw [free_nodes],
    fun _ => by rw [free_nodes]⟩

theorem revive_nodes {other : ℕ} : (cache.revive cfg node slots).nodes other =
    if other = node then { cache.nodes node with value := slots, swaTombstone := false } else cache.nodes other := by
  simp only [revive, free_nodes, Function.update_apply]

theorem sameTree_revive : SameTree cache (cache.revive cfg node slots) := by
  refine ⟨by simp [revive], by simp [revive], fun other => ?_, fun other => ?_, fun other => ?_⟩ <;>
    rw [revive_nodes] <;> split_ifs with same <;> simp only [same]

theorem evictSwa_nodes {other : ℕ} : (cache.evictSwa cfg node size).nodes other =
    if other = node then { cache.nodes node with swaTombstone := true } else cache.nodes other := by
  simp only [evictSwa, tombstone, Function.update_apply]

theorem sameTree_evictSwa : SameTree cache (cache.evictSwa cfg node size) := by
  refine ⟨List.Perm.refl _, rfl, fun other => ?_, fun other => ?_, fun other => ?_⟩ <;>
    rw [evictSwa_nodes] <;> split_ifs with same <;> simp only [same]

end

/-- The same locks and uuids on every node. -/
structure SameLocks (cache cache' : RadixCache τ) : Prop where
  full : ∀ node, (cache'.nodes node).fullLockRef = (cache.nodes node).fullLockRef
  swa : ∀ node, (cache'.nodes node).swaLockRef = (cache.nodes node).swaLockRef
  uuid : ∀ node, (cache'.nodes node).swaUuid = (cache.nodes node).swaUuid
  counter : cache'.swaUuidCounter = cache.swaUuidCounter

section

omit [DecidableEq τ]

theorem sameLocks_free : SameLocks cache (cache.free cfg slots) :=
  ⟨fun _ => by rw [free_nodes], fun _ => by rw [free_nodes], fun _ => by rw [free_nodes], free_swaUuidCounter⟩

theorem sameLocks_revive : SameLocks cache (cache.revive cfg node slots) := by
  refine ⟨fun other => ?_, fun other => ?_, fun other => ?_, by simp [revive]⟩ <;>
    rw [revive_nodes] <;> split_ifs with same <;> simp only [same]

theorem sameLocks_evictSwa : SameLocks cache (cache.evictSwa cfg node size) := by
  refine ⟨fun other => ?_, fun other => ?_, fun other => ?_, rfl⟩ <;>
    rw [evictSwa_nodes] <;> split_ifs with same <;> simp only [same]

end

namespace Shape

variable (shape : Shape cfg cache pos)
include shape

theorem touch {full swa : List ℕ} {fullLinks swaLinks : LinkedList ℕ}
    (reorders : Reorders cache full swa fullLinks swaLinks) :
    Shape cfg { cache with fullLru := full, swaLru := swa, fullLinks := fullLinks, swaLinks := swaLinks } pos :=
  (sameTree_touch reorders.fullPerm).shape shape (fun _ _ => rfl) shape.rootAlive
    (reorders.swaPerm.nodup_iff.mpr shape.swaNodup) fun node => reorders.swaPerm.mem_iff.trans (shape.swaMember node)

theorem free : Shape cfg (cache.free cfg slots) pos := by
  refine sameTree_free.shape shape (fun _ _ => ?_) ?_ ?_ fun node => ?_
  · rw [free_nodes]
  · rw [free_nodes]
    exact shape.rootAlive
  · rw [free_swaLru]
    exact shape.swaNodup
  · rw [free_swaLru, free_nodes]
    exact shape.swaMember node

theorem revive (mem : node ∈ cache.fullLru)
    (length : slots.length = (cache.nodes node).value.length) : Shape cfg (cache.revive cfg node slots) pos := by
  refine sameTree_revive.shape shape (fun other _ => ?_) ?_ ?_ fun other => ?_
  · rw [revive_nodes]
    split_ifs with same
    · rw [same]
      exact length
    · rfl
  · rw [revive_nodes, if_neg (shape.ne_root mem).symm]
    exact shape.rootAlive
  · exact insertMru_nodup shape.swaNodup
  · rw [revive_nodes]
    have was := shape.swaMember other
    simp only [RadixCache.revive, mem_insertMru]
    grind

theorem evictSwa (mem : node ∈ cache.swaLru) :
    Shape cfg (cache.evictSwa cfg node size) pos := by
  refine sameTree_evictSwa.shape shape (fun other _ => ?_) ?_ (shape.swaNodup.filter _) fun other => ?_
  · rw [evictSwa_nodes]
    split_ifs with same
    · rw [same]
    · rfl
  · rw [evictSwa_nodes, if_neg (shape.ne_root ((shape.swaMember node).mp mem).1).symm]
    exact shape.rootAlive
  · have was := shape.swaMember other
    rw [evictSwa_nodes]
    simp only [RadixCache.evictSwa, tombstone, mem_filter]
    grind

end Shape

theorem Edit.shape (edit : Edit cfg before after) (shape : Shape cfg before.1 pos) :
    ∃ pos', Shape cfg after.1 pos' := by
  cases edit with
  | touch reorders => exact ⟨_, shape.touch reorders⟩
  | split splits => exact ⟨_, shape.split splits⟩
  | merge merges _ => exact ⟨_, shape.merge merges⟩
  | add dead adds _ => exact ⟨_, shape.addNode adds⟩
  | revive mem _ length _ => exact ⟨_, shape.revive mem length⟩
  | free _ => exact ⟨_, shape.free⟩
  | evictSwa mem _ => exact ⟨_, shape.evictSwa mem⟩
  | delete deletes => exact ⟨_, shape.deleteLeaf deletes⟩

theorem Edits.shape (edits : Edits cfg before after) (shape : Shape cfg before.1 pos) :
    ∃ pos', Shape cfg after.1 pos' := by
  induction edits with
  | refl => exact ⟨pos, shape⟩
  | tail _ edit ih =>
    obtain ⟨pos', shape'⟩ := ih
    exact edit.shape shape'

/-! ## Tombstones are not locked -/

/-- No window lock is held on a tombstone. -/
def Sound (cache : RadixCache τ) : Prop :=
  ∀ node ∈ cache.fullLru, (cache.nodes node).swaTombstone = true → (cache.nodes node).swaLockRef = 0

/-- A node has no locks or those of an old one, and it is no tombstone unless that one is or has no window lock. -/
theorem Edit.refs (edit : Edit cfg before after) (shape : Shape cfg before.1 pos) (inTree : after.1.InTree node) :
    (after.1.nodes node).fullLockRef = 0 ∧ (after.1.nodes node).swaLockRef = 0 ∨
      ∃ origin, before.1.InTree origin ∧ (after.1.nodes node).fullLockRef = (before.1.nodes origin).fullLockRef ∧
        (after.1.nodes node).swaLockRef = (before.1.nodes origin).swaLockRef ∧
        ((after.1.nodes node).swaTombstone = true →
          (before.1.nodes origin).swaTombstone = true ∨ (before.1.nodes origin).swaLockRef = 0) := by
  cases edit with
  | touch reorders => exact .inr ⟨node, (sameTree_touch reorders.fullPerm).inTree.mp inTree, rfl, rfl, .inl⟩
  | @split cache pending child k splits =>
    have mem := splits.member
    by_cases new : node = cache.counter
    · rw [new, shape.split_counter splits]
      exact .inr ⟨child, .inr mem, rfl, rfl, .inl⟩
    · by_cases cut : node = child
      · rw [cut, shape.split_child splits]
        exact .inr ⟨child, .inr mem, rfl, rfl, .inl⟩
      · rw [split_other cut new]
        exact .inr ⟨node, inTree.imp id fun kept => ((mem_fullLru_split mem).mp kept).resolve_left new, rfl, rfl, .inl⟩
  | @merge cache pending parent child merges _ =>
    have old : cache.InTree node := inTree.imp id fun kept => (mem_fullLru_merge.mp kept).1
    by_cases same : node = parent
    · subst same
      rw [merge_node]
      exact .inr ⟨node, old, rfl, rfl, .inl⟩
    · rw [merge_other same]
      exact .inr ⟨node, old, rfl, rfl, .inl⟩
  | @add cache pending slots rest parent key dead adds _ =>
    by_cases new : node = cache.counter
    · rw [new, addNode_counter (shape.ne_counter adds.inTree)]
      exact .inl ⟨rfl, rfl⟩
    · rw [addNode_other new]
      exact .inr ⟨node, inTree.imp id fun kept => (mem_fullLru_addNode.mp kept).resolve_left new, rfl, rfl, .inl⟩
  | revive mem _ _ _ =>
    refine .inr
      ⟨node, sameTree_revive.inTree.mp inTree, sameLocks_revive.full node, sameLocks_revive.swa node, fun dead => ?_⟩
    rw [revive_nodes] at dead
    split_ifs at dead
    exact .inl dead
  | free _ =>
    rw [free_nodes]
    exact .inr ⟨node, sameTree_free.inTree.mp inTree, rfl, rfl, .inl⟩
  | evictSwa mem unlocked =>
    refine .inr ⟨node, sameTree_evictSwa.inTree.mp inTree, sameLocks_evictSwa.full node, sameLocks_evictSwa.swa node,
      fun dead => ?_⟩
    rw [evictSwa_nodes] at dead
    split_ifs at dead with same
    · exact .inr (same ▸ unlocked)
    · exact .inl dead
  | delete deletes =>
    rw [deleteLeaf_nodes]
    exact .inr ⟨node, inTree.imp id fun kept => (mem_fullLru_deleteLeaf.mp kept).1, rfl, rfl, .inl⟩

theorem Edit.sound (edit : Edit cfg before after) (shape : Shape cfg before.1 pos) (sound : before.1.Sound) :
    after.1.Sound := by
  intro node mem dead
  rcases edit.refs shape (.inr mem) with ⟨_, none⟩ | ⟨origin, inTree, _, swa, was⟩
  · exact none
  · rw [swa]
    rcases was dead with dead | none
    · refine sound origin (inTree.resolve_left fun root => ?_) dead
      rw [root, shape.rootAlive] at dead
      exact Bool.false_ne_true dead
    · exact none

theorem Edits.sound (edits : Edits cfg before after) (shape : Shape cfg before.1 pos) (sound : before.1.Sound) :
    after.1.Sound := by
  induction edits with
  | refl => exact sound
  | tail earlier edit ih =>
    obtain ⟨pos', shape'⟩ := Edits.shape earlier shape
    exact edit.sound shape' ih

/-! ## Living slots -/

/-- Does a node that is no tombstone have this slot? -/
def Alive (cache : RadixCache τ) (slot : ℕ) : Prop :=
  ∃ node ∈ cache.fullLru, (cache.nodes node).swaTombstone = false ∧ slot ∈ (cache.nodes node).value

theorem Taken.perm (taken : Taken cfg pending slots rest) : pending.Perm (slots ++ rest) := by
  obtain ⟨front, back, rfl, rfl, _, _⟩ := taken.pieces
  rw [← append_assoc]
  exact perm_append_comm.append_right back

theorem Taken.subset (taken : Taken cfg pending slots rest) : slots ⊆ pending ∧ rest ⊆ pending :=
  ⟨fun _ inside => taken.perm.mem_iff.mpr (mem_append_left _ inside),
    fun _ inside => taken.perm.mem_iff.mpr (mem_append_right _ inside)⟩

namespace Alive

variable {slot : ℕ}

theorem of_split {child k : ℕ} (shape : Shape cfg cache pos) (splits : Splits cfg cache child k)
    (alive : (cache.split cfg child k).Alive slot) : cache.Alive slot := by
  have mem := splits.member
  obtain ⟨node, inNew, alive⟩ := alive
  refine shape.split_cases (motive := fun node => ((cache.split cfg child k).nodes node).swaTombstone = false ∧
    slot ∈ ((cache.split cfg child k).nodes node).value → cache.Alive slot) mem ?_ ?_
      (fun node old notChild notNew => ?_) node inNew alive
  · rw [shape.split_counter splits]
    exact fun ⟨alive, inside⟩ => ⟨child, mem, alive, mem_of_mem_take inside⟩
  · rw [shape.split_child splits]
    exact fun ⟨alive, inside⟩ => ⟨child, mem, alive, mem_of_mem_drop inside⟩
  · rw [split_other notChild notNew]
    exact fun alive => ⟨node, old, alive⟩

theorem of_merge {child : ℕ} (shape : Shape cfg cache pos) (merges : Merges cache node child)
    (compactable : cache.Compactable node child) (alive : (cache.merge node child).Alive slot) : cache.Alive slot := by
  obtain ⟨other, kept, alive, inside⟩ := alive
  by_cases same : other = node
  · rw [same, merge_node] at alive inside
    rcases mem_append.mp inside with inside | inside
    · exact ⟨node, merges.member, alive, inside⟩
    · exact ⟨child, (shape.merges_child merges).1, compactable.2.2.1.trans alive, inside⟩
  · rw [merge_other same] at alive inside
    exact ⟨other, (mem_fullLru_merge.mp kept).1, alive, inside⟩

theorem of_addNode {parent : ℕ} {key : List τ} {dead : Bool} (shape : Shape cfg cache pos)
    (inTree : cache.InTree parent)
    (alive : (cache.addNode cfg parent key slots dead).Alive slot) :
    cache.Alive slot ∨ dead = false ∧ slot ∈ slots := by
  obtain ⟨node, inNew, alive⟩ := alive
  refine shape.addNode_cases
    (motive := fun node => ((cache.addNode cfg parent key slots dead).nodes node).swaTombstone = false ∧
    slot ∈ ((cache.addNode cfg parent key slots dead).nodes node).value → cache.Alive slot ∨ dead = false ∧
    slot ∈ slots) ?_ (fun node old notNew => ?_) node inNew alive
  · rw [addNode_counter (shape.ne_counter inTree)]
    exact .inr
  · rw [addNode_other notNew]
    exact fun alive => .inl ⟨node, old, alive⟩

section

omit [DecidableEq τ]

theorem of_revive (alive : (cache.revive cfg node slots).Alive slot) : cache.Alive slot ∨ slot ∈ slots := by
  obtain ⟨other, kept, alive⟩ := alive
  rw [revive_nodes] at alive
  split_ifs at alive
  · exact .inr alive.2
  · exact .inl ⟨other, sameTree_revive.mem.mp kept, alive⟩

theorem of_free (alive : (cache.free cfg slots).Alive slot) : cache.Alive slot := by
  obtain ⟨node, mem, alive⟩ := alive
  rw [free_nodes] at alive
  exact ⟨node, sameTree_free.mem.mp mem, alive⟩

private theorem of_evictSwa (alive : (cache.evictSwa cfg node size).Alive slot) : cache.Alive slot := by
  obtain ⟨other, kept, alive⟩ := alive
  rw [evictSwa_nodes] at alive
  split_ifs at alive
  · exact alive.1.elim
  · exact ⟨other, kept, alive⟩

end

private theorem of_deleteLeaf (alive : (cache.deleteLeaf cfg node).Alive slot) : cache.Alive slot := by
  obtain ⟨other, kept, alive⟩ := alive
  rw [deleteLeaf_nodes] at alive
  exact ⟨other, (mem_fullLru_deleteLeaf.mp kept).1, alive⟩

end Alive

/-- A living slot was living before, or it was pending. -/
theorem Edit.alive {before after : RadixCache τ × List ℕ} (edit : Edit cfg before after)
    (shape : Shape cfg before.1 pos)
    {slot : ℕ} (present : after.1.Alive slot ∨ slot ∈ after.2) : before.1.Alive slot ∨ slot ∈ before.2 := by
  cases edit with
  | touch reorders =>
    refine present.imp_left fun ⟨node, mem, alive⟩ => ?_
    exact ⟨node, reorders.fullPerm.mem_iff.mp mem, alive⟩
  | split splits => exact present.imp_left (.of_split shape splits)
  | merge merges compactable => exact present.imp_left (.of_merge shape merges compactable)
  | add dead adds taken =>
    rcases present with alive | left
    · exact (Alive.of_addNode shape adds.inTree alive).imp_right fun ⟨_, inside⟩ => taken.subset.1 inside
    · exact .inr (taken.subset.2 left)
  | revive mem dead length taken =>
    rcases present with alive | left
    · exact alive.of_revive.imp_right fun inside => taken.subset.1 inside
    · exact .inr (taken.subset.2 left)
  | free taken => exact present.imp .of_free fun left => taken.subset.2 left
  | evictSwa mem unlocked => exact present.imp_left .of_evictSwa
  | delete deletes => exact present.imp_left .of_deleteLeaf

theorem Edits.alive {before after : RadixCache τ × List ℕ} (edits : Edits cfg before after)
    (shape : Shape cfg before.1 pos)
    {slot : ℕ} (present : after.1.Alive slot ∨ slot ∈ after.2) : before.1.Alive slot ∨ slot ∈ before.2 := by
  induction edits with
  | refl => exact present
  | tail earlier edit ih =>
    obtain ⟨pos', shape'⟩ := Edits.shape earlier shape
    exact ih (edit.alive shape' present)

end RadixCache

end FlashMemory
