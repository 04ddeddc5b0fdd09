import FlashMemory.Collections.Tally
import FlashMemory.Soundness.RadixEdits

/-! # Sizes and lists of the radix tree

The four sizes are totals of the lengths of the node values, taken over the nodes with certain locks. A total is
followed through every kind of edit; so are the pointers of the two lists. A leaf that is deleted is not locked, so the
window that goes with it was counted as evictable: that is where the window locks must be at most the full locks.
-/

namespace FlashMemory

open List

namespace RadixCache

variable {τ : Type} [DecidableEq τ] {cfg : RadixConfig} {cache : RadixCache τ} {pos : ℕ → ℕ} {node child k : ℕ}
  {which : Bool → ℕ → ℕ → Bool} {slots : List ℕ}

/-- What a node contributes, if its tombstone flag and its locks are chosen. -/
def share (which : Bool → ℕ → ℕ → Bool) (entry : TreeNode τ) : ℤ :=
  if which entry.swaTombstone entry.fullLockRef entry.swaLockRef then entry.value.length else 0

/-- The total length of the values of the chosen nodes. -/
def total (cache : RadixCache τ) (which : Bool → ℕ → ℕ → Bool) : ℤ :=
  tally (fun node => share which (cache.nodes node)) cache.fullLru

/-- `full_evictable_size_` and its companions are what they stand for. -/
structure Booked (cache : RadixCache τ) : Prop where
  fullEvictable : cache.fullEvictableSize = cache.total fun _ full _ => full = 0
  fullProtected : cache.fullProtectedSize = cache.total fun _ full _ => 0 < full
  swaEvictable : cache.swaEvictableSize = cache.total fun dead _ swa => dead = false ∧ swa = 0
  swaProtected : cache.swaProtectedSize = cache.total fun dead _ swa => dead = false ∧ 0 < swa

/-- The pointers of the two lists follow their sequences. -/
structure Linked (cache : RadixCache τ) : Prop where
  full : cache.fullLinks.Represents cache.fullLru
  swa : cache.swaLinks.Represents cache.swaLru

/-! ## Weights -/

section Weights

variable (weight : Bool → ℕ → ℕ → List ℕ → ℤ)

/-- The weight of a node, which depends on its tombstone flag, its locks and its value. -/
def weightOf (weight : Bool → ℕ → ℕ → List ℕ → ℤ) (entry : TreeNode τ) : ℤ :=
  weight entry.swaTombstone entry.fullLockRef entry.swaLockRef entry.value

/-- The total weight of the nodes. -/
def weigh (cache : RadixCache τ) (weight : Bool → ℕ → ℕ → List ℕ → ℤ) : ℤ :=
  tally (fun node => weightOf weight (cache.nodes node)) cache.fullLru

/-- Two parts of a value weigh as much as the whole. -/
def Additive (weight : Bool → ℕ → ℕ → List ℕ → ℤ) : Prop :=
  ∀ dead full swa first second, weight dead full swa (first ++ second) =
    weight dead full swa first + weight dead full swa second

omit [DecidableEq τ] in
/-- One record has changed, apart from what a weight does not read. -/
theorem weigh_change {cache' : RadixCache τ} (nodup : cache.fullLru.Nodup) (mem : node ∈ cache.fullLru)
    (same : cache'.fullLru = cache.fullLru)
    (others : ∀ other ∈ cache.fullLru, other ≠ node →
      weightOf weight (cache'.nodes other) = weightOf weight (cache.nodes other)) :
    cache'.weigh weight = cache.weigh weight - weightOf weight (cache.nodes node) + weightOf weight
      (cache'.nodes node) := by
  rw [weigh, weigh, same]
  exact tally_change nodup mem others

theorem weigh_split {weight : Bool → ℕ → ℕ → List ℕ → ℤ} (additive : Additive weight) (shape : Shape cfg cache pos)
    (splits : Splits cfg cache child k) : (cache.split cfg child k).weigh weight = cache.weigh weight := by
  have mem := splits.member
  have fresh := shape.counter_not_mem
  have isNew := shape.split_counter splits
  have isChild := shape.split_child splits
  have distinct : (cache.counter :: cache.fullLru).Nodup := nodup_cons.mpr ⟨fresh, shape.nodup⟩
  have perm : (cache.split cfg child k).fullLru.Perm (cache.counter :: cache.fullLru) := by
    refine (perm_ext_iff_of_nodup (shape.split splits).nodup distinct).mpr fun other => ?_
    rw [mem_fullLru_split mem, mem_cons]
  have others : ∀ other ∈ cache.fullLru, other ≠ child →
      weightOf weight ((cache.split cfg child k).nodes other) = weightOf weight (cache.nodes other) := by
    intro other old notChild
    rw [split_other notChild (shape.ne_counter (.inr old))]
    rfl
  have parts := additive (cache.nodes child).swaTombstone (cache.nodes child).fullLockRef (cache.nodes child).swaLockRef
    ((cache.nodes child).value.take k) ((cache.nodes child).value.drop k)
  rw [take_append_drop] at parts
  rw [weigh, weigh, tally_perm perm, tally_cons, tally_change shape.nodup mem others, isNew, isChild]
  simp only [weightOf]
  omega

theorem weigh_merge {weight : Bool → ℕ → ℕ → List ℕ → ℤ} (additive : Additive weight) (shape : Shape cfg cache pos)
    (merges : Merges cache node child)
    (compactable : cache.Compactable node child) : (cache.merge node child).weigh weight = cache.weigh weight := by
  obtain ⟨mem, below⟩ := shape.merges_child merges
  obtain ⟨_, _, dead, full, swa⟩ := compactable
  have others : ∀ other ∈ cache.fullLru, other ≠ node →
      weightOf weight ((cache.merge node child).nodes other) = weightOf weight (cache.nodes other) := by
    intro other _ notNode
    rw [merge_other notNode]
    rfl
  have apart : child ≠ node := fun same => shape.parent_ne mem (below.trans same.symm)
  have lower := others child mem apart
  have filtered : (cache.merge node child).fullLru = cache.fullLru.filter (· ≠ child) := rfl
  rw [weigh, weigh, filtered, tally_filter_ne shape.nodup mem, tally_change shape.nodup merges.member others, lower,
    merge_node]
  simp only [weightOf, dead, full, swa, additive _ _ _ (cache.nodes node).value]
  omega

theorem weigh_addNode {parent : ℕ} {key : List τ} {dead : Bool} (shape : Shape cfg cache pos)
    (adds : Adds cfg cache parent key slots) :
    (cache.addNode cfg parent key slots dead).weigh weight = cache.weigh weight + weight dead 0 0 slots := by
  have fresh := shape.counter_not_mem
  have front : (cache.addNode cfg parent key slots dead).fullLru.Perm (cache.counter :: cache.fullLru) := by
    refine (perm_ext_iff_of_nodup (shape.addNode adds).nodup (nodup_cons.mpr ⟨fresh, shape.nodup⟩)).mpr fun other => ?_
    rw [mem_fullLru_addNode, mem_cons]
  have others : ∀ other ∈ cache.fullLru,
      weightOf weight ((cache.addNode cfg parent key slots dead).nodes other) = weightOf weight
        (cache.nodes other) := by
    intro other old
    rw [addNode_other (shape.ne_counter (.inr old))]
    rfl
  rw [weigh, weigh, tally_perm front, tally_cons, tally_congr others, addNode_counter (shape.ne_counter adds.inTree)]
  simp only [weightOf]
  omega

omit [DecidableEq τ] in
theorem weigh_free : (cache.free cfg slots).weigh weight = cache.weigh weight := by
  rw [weigh, weigh, free_fullLru, free_nodes]

section

variable (nodup : cache.fullLru.Nodup) (mem : node ∈ cache.fullLru)

include nodup mem

omit [DecidableEq τ] in
theorem weigh_revive :
    (cache.revive cfg node slots).weigh weight = cache.weigh weight - weightOf weight (cache.nodes node) +
      weightOf weight { cache.nodes node with value := slots, swaTombstone := false } := by
  have same : (cache.revive cfg node slots).fullLru = cache.fullLru := by simp [revive]
  have changed := @weigh_change _ cache node weight (cache.revive cfg node slots) nodup mem same fun other _ away => by
    rw [revive_nodes, if_neg away]
  rwa [revive_nodes, if_pos rfl] at changed

omit [DecidableEq τ] in
theorem weigh_evictSwa {size : ℕ} :
    (cache.evictSwa cfg node size).weigh weight = cache.weigh weight - weightOf weight (cache.nodes node) +
      weightOf weight { cache.nodes node with swaTombstone := true } := by
  have changed := @weigh_change _ cache node weight (cache.evictSwa cfg node size) nodup mem rfl fun other _ away => by
    rw [evictSwa_nodes, if_neg away]
  rwa [evictSwa_nodes, if_pos rfl] at changed

theorem weigh_deleteLeaf :
    (cache.deleteLeaf cfg node).weigh weight = cache.weigh weight - weightOf weight (cache.nodes node) := by
  have same : ∀ other, weightOf weight ((cache.deleteLeaf cfg node).nodes other) = weightOf weight
      (cache.nodes other) := by
    intro other
    rw [deleteLeaf_nodes]
    rfl
  have filtered : (cache.deleteLeaf cfg node).fullLru = cache.fullLru.filter (· ≠ node) := rfl
  rw [weigh, weigh, filtered, tally_filter_ne nodup mem, tally_congr fun other _ => same other, same]

end

end Weights

/-! ## Totals -/

/-- The length of a value, if its node is chosen. -/
def lengthIf (which : Bool → ℕ → ℕ → Bool) (dead : Bool) (full swa : ℕ) (value : List ℕ) : ℤ :=
  if which dead full swa then value.length else 0

theorem additive_lengthIf : Additive (lengthIf which) := by
  intro dead full swa first second
  simp only [lengthIf, length_append]
  split_ifs
  · omega
  · rfl

omit [DecidableEq τ] in
theorem total_perm {cache' : RadixCache τ} (perm : cache'.fullLru.Perm cache.fullLru)
    (same : ∀ other ∈ cache.fullLru, share which (cache'.nodes other) = share which (cache.nodes other)) :
    cache'.total which = cache.total which := by
  unfold total
  rw [tally_perm perm]
  exact tally_congr same

/-! ## The edits -/

/-- A node has at most as many window locks as full locks. -/
def Covered (cache : RadixCache τ) : Prop :=
  ∀ node, cache.InTree node → (cache.nodes node).swaLockRef ≤ (cache.nodes node).fullLockRef

variable {before after : RadixCache τ × List ℕ}

theorem Edit.covered (edit : Edit cfg before after) (shape : Shape cfg before.1 pos) (covered : before.1.Covered) :
    after.1.Covered := by
  intro node inTree
  rcases edit.refs shape inTree with ⟨full, swa⟩ | ⟨origin, inTree, full, swa, _⟩
  · rw [full, swa]
  · rw [full, swa]
    exact covered origin inTree

omit [DecidableEq τ] in
theorem free_sizes : (cache.free cfg slots).fullEvictableSize = cache.fullEvictableSize ∧
    (cache.free cfg slots).fullProtectedSize = cache.fullProtectedSize ∧
    (cache.free cfg slots).swaEvictableSize = cache.swaEvictableSize ∧
    (cache.free cfg slots).swaProtectedSize = cache.swaProtectedSize := by
  unfold free
  split_ifs <;> exact ⟨rfl, rfl, rfl, rfl⟩

omit [DecidableEq τ] in
theorem Booked.congr {cache' : RadixCache τ} (booked : Booked cache)
    (totals : ∀ which, cache'.total which = cache.total which)
    (sizes : cache'.fullEvictableSize = cache.fullEvictableSize ∧ cache'.fullProtectedSize = cache.fullProtectedSize ∧
      cache'.swaEvictableSize = cache.swaEvictableSize ∧ cache'.swaProtectedSize = cache.swaProtectedSize) :
    Booked cache' where
  fullEvictable := by rw [sizes.1, totals, booked.fullEvictable]
  fullProtected := by rw [sizes.2.1, totals, booked.fullProtected]
  swaEvictable := by rw [sizes.2.2.1, totals, booked.swaEvictable]
  swaProtected := by rw [sizes.2.2.2, totals, booked.swaProtected]

theorem Booked.addNode {parent : ℕ} {key : List τ} {dead : Bool} (booked : Booked cache) (shape : Shape cfg cache pos)
    (adds : Adds cfg cache parent key slots) : Booked (cache.addNode cfg parent key slots dead) := by
  have totals : ∀ which, (cache.addNode cfg parent key slots dead).total which =
      cache.total which + if which dead 0 0 then (slots.length : ℤ) else 0 :=
      fun which => weigh_addNode (lengthIf which) shape adds
  obtain ⟨fullEvictable, fullProtected, swaEvictable, swaProtected⟩ := booked
  constructor <;> rw [totals] <;> simp only [RadixCache.addNode]
  · simp [fullEvictable]
  · simp [fullProtected]
  · cases dead <;> simp [swaEvictable]
  · simp [swaProtected]

section

variable (booked : Booked cache) (nodup : cache.fullLru.Nodup) (mem : node ∈ cache.fullLru)
include booked nodup mem

omit [DecidableEq τ]

/-- An unlocked tombstone is alive again. -/
theorem Booked.revive
    (dead : (cache.nodes node).swaTombstone = true) (unlocked : (cache.nodes node).swaLockRef = 0)
    (length : slots.length = (cache.nodes node).value.length) : Booked (cache.revive cfg node slots) := by
  have totals : ∀ which, (cache.revive cfg node slots).total which =
      cache.total which - share which (cache.nodes node) + share which
      { cache.nodes node with value := slots, swaTombstone := false } :=
      fun which => weigh_revive (lengthIf which) nodup mem
  obtain ⟨evictable, isProtected, _, swaProtected⟩ := @free_sizes _ cfg cache (cache.nodes node).value
  obtain ⟨fullEvictable, fullProtected, swaEvictable, windows⟩ := booked
  constructor <;> rw [totals] <;> simp only [RadixCache.revive]
  · rw [evictable, fullEvictable]
    simp [share, length]
  · rw [isProtected, fullProtected]
    simp [share, length]
  · rw [swaEvictable]
    simp [share, dead, unlocked]
  · rw [swaProtected, windows]
    simp [share, dead, unlocked]

theorem Booked.evictSwa
    (alive : (cache.nodes node).swaTombstone = false) (unlocked : (cache.nodes node).swaLockRef = 0) :
    Booked (cache.evictSwa cfg node (cache.nodes node).value.length) := by
  have totals : ∀ which, (cache.evictSwa cfg node (cache.nodes node).value.length).total which =
      cache.total which - share which (cache.nodes node) + share which { cache.nodes node with swaTombstone := true } :=
    fun which => weigh_evictSwa (lengthIf which) nodup mem
  obtain ⟨fullEvictable, fullProtected, swaEvictable, swaProtected⟩ := booked
  constructor <;> rw [totals] <;> simp only [RadixCache.evictSwa, tombstone, freeSwa]
  · simp [share, fullEvictable]
  · simp [share, fullProtected]
  · simp [share, alive, unlocked, swaEvictable]
  · simp [share, unlocked, swaProtected]

end

/-- A leaf without any lock is deleted. -/
theorem Booked.deleteLeaf (booked : Booked cache) (shape : Shape cfg cache pos) (mem : node ∈ cache.fullLru)
    (unlocked : (cache.nodes node).fullLockRef = 0) (window : (cache.nodes node).swaLockRef = 0) :
    Booked (cache.deleteLeaf cfg node) := by
  have totals : ∀ which, (cache.deleteLeaf cfg node).total which = cache.total which - share which (cache.nodes node) :=
    fun which => weigh_deleteLeaf (lengthIf which) shape.nodup mem
  have length := shape.valueLength node mem
  obtain ⟨_, isProtected, _, swaProtected⟩ := @free_sizes _ cfg cache (cache.nodes node).value
  obtain ⟨fullEvictable, fullProtected, swaEvictable, windows⟩ := booked
  constructor <;> rw [totals] <;> simp only [RadixCache.deleteLeaf]
  · simp [share, unlocked, length, fullEvictable]
  · rw [isProtected, fullProtected]
    simp [share, unlocked]
  · cases dead : (cache.nodes node).swaTombstone <;> simp [share, dead, window, length, swaEvictable]
  · rw [swaProtected, windows]
    simp [share, window]

theorem Edit.booked (edit : Edit cfg before after) (shape : Shape cfg before.1 pos) (sound : before.1.Sound)
    (covered : before.1.Covered) (booked : Booked before.1) : Booked after.1 := by
  cases edit with
  | touch reorders => exact booked.congr (fun which => total_perm reorders.fullPerm fun _ _ => rfl) ⟨rfl, rfl, rfl, rfl⟩
  | split splits => exact booked.congr (fun which => weigh_split additive_lengthIf shape splits) ⟨rfl, rfl, rfl, rfl⟩
  | merge merges compactable =>
    exact booked.congr (fun which => weigh_merge additive_lengthIf shape merges compactable) ⟨rfl, rfl, rfl, rfl⟩
  | add dead adds _ => exact booked.addNode shape adds
  | revive mem dead length _ => exact booked.revive shape.nodup mem dead (sound _ mem dead) length
  | free _ => exact booked.congr (fun which => weigh_free (lengthIf which)) free_sizes
  | evictSwa mem unlocked =>
    obtain ⟨inTree, alive⟩ := (shape.swaMember _).mp mem
    exact booked.evictSwa shape.nodup inTree alive unlocked
  | delete deletes =>
    have window := covered _ (.inr deletes.member)
    rw [deletes.unlocked] at window
    exact booked.deleteLeaf shape deletes.member deletes.unlocked (Nat.le_zero.mp window)

omit [DecidableEq τ] in
private theorem free_links : (cache.free cfg slots).fullLinks = cache.fullLinks ∧
    (cache.free cfg slots).swaLinks = cache.swaLinks := by
  unfold free
  split_ifs <;> exact ⟨rfl, rfl⟩

theorem Edit.linked (edit : Edit cfg before after) (shape : Shape cfg before.1 pos) (linked : Linked before.1) :
    Linked after.1 := by
  cases edit with
  | touch reorders => exact ⟨reorders.fullFollows linked.full, reorders.swaFollows linked.swa⟩
  | @split cache pending child k splits =>
    have mem := splits.member
    have ne := shape.ne_counter (.inr mem)
    refine ⟨?_, ?_⟩ <;> simp only [RadixCache.split]
    · have removed := linked.full.removeNode mem
      refine (removed.insertMru ?_).insertMru ?_
      · exact fun inside => shape.counter_not_mem (mem_of_mem_filter inside)
      · simp [mem_insertMru, ne]
    · split_ifs with dead
      · exact linked.swa
      · have alive := (shape.swaMember child).mpr ⟨mem, by simpa using dead⟩
        have removed := linked.swa.removeNode alive
        refine (removed.insertMru ?_).insertMru ?_
        · exact fun inside => shape.counter_not_mem_swa (mem_of_mem_filter inside)
        · simp [mem_insertMru, ne]
  | @merge cache pending node child merges _ =>
    have mem := (shape.merges_child merges).1
    refine ⟨linked.full.removeNode mem, ?_⟩
    simp only [RadixCache.merge]
    split_ifs with dead
    · exact linked.swa
    · exact linked.swa.removeNode ((shape.swaMember child).mpr ⟨mem, by simpa using dead⟩)
  | add dead adds _ =>
    refine ⟨linked.full.insertMru shape.counter_not_mem, ?_⟩
    simp only [RadixCache.addNode]
    split_ifs
    · exact linked.swa
    · exact linked.swa.insertMru shape.counter_not_mem_swa
  | @revive cache pending slots rest node mem dead _ _ =>
    have absent : node ∉ cache.swaLru := fun inside =>
      absurd ((shape.swaMember node).mp inside).2 (by rw [dead]; exact Bool.noConfusion)
    refine ⟨?_, linked.swa.insertMru absent⟩
    simp only [RadixCache.revive, free_links.1, free_fullLru]
    exact linked.full
  | free _ =>
    refine ⟨?_, ?_⟩
    · rw [free_links.1, free_fullLru]
      exact linked.full
    · rw [free_links.2, free_swaLru]
      exact linked.swa
  | evictSwa mem _ => exact ⟨linked.full, linked.swa.removeNode mem⟩
  | @delete cache pending node deletes =>
    refine ⟨linked.full.removeNode deletes.member, ?_⟩
    simp only [RadixCache.deleteLeaf]
    split_ifs with dead
    · exact linked.swa
    · exact linked.swa.removeNode ((shape.swaMember node).mpr ⟨deletes.member, by simpa using dead⟩)

/-- What the totals need, with the totals and the lists. -/
structure Accounted (cache : RadixCache τ) : Prop where
  sound : cache.Sound
  covered : cache.Covered
  booked : Booked cache
  linked : Linked cache

theorem Edits.accounted (edits : Edits cfg before after) (shape : Shape cfg before.1 pos)
    (accounted : Accounted before.1) : Accounted after.1 := by
  induction edits with
  | refl => exact accounted
  | tail earlier edit ih =>
    obtain ⟨pos', shape'⟩ := Edits.shape earlier shape
    exact ⟨edit.sound shape' ih.sound, edit.covered shape' ih.covered, edit.booked shape' ih.sound ih.covered ih.booked,
      edit.linked shape' ih.linked⟩

end RadixCache

end FlashMemory
