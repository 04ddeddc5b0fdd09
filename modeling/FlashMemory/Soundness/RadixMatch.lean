import FlashMemory.Soundness.RadixEdits

/-! # Matching a prefix

`match_prefix` goes down from the root along the key. On its way it merges chains of only children and splits the
node in which the key leaves the tree. It never raises, it only edits the tree, and the nodes from the root to the
one that it returns spell the key up to there. The window above the returned node has no tombstone, and no node
further along the key is such.
-/

namespace FlashMemory

open List RadixCache MatchProgress Option

variable {τ : Type} [DecidableEq τ] {cfg : RadixConfig}

/-! ## Comparing keys -/

section Keys

variable {pageSize fuel : ℕ} {key0 key1 : List τ}

theorem dvd_keyMatchLoop : pageSize ∣ keyMatchLoop pageSize fuel key0 key1 := by
  induction fuel generalizing key0 key1 with
  | zero => exact Nat.dvd_zero _
  | succ fuel ih =>
    rw [keyMatchLoop]
    split_ifs
    · exact Nat.dvd_add (Nat.dvd_refl _) ih
    · exact Nat.dvd_zero _

theorem take_keyMatchLoop :
    key0.take (keyMatchLoop pageSize fuel key0 key1) = key1.take (keyMatchLoop pageSize fuel key0 key1) := by
  induction fuel generalizing key0 key1 with
  | zero => rw [keyMatchLoop, take_zero, take_zero]
  | succ fuel ih =>
    rw [keyMatchLoop]
    split_ifs with agree
    · rw [take_add, take_add, agree.2.2, ih]
    · rw [take_zero, take_zero]

theorem keyMatchLoop_le (aligned : pageSize ∣ key0.length) : keyMatchLoop pageSize fuel key0 key1 ≤ key0.length := by
  induction fuel generalizing key0 key1 with
  | zero => exact Nat.zero_le _
  | succ fuel ih =>
    rw [keyMatchLoop]
    split_ifs with agree
    · have page : pageSize ≤ key0.length := Nat.le_of_dvd (length_pos_iff.mpr agree.1) aligned
      have rest := @ih (key0.drop pageSize) (key1.drop pageSize)
        (by rw [length_drop]; exact Nat.dvd_sub aligned (Nat.dvd_refl _))
      rw [length_drop] at rest
      omega
    · exact Nat.zero_le _

private theorem keyMatchLoop_comm : keyMatchLoop pageSize fuel key0 key1 = keyMatchLoop pageSize fuel key1 key0 := by
  induction fuel generalizing key0 key1 with
  | zero => rfl
  | succ fuel ih =>
    rw [keyMatchLoop, keyMatchLoop, ih]
    grind

theorem keyMatch_comm : keyMatch cfg key0 key1 = keyMatch cfg key1 key0 := by
  rw [keyMatch, keyMatch, min_comm, keyMatchLoop_comm]

/-- Keys with the same first page agree at least there. -/
theorem pageSize_le_keyMatch (nonempty0 : key0 ≠ []) (nonempty1 : key1 ≠ [])
    (first : childKey cfg key0 = childKey cfg key1) : cfg.pageSize ≤ keyMatch cfg key0 key1 := by
  have positive : 0 < min key0.length key1.length :=
    lt_min (length_pos_iff.mpr nonempty0) (length_pos_iff.mpr nonempty1)
  obtain ⟨fuel, enough⟩ := Nat.exists_eq_succ_of_ne_zero positive.ne'
  rw [keyMatch, enough, keyMatchLoop, if_pos ⟨nonempty0, nonempty1, first⟩]
  exact Nat.le_add_right ..

/-- The comparison ends with one of the keys, or before two pages that differ. -/
theorem keyMatchLoop_stops (page : 0 < pageSize) (enough : min key0.length key1.length ≤ fuel) :
    key0.drop (keyMatchLoop pageSize fuel key0 key1) = [] ∨ key1.drop (keyMatchLoop pageSize fuel key0 key1) = [] ∨
      (key0.drop (keyMatchLoop pageSize fuel key0 key1)).take pageSize ≠
        (key1.drop (keyMatchLoop pageSize fuel key0 key1)).take pageSize := by
  induction fuel generalizing key0 key1 with
  | zero =>
    rw [keyMatchLoop, drop_zero, drop_zero, ← length_eq_zero_iff, ← length_eq_zero_iff]
    omega
  | succ fuel ih =>
    rw [keyMatchLoop]
    split_ifs with agree
    · rw [← drop_drop, ← drop_drop]
      apply ih
      rw [length_drop, length_drop]
      have := length_pos_iff.mpr agree.1
      have := length_pos_iff.mpr agree.2.1
      omega
    · rw [drop_zero, drop_zero]
      tauto

end Keys

/-! ## What a change leaves alone -/

namespace RadixCache

variable {cache cache' cache'' : RadixCache τ} {pos pos' pos'' : ℕ → ℕ} {node child k : ℕ}

/-- The path of a node is as before, with the same keys, slots and tombstones. -/
structure Keeps (cache : RadixCache τ) (pos : ℕ → ℕ) (cache' : RadixCache τ) (pos' : ℕ → ℕ) (node : ℕ) : Prop where
  inTree : cache'.InTree node
  path : cache'.path node = cache.path node
  nodes : ∀ entry ∈ cache.path node, ∃ children, cache'.nodes entry = { cache.nodes entry with children := children }
  here : pos' node = pos node
  above : ∀ entry ∈ cache.path node, pos' entry = pos entry ∧
    pos' (cache.nodes entry).parent = pos (cache.nodes entry).parent

namespace Keeps

omit [DecidableEq τ]

theorem refl (inTree : cache.InTree node) : Keeps cache pos cache pos node :=
  ⟨inTree, rfl, fun entry _ => ⟨(cache.nodes entry).children, rfl⟩, rfl, fun _ _ => ⟨rfl, rfl⟩⟩

theorem trans (first : Keeps cache pos cache' pos' node) (second : Keeps cache' pos' cache'' pos'' node) :
    Keeps cache pos cache'' pos'' node where
  inTree := second.inTree
  path := second.path.trans first.path
  nodes := fun entry passed => by
    obtain ⟨children, same⟩ := first.nodes entry passed
    obtain ⟨children', same'⟩ := second.nodes entry (first.path ▸ passed)
    exact ⟨children', by rw [same', same]⟩
  here := second.here.trans first.here
  above := fun entry passed => by
    obtain ⟨children, same⟩ := first.nodes entry passed
    have again := second.above entry (first.path ▸ passed)
    rw [same] at again
    exact ⟨again.1.trans (first.above entry passed).1, again.2.trans (first.above entry passed).2⟩

theorem symm (keeps : Keeps cache pos cache' pos' node) (inTree : cache.InTree node) :
    Keeps cache' pos' cache pos node where
  inTree := inTree
  path := keeps.path.symm
  nodes := fun entry passed => by
    obtain ⟨children, same⟩ := keeps.nodes entry (keeps.path ▸ passed)
    exact ⟨(cache.nodes entry).children, by rw [same]⟩
  here := keeps.here.symm
  above := fun entry passed => by
    rw [keeps.path] at passed
    obtain ⟨children, same⟩ := keeps.nodes entry passed
    rw [same]
    exact ⟨(keeps.above entry passed).1.symm, (keeps.above entry passed).2.symm⟩

end Keeps

namespace Shape

/-- A walk that does not pass a node is not changed when the node is split. -/
theorem keeps_split (shape : Shape cfg cache pos) (splits : Splits cfg cache child k) (inTree : cache.InTree node)
    (off : child ∉ cache.path node) :
    Keeps cache pos (cache.split cfg child k) (splitPos cache pos child k) node := by
  obtain ⟨walk, within⟩ := shape.climb_path inTree
  have old : ∀ entry ∈ cache.path node, entry ≠ child ∧ entry ≠ cache.counter :=
    fun entry passed => ⟨fun same => off (same ▸ passed), shape.ne_counter (.inr (within passed))⟩
  refine ⟨inTree_split splits.member inTree, ?_, fun entry passed => ?_, shape.splitPos_inTree inTree,
    fun entry passed => ?_⟩
  · refine (shape.split splits).path_eq (inTree_split splits.member inTree) (walk.congr fun entry passed => ?_)
    rw [split_other (old entry passed).1 (old entry passed).2]
  · exact ⟨_, split_other (old entry passed).1 (old entry passed).2⟩
  · exact ⟨shape.splitPos_inTree (.inr (within passed)), shape.splitPos_inTree (shape.parent entry (within passed))⟩

/-- A walk that does not pass a node is not changed when its child is merged into it. -/
theorem keeps_merge {upper : ℕ} (shape : Shape cfg cache pos) (merges : Merges cache upper child)
    (inTree : cache.InTree node) (off : upper ∉ cache.path node) (stays : node ≠ upper) :
    Keeps cache pos (cache.merge upper child) (mergePos pos upper child) node := by
  obtain ⟨mem, below⟩ := shape.merges_child merges
  obtain ⟨walk, within⟩ := shape.climb_path inTree
  have lower : child ∉ cache.path node := by
    intro passed
    have away : (cache.nodes child).parent ≠ rootNode := below ▸ shape.ne_root merges.member
    exact off (below ▸ walk.parent_mem passed away)
  have notChild : node ≠ child := by
    rintro rfl
    exact lower (walk.self_mem (shape.ne_root mem))
  have parents : ∀ entry ∈ cache.path node, (cache.nodes entry).parent ≠ child ∧
      (cache.nodes entry).parent ≠ upper := by
    refine fun entry passed => ⟨fun above => lower ?_, fun above => off ?_⟩
    · exact above ▸ walk.parent_mem passed (above ▸ shape.ne_root mem)
    · exact above ▸ walk.parent_mem passed (above ▸ shape.ne_root merges.member)
  have entries : ∀ entry ∈ cache.path node, (cache.merge upper child).nodes entry = cache.nodes entry := by
    intro entry passed
    have other : entry ≠ upper := fun same => off (same ▸ passed)
    rw [merge_other other, if_neg fun values => (parents entry passed).1 ((shape.mem_grandchildren merges).mp values).2]
  refine ⟨inTree_merge inTree notChild, ?_, fun entry passed => ⟨_, entries entry passed⟩,
    Function.update_of_ne stays .., fun entry passed => ⟨?_, ?_⟩⟩
  · rw [shape.path_merge merges inTree notChild, filter_eq_self]
    exact fun entry passed => by simpa using fun same : entry = child => lower (same ▸ passed)
  · exact Function.update_of_ne (fun same : entry = upper => off (same ▸ passed)) ..
  · exact Function.update_of_ne (parents entry passed).2 ..

end Shape

/-- What is kept for a node is kept for the nodes above it. -/
theorem Keeps.ancestor {above : ℕ} (keeps : Keeps cache pos cache' pos' node) (shape : Shape cfg cache pos)
    (shape' : Shape cfg cache' pos') (inTree : cache.InTree node)
    (higher : above = rootNode ∨ above ∈ cache.path node) : Keeps cache pos cache' pos' above := by
  rcases higher with rfl | passed
  · have empty : ∀ entry, entry ∉ cache.path rootNode := fun entry => by rw [shape.path_root]; exact not_mem_nil
    exact ⟨.inl rfl, by rw [shape.path_root, shape'.path_root], fun entry passed => absurd passed (empty entry),
      by rw [shape.rootPos, shape'.rootPos], fun entry passed => absurd passed (empty entry)⟩
  · obtain ⟨walk, within⟩ := shape.climb_path inTree
    have aboveIn : cache.InTree above := .inr (within passed)
    have aboveIn' : cache'.InTree above := .inr ((shape'.climb_path keeps.inTree).2 (keeps.path ▸ passed))
    have subset := walk.subset_of_mem passed (shape.climb_path aboveIn).1
    refine ⟨aboveIn', ?_, fun entry higher => keeps.nodes entry (subset higher), (keeps.above above passed).1,
      fun entry higher => keeps.above entry (subset higher)⟩
    refine shape'.path_eq aboveIn' ((shape.climb_path aboveIn).1.congr fun entry higher => ?_)
    obtain ⟨children, same⟩ := keeps.nodes entry (subset higher)
    rw [same]

end RadixCache

/-! ## Splitting and compacting -/

section Compact

variable {cache : RadixCache τ} {pos : ℕ → ℕ} {node child k : ℕ} {fails : RadixCache τ → Prop}

omit [DecidableEq τ] in
theorem ensures_assertThat {condition : Prop} [Decidable condition] {post : Unit → RadixCache τ → Prop}
    (holds : condition) :
    Ensures (assertThat condition) cache post fails ↔ post () cache := ensures_ensure_of holds

theorem ensures_splitNode {post : ℕ → RadixCache τ → Prop} (shape : Shape cfg cache pos)
    (splits : Splits cfg cache child k) (ensured : post cache.counter (cache.split cfg child k)) :
    Ensures (splitNode cfg child k) cache post fails := by
  have length := shape.keyPos child splits.member
  have nonempty : (cache.nodes child).key.take k ≠ [] ∧ (cache.nodes child).key.drop k ≠ [] := by
    rw [← length_pos_iff, ← length_pos_iff, length_take, length_drop]
    have := splits.short
    have := splits.pos
    omega
  rw [splitNode]
  simp only [ensures_bind, ensures_get]
  rw [ensures_assertThat nonempty, ensures_assertThat ⟨splits.member, shape.counter_not_mem⟩,
    ensures_assertThat fun alive => ⟨(shape.swaMember child).mpr ⟨splits.member, alive⟩, shape.counter_not_mem_swa⟩]
  exact ensured

/-- The tree after `_compact_single_child_chain` of a node. -/
structure Compacted (cfg : RadixConfig) (node : ℕ) (cache : RadixCache τ) (pos : ℕ → ℕ)
    (cache' : RadixCache τ) (pos' : ℕ → ℕ) : Prop where
  reshapes : Reshapes cfg cache cache'
  shape : Shape cfg cache' pos'
  member : node ∈ cache'.fullLru
  parent : (cache'.nodes node).parent = (cache.nodes node).parent
  childKey : childKey cfg (cache'.nodes node).key = childKey cfg (cache.nodes node).key
  keeps : ∀ other, cache.InTree other → other ≠ node → node ∉ cache.path other → Keeps cache pos cache' pos' other

namespace Compacted

theorem refl (shape : Shape cfg cache pos) (mem : node ∈ cache.fullLru) :
    Compacted cfg node cache pos cache pos :=
  ⟨.refl, shape, mem, rfl, rfl, fun _ inTree _ _ => .refl inTree⟩

/-- One merge, and what follows it. -/
theorem step (shape : Shape cfg cache pos) (merges : Merges cache node child)
    (compactable : cache.Compactable node child) {cache' : RadixCache τ} {pos' : ℕ → ℕ}
    (rest : Compacted cfg node (cache.merge node child) (mergePos pos node child) cache' pos') :
    Compacted cfg node cache pos cache' pos' where
  reshapes := .head (.merge merges compactable) rest.reshapes
  shape := rest.shape
  member := rest.member
  parent := by rw [rest.parent, merge_node]
  childKey := by rw [rest.childKey, merge_node, shape.childKey_append merges.member]
  keeps := fun other inTree stays off => by
    have first := shape.keeps_merge merges inTree off stays
    exact first.trans (rest.keeps other first.inTree stays (first.path ▸ off))

end Compacted

variable (shape : Shape cfg cache pos) (mem : node ∈ cache.fullLru)
include shape mem

private theorem ensures_compactSingleChildChain (fuel : ℕ) :
    Ensures (compactSingleChildChain fuel node) cache
      (fun _ cache' => ∃ pos', Compacted cfg node cache pos cache' pos') fails := by
  induction fuel generalizing cache pos with
  | zero => exact ⟨pos, .refl shape mem⟩
  | succ fuel ih =>
    rw [compactSingleChildChain, ensures_bind, ensures_get]
    cases values : (cache.nodes node).children.values with
    | nil => exact ⟨pos, .refl shape mem⟩
    | cons child others =>
      cases others with
      | cons _ _ => exact ⟨pos, .refl shape mem⟩
      | nil =>
        dsimp only
        split_ifs with compactable
        · have merges : Merges cache node child := ⟨mem, values⟩
          have inTree := (shape.merges_child merges).1
          rw [ensures_bind, ensures_assertThat ⟨inTree, fun alive => (shape.swaMember child).mpr ⟨inTree, alive⟩⟩,
            ensures_bind, ensures_set]
          refine (ih (shape.merge merges) (mem_fullLru_merge.mpr ⟨mem, ?_⟩)).mono ?_ fun _ fails => fails
          · exact (shape.merges_child merges).2 ▸ shape.parent_ne inTree
          · rintro _ cache' ⟨pos', rest⟩
            exact ⟨pos', .step shape merges compactable rest⟩
        · exact ⟨pos, .refl shape mem⟩

theorem ensures_compactIfEnabled : Ensures (compactIfEnabled cfg node) cache
      (fun _ cache' => ∃ pos', Compacted cfg node cache pos cache' pos') fails := by
  rw [compactIfEnabled, ensures_bind, ensures_get]
  split_ifs
  · exact ensures_compactSingleChildChain shape mem _
  · exact ⟨pos, .refl shape mem⟩

end Compact

/-! ## The descent -/

section Descent

variable {cache cache' : RadixCache τ} {pos pos' : ℕ → ℕ} {node child : ℕ} {key : List τ}
  {slots : List ℕ} {progress : MatchProgress}
variable {fails : RadixCache τ → Prop} {len : ℕ}

/-- The nodes down to this one spell the key, and their slots are these. -/
def Spelled (cache : RadixCache τ) (pos : ℕ → ℕ) (key : List τ) (slots : List ℕ) (node : ℕ) : Prop :=
  ∀ entry ∈ cache.path node,
    (cache.nodes entry).key = (key.drop (pos (cache.nodes entry).parent)).take (cache.nodes entry).key.length ∧
    (cache.nodes entry).value = (slots.drop (pos (cache.nodes entry).parent)).take (cache.nodes entry).key.length

/-- No tombstone within the given number of tokens above the end of a node. -/
def AliveWithin (cache : RadixCache τ) (pos : ℕ → ℕ) (node len : ℕ) : Prop :=
  ∀ entry ∈ cache.path node, pos node < pos entry + len → (cache.nodes entry).swaTombstone = false

/-- The state of a descent that has come to a node. -/
structure Matching (cfg : RadixConfig) (cache : RadixCache τ) (pos : ℕ → ℕ) (key : List τ) (node : ℕ)
    (progress : MatchProgress) : Prop where
  inTree : cache.InTree node
  within : pos node ≤ key.length
  total : progress.value.flatten.length = pos node
  spelled : Spelled cache pos key progress.value.flatten node
  alive : ∀ len, (∀ since ∈ progress.matchLenSinceTombstone, len ≤ since) → AliveWithin cache pos node len
  bestAbove : progress.bestLastNode = node ∨ progress.bestLastNode = rootNode ∨ progress.bestLastNode ∈ cache.path node
  bestLen : progress.bestValueLen ≤ progress.value.length
  bestSlots : (progress.value.take progress.bestValueLen).flatten = progress.value.flatten.take
    (pos progress.bestLastNode)
  bestAlive : AliveWithin cache pos progress.bestLastNode cfg.slidingWindowSize

/-- The descent cannot go on from this node: the key ends here, or it leaves the tree. -/
def Stuck (cfg : RadixConfig) (cache : RadixCache τ) (pos : ℕ → ℕ) (key : List τ) (node : ℕ) : Prop :=
  key.drop (pos node) = [] ∨ (cache.nodes node).children.get? (childKey cfg (key.drop (pos node))) = none

/-- Unless the window above this node is covered, the best node so far is the last one on the path that may be
returned. -/
structure Longest (cfg : RadixConfig) (cache : RadixCache τ) (pos : ℕ → ℕ) (node : ℕ) (progress : MatchProgress) :
    Prop where
  since : ∀ len ∈ progress.matchLenSinceTombstone, ∃ entry ∈ cache.path node, (cache.nodes entry).swaTombstone = true ∧
    pos entry + len = pos node
  best : ¬progress.matchLenSinceTombstone.all (cfg.slidingWindowSize ≤ ·) → ∀ other,
    (other = rootNode ∨ other ∈ cache.path node) → AliveWithin cache pos other cfg.slidingWindowSize →
    pos other ≤ pos progress.bestLastNode

namespace Spelled

omit [DecidableEq τ] in
theorem keep (spelled : Spelled cache pos key slots node) (keeps : Keeps cache pos cache' pos' node) :
    Spelled cache' pos' key slots node := by
  intro entry passed
  rw [keeps.path] at passed
  obtain ⟨children, same⟩ := keeps.nodes entry passed
  rw [same]
  dsimp only
  rw [(keeps.above entry passed).2]
  exact spelled entry passed

end Spelled

omit [DecidableEq τ] in
theorem AliveWithin.keep (alive : AliveWithin cache pos node len) (keeps : Keeps cache pos cache' pos' node) :
    AliveWithin cache' pos' node len := by
  intro entry passed close
  rw [keeps.path] at passed
  rw [keeps.here, (keeps.above entry passed).1] at close
  obtain ⟨children, same⟩ := keeps.nodes entry passed
  rw [same]
  exact alive entry passed close

/-- What is above a node ends before it. -/
theorem RadixCache.Shape.pos_le_of_above {other : ℕ} (shape : Shape cfg cache pos) (inTree : cache.InTree node)
    (above : other = rootNode ∨ other ∈ cache.path node) : pos other ≤ pos node := by
  rcases above with rfl | passed
  · rw [shape.rootPos]
    exact Nat.zero_le _
  · exact shape.pos_le inTree passed

namespace Matching

section

variable (matching : Matching cfg cache pos key node progress)

include matching

omit [DecidableEq τ] in
/-- The match may end here if the window is covered. -/
theorem settle : Matching cfg cache pos key node (progress.settle cfg node) := by
  unfold MatchProgress.settle
  split_ifs with covered
  · refine ⟨matching.inTree, matching.within, matching.total, matching.spelled, matching.alive, .inl rfl,
      le_rfl, ?_, ?_⟩
    · rw [take_length, ← matching.total, take_length]
    · refine matching.alive _ fun since is => ?_
      rw [mem_def.mp is] at covered
      simpa using covered
  · exact matching

section

variable (shape : Shape cfg cache pos)

include shape

theorem best_above : progress.bestLastNode = rootNode ∨ progress.bestLastNode ∈ cache.path node := by
  rcases matching.bestAbove with same | above
  · rw [same]
    exact shape.self_above matching.inTree
  · exact above

theorem inTree_best : cache.InTree progress.bestLastNode :=
  (matching.best_above shape).imp_right ((shape.climb_path matching.inTree).2 ·)

theorem keep (shape' : Shape cfg cache' pos') (keeps : Keeps cache pos cache' pos' node) :
    Matching cfg cache' pos' key node progress := by
  have best := keeps.ancestor shape shape' matching.inTree (matching.best_above shape)
  refine ⟨keeps.inTree, keeps.here ▸ matching.within, keeps.here ▸ matching.total, matching.spelled.keep keeps,
    fun len enough => (matching.alive len enough).keep keeps, keeps.path ▸ matching.bestAbove, matching.bestLen, ?_,
    matching.bestAlive.keep best⟩
  rw [best.here]
  exact matching.bestSlots

theorem atTombstone : Matching cfg cache pos key node (progress.atTombstone cfg node) := by
  have settled := matching.settle
  refine ⟨settled.inTree, settled.within, settled.total, settled.spelled, fun len none entry passed close => ?_,
    settled.bestAbove, settled.bestLen, settled.bestSlots, settled.bestAlive⟩
  have low := shape.pos_le matching.inTree passed
  have zero : len ≤ 0 := none 0 rfl
  omega

/-- The descent goes on to a child that spells the next piece of the key. -/
theorem extend (mem : child ∈ cache.fullLru) (below : (cache.nodes child).parent = node)
    (agrees : (cache.nodes child).key = (key.drop (pos node)).take (cache.nodes child).key.length)
    (fits : pos child ≤ key.length)
    (reset : (cache.nodes child).swaTombstone = true → progress.matchLenSinceTombstone = some 0) :
    Matching cfg cache pos key child (progress.append (cache.nodes child).value (cache.nodes child).swaTombstone) := by
  have path := shape.path_cons mem
  have childPos := shape.position child mem
  have length := shape.valueLength child mem
  have total := matching.total
  have low : ∀ entry ∈ cache.path node, pos entry ≤ pos node := fun entry passed =>
    shape.pos_le matching.inTree passed
  have flat : (progress.append (cache.nodes child).value (cache.nodes child).swaTombstone).value.flatten =
      progress.value.flatten ++ (cache.nodes child).value := by
    simp [append]
  rw [below] at path childPos
  constructor
  case inTree => exact .inr mem
  case within => exact fits
  case total => rw [flat, length_append, total, length, childPos]
  case spelled =>
    intro entry passed
    rw [flat]
    rw [path] at passed
    rcases mem_cons.mp passed with rfl | passed
    · rw [below]
      refine ⟨agrees, ?_⟩
      rw [← total, drop_left, ← length, take_length]
    · have inside := shape.position entry ((shape.climb_path matching.inTree).2 passed)
      have bound := low entry passed
      rw [drop_append_of_le_length (by omega), take_append_of_le_length (by rw [length_drop]; omega)]
      exact matching.spelled entry passed
  case alive =>
    intro len enough entry passed close
    rw [path] at passed
    by_cases dead : (cache.nodes child).swaTombstone = true
    · have zero : len ≤ 0 := enough 0 (by simp [append, dead, reset dead])
      rcases mem_cons.mp passed with rfl | passed
      · omega
      · have := low entry passed
        omega
    · rcases mem_cons.mp passed with rfl | passed
      · simpa using dead
      · have bound := low entry passed
        refine matching.alive (len - (cache.nodes child).value.length) (fun since is => ?_) entry passed (by omega)
        have := enough (since + (cache.nodes child).value.length) (by
          simp [append, dead, mem_def.mp is])
        omega
  case bestAbove =>
    rw [path]
    exact .inr ((matching.best_above shape).imp_right (mem_cons_of_mem _))
  case bestLen =>
    simp only [append, length_append]
    have := matching.bestLen
    omega
  case bestSlots =>
    have bound := shape.pos_le_of_above matching.inTree (matching.best_above shape)
    rw [flat]
    simp only [append]
    rw [take_append_of_le_length matching.bestLen, take_append_of_le_length (by omega)]
    exact matching.bestSlots
  case bestAlive => exact matching.bestAlive

end

end

end Matching

namespace Longest

section

variable (longest : Longest cfg cache pos node progress) (shape : Shape cfg cache pos)

include longest shape

theorem keep (matching : Matching cfg cache pos key node progress) (shape' : Shape cfg cache' pos')
    (keeps : Keeps cache pos cache' pos' node) : Longest cfg cache' pos' node progress where
  since := fun len is => by
    obtain ⟨entry, passed, dead, position⟩ := longest.since len is
    obtain ⟨children, same⟩ := keeps.nodes entry passed
    refine ⟨entry, keeps.path ▸ passed, by rw [same]; exact dead, ?_⟩
    rw [(keeps.above entry passed).1, keeps.here]
    exact position
  best := fun uncovered other above alive => by
    have kept := keeps.ancestor shape shape' matching.inTree (matching.best_above shape)
    have moved := (keeps.symm matching.inTree).ancestor shape' shape keeps.inTree above
    have := longest.best uncovered other (keeps.path ▸ above) (alive.keep moved)
    rw [kept.here]
    rw [moved.here] at this
    exact this

/-- At the end of the descent the best node is the last one that may be returned. -/
theorem settle (inTree : cache.InTree node) {other : ℕ} (above : other = rootNode ∨ other ∈ cache.path node)
    (alive : AliveWithin cache pos other cfg.slidingWindowSize) :
    pos other ≤ pos (progress.settle cfg node).bestLastNode := by
  unfold MatchProgress.settle
  split_ifs with covered
  · exact shape.pos_le_of_above inTree above
  · exact longest.best covered other above alive

theorem extend (matching : Matching cfg cache pos key node progress) (mem : child ∈ cache.fullLru)
    (below : (cache.nodes child).parent = node) :
    Longest cfg cache pos child
      ((if (cache.nodes child).swaTombstone = true then progress.atTombstone cfg node else progress).append
        (cache.nodes child).value (cache.nodes child).swaTombstone) := by
  have path := shape.path_cons mem
  have position := shape.position child mem
  have length := shape.valueLength child mem
  rw [below] at path position
  by_cases dead : (cache.nodes child).swaTombstone = true
  · simp only [dead, if_true]
    refine ⟨fun len is => ⟨child, path ▸ mem_cons_self .., dead, ?_⟩, fun uncovered other above alive => ?_⟩
    · simp only [append, atTombstone, if_true, mem_def, some.injEq] at is
      omega
    · simp only [append, atTombstone, if_true, all_some, decide_eq_true_eq] at uncovered ⊢
      rw [path, mem_cons, or_left_comm] at above
      rcases above with rfl | above
      · -- the tombstone itself ends no window
        have living := alive other (path ▸ mem_cons_self ..) (by omega)
        rw [dead] at living
        exact absurd living (by decide)
      · exact longest.settle shape matching.inTree above alive
  · rw [if_neg dead]
    have living : (cache.nodes child).swaTombstone = false := by simpa using dead
    refine ⟨fun len is => ?_, fun uncovered other above alive => ?_⟩
    · rw [append, living, if_neg Bool.false_ne_true, mem_def, map_eq_some_iff] at is
      obtain ⟨since, is, rfl⟩ := is
      obtain ⟨entry, passed, tombstone, here⟩ := longest.since since is
      refine ⟨entry, path ▸ mem_cons_of_mem _ passed, tombstone, ?_⟩
      omega
    · cases since : progress.matchLenSinceTombstone with
      | none => simp [append, living, since] at uncovered
      | some len =>
        simp only [append, living, since, map_some] at uncovered ⊢
        have short : len + (cache.nodes child).value.length < cfg.slidingWindowSize := by simpa using uncovered
        rw [path, mem_cons, or_left_comm] at above
        rcases above with rfl | above
        · -- the last tombstone is too close to this end
          obtain ⟨entry, passed, tombstone, here⟩ := longest.since len since
          have := alive entry (path ▸ mem_cons_of_mem _ passed) (by omega)
          rw [tombstone] at this
          exact absurd this (by decide)
        · refine longest.best ?_ other above alive
          rw [since, all_some, decide_eq_true_eq]
          omega

end

end Longest

/-- All nodes end at page boundaries. -/
theorem RadixCache.Shape.dvd_pos (shape : Shape cfg cache pos) (inTree : cache.InTree node) :
    cfg.pageSize ∣ pos node := by
  refine shape.inTree_induction ?_ (fun node mem above => ?_) inTree
  · rw [shape.rootPos]
    exact Nat.dvd_zero _
  · rw [shape.position node mem]
    exact Nat.dvd_add above (shape.aligned node mem)

/-- How far the key of a child agrees with the rest of the key, if the first page does. -/
structure Agrees (cfg : RadixConfig) (cache : RadixCache τ) (child : ℕ) (rest : List τ) (len : ℕ) : Prop where
  pos : 0 < len
  aligned : cfg.pageSize ∣ len
  le : len ≤ (cache.nodes child).key.length
  le_rest : len ≤ rest.length
  take : (cache.nodes child).key.take len = rest.take len
  stops : (cache.nodes child).key.drop len = [] ∨ rest.drop len = [] ∨
    childKey cfg ((cache.nodes child).key.drop len) ≠ childKey cfg (rest.drop len)

theorem agrees_keyMatch {rest : List τ} (shape : Shape cfg cache pos) (mem : child ∈ cache.fullLru)
    (nonempty : rest ≠ []) (aligned : cfg.pageSize ∣ rest.length)
    (first : childKey cfg (cache.nodes child).key = childKey cfg rest) :
    Agrees cfg cache child rest (keyMatch cfg (cache.nodes child).key rest) where
  pos := cfg.pageSize_pos.trans_le
    (pageSize_le_keyMatch (length_pos_iff.mp (shape.keyPos child mem)) nonempty first)
  aligned := dvd_keyMatchLoop
  le := keyMatchLoop_le (shape.aligned child mem)
  le_rest := by
    rw [keyMatch_comm]
    exact keyMatchLoop_le aligned
  take := take_keyMatchLoop
  stops := keyMatchLoop_stops cfg.pageSize_pos le_rfl

namespace Matching

variable {len : ℕ}

section

variable (matching : Matching cfg cache pos key node progress) (shape : Shape cfg cache pos)
  (mem : child ∈ cache.fullLru) (below : (cache.nodes child).parent = node)

include matching shape mem below

/-- A child is not on the path of its parent. -/
theorem child_not_mem : child ∉ cache.path node := by
  intro passed
  have low := shape.pos_le matching.inTree passed
  have high := shape.parent_pos_lt mem
  rw [below] at high
  omega

/-- The child agrees with the key only in part and is split. -/
theorem split (agrees : Agrees cfg cache child (key.drop (pos node)) len) (short : len < (cache.nodes child).key.length)
    (reset : (cache.nodes child).swaTombstone = true → progress.matchLenSinceTombstone = some 0) :
    Matching cfg (cache.split cfg child len) (splitPos cache pos child len) key cache.counter
      (progress.append ((cache.nodes child).value.take len) (cache.nodes child).swaTombstone) := by
  have splits : Splits cfg cache child len := ⟨mem, agrees.pos, short, agrees.aligned⟩
  have keeps := shape.keeps_split splits matching.inTree (matching.child_not_mem shape mem below)
  have isNew := shape.split_counter splits
  have room := agrees.le_rest
  rw [length_drop] at room
  have kept := matching.keep shape (shape.split splits) keeps
  have next :=
    kept.extend (shape.split splits) ((mem_fullLru_split mem).mpr (.inl rfl)) (by rw [isNew]; exact below) ?_ ?_
      (by rw [isNew]; exact reset)
  · rw [isNew] at next
    exact next
  · rw [isNew, keeps.here, length_take, min_eq_left short.le]
    exact agrees.take
  · have := matching.within
    have := agrees.pos
    rw [splitPos_counter, below]
    omega

/-- The child agrees with the key to its end. -/
private theorem descend (agrees : Agrees cfg cache child (key.drop (pos node)) (cache.nodes child).key.length)
    (reset : (cache.nodes child).swaTombstone = true → progress.matchLenSinceTombstone = some 0) :
    Matching cfg cache pos key child (progress.append (cache.nodes child).value (cache.nodes child).swaTombstone) := by
  refine matching.extend shape mem below ?_ ?_ reset
  · rw [← agrees.take, take_length]
  · have := matching.within
    have := agrees.pos
    have room := agrees.le_rest
    rw [length_drop] at room
    rw [shape.position child mem, below]
    omega

end

end Matching

theorem Longest.split (longest : Longest cfg cache pos node progress)
    (matching : Matching cfg cache pos key node progress) (shape : Shape cfg cache pos)
    (splits : Splits cfg cache child len) (below : (cache.nodes child).parent = node) :
    Longest cfg (cache.split cfg child len) (splitPos cache pos child len) cache.counter
      ((if (cache.nodes child).swaTombstone = true then progress.atTombstone cfg node else progress).append
        ((cache.nodes child).value.take len) (cache.nodes child).swaTombstone) := by
  have mem := splits.member
  have keeps := shape.keeps_split splits matching.inTree (matching.child_not_mem shape mem below)
  have isNew := shape.split_counter splits
  have kept := longest.keep shape matching (shape.split splits) keeps
  have next := kept.extend (shape.split splits) (matching.keep shape (shape.split splits) keeps)
    ((mem_fullLru_split mem).mpr (.inl rfl)) (by rw [isNew]; exact below)
  rw [isNew] at next
  exact next

/-- The descent ends in the node that was split off. -/
private theorem stuck_split (shape : Shape cfg cache pos) (splits : Splits cfg cache child len)
    (below : (cache.nodes child).parent = node) (agrees : Agrees cfg cache child (key.drop (pos node)) len) :
    Stuck cfg (cache.split cfg child len) (splitPos cache pos child len) key cache.counter := by
  rw [Stuck, splitPos_counter, below, ← drop_drop]
  rcases agrees.stops with whole | done | differ
  · have := drop_eq_nil_iff.mp whole
    exact absurd splits.short (by omega)
  · exact .inl done
  · refine .inr (eq_none_iff_forall_ne_some.mpr fun other found => differ ?_)
    rw [shape.split_children splits _ (.inr ((mem_fullLru_split splits.member).mpr (.inl rfl))),
      shape.split_below splits] at found
    rcases found with ⟨_, _, same⟩ | ⟨_, upper, _⟩ | ⟨_, mem, upper, _⟩
    · exact same
    · exact absurd upper.symm (shape.ne_counter (shape.parent child splits.member))
    · exact absurd upper (shape.ne_counter (shape.parent other mem))

theorem ensures_matchPrefixLoop (shape : Shape cfg cache pos)
    (matching : Matching cfg cache pos key node progress) (longest : Longest cfg cache pos node progress)
    (aligned : cfg.pageSize ∣ key.length) (fuel : ℕ) (enough : (key.drop (pos node)).length ≤ fuel) :
    Ensures (matchPrefixLoop cfg fuel node (key.drop (pos node)) progress) cache
      (fun result cache' => ∃ pos', Reshapes cfg cache cache' ∧ Shape cfg cache' pos' ∧
        Matching cfg cache' pos' key result.1 result.2 ∧ Longest cfg cache' pos' result.1 result.2 ∧
        Stuck cfg cache' pos' key result.1) fails := by
  induction fuel generalizing cache pos node progress with
  | zero => exact ⟨pos, .refl, shape, matching, longest, .inl (length_eq_zero_iff.mp (Nat.le_zero.mp enough))⟩
  | succ fuel ih =>
    rw [matchPrefixLoop, ensures_bind, ensures_get]
    cases found : if key.drop (pos node) = [] then none
        else (cache.nodes node).children.get? (childKey cfg (key.drop (pos node))) with
    | none =>
      refine ⟨pos, .refl, shape, matching, longest, ?_⟩
      split_ifs at found with done
      · exact .inl done
      · exact .inr found
    | some child =>
      split_ifs at found with done
      obtain ⟨mem, below, first⟩ := (shape.children node matching.inTree _ _).mp found
      dsimp only
      rw [ensures_bind]
      refine (ensures_compactIfEnabled shape mem).mono ?_ fun _ fails => fails
      rintro _ cache' ⟨pos', compacted⟩
      rw [ensures_bind, ensures_get]
      -- the compaction has left the path of the node alone
      have other : node ≠ child := below ▸ shape.parent_ne mem
      have keeps := compacted.keeps node matching.inTree other (matching.child_not_mem shape mem below)
      have below' := compacted.parent.trans below
      rw [← keeps.here] at done first enough ⊢
      have restAligned : cfg.pageSize ∣ (key.drop (pos' node)).length := by
        rw [length_drop]
        exact Nat.dvd_sub aligned (compacted.shape.dvd_pos keeps.inTree)
      have agrees := agrees_keyMatch compacted.shape compacted.member done restAligned (compacted.childKey.trans first)
      generalize keyMatch cfg (cache'.nodes child).key (key.drop (pos' node)) = len at agrees ⊢
      have kept := matching.keep shape compacted.shape keeps
      have keptLongest := longest.keep shape matching compacted.shape keeps
      have splitLongest : ∀ splits : Splits cfg cache' child len, _ := fun splits =>
        keptLongest.split kept compacted.shape splits below'
      have nextLongest := keptLongest.extend compacted.shape kept compacted.member below'
      generalize reset :
        (if (cache'.nodes child).swaTombstone = true then progress.atTombstone cfg node else progress) = progress' at *
      have matching' : Matching cfg cache' pos' key node progress' := by
        rw [← reset]
        split_ifs
        · exact kept.atTombstone compacted.shape
        · exact kept
      have zero : (cache'.nodes child).swaTombstone = true → progress'.matchLenSinceTombstone = some 0 := by
        intro dead
        rw [← reset, if_pos dead]
        rfl
      split_ifs with short
      · rw [ensures_bind]
        have splits : Splits cfg cache' child len := ⟨compacted.member, agrees.pos, short, agrees.aligned⟩
        refine ensures_splitNode compacted.shape splits ?_
        exact ⟨_, compacted.reshapes.tail (.split splits), compacted.shape.split splits,
          matching'.split compacted.shape compacted.member below' agrees short zero, splitLongest splits,
          stuck_split compacted.shape splits below' agrees⟩
      · obtain rfl : len = (cache'.nodes child).key.length := le_antisymm agrees.le (not_lt.mp short)
        have next := matching'.descend compacted.shape compacted.member below' agrees zero
        have position := compacted.shape.position child compacted.member
        have length := compacted.shape.keyPos child compacted.member
        rw [below'] at position
        rw [length_drop] at enough
        rw [drop_drop, ← position]
        refine (ih compacted.shape next nextLongest (by rw [length_drop]; omega)).mono ?_ fun _ fails => fails
        rintro result cache'' ⟨pos'', reshapes, shape'', matched⟩
        exact ⟨pos'', compacted.reshapes.trans reshapes, shape'', matched⟩

/-! ## The result -/

/-- The nodes down to this one spell the start of the key. -/
def Spells (cache : RadixCache τ) (pos : ℕ → ℕ) (key : List τ) (node : ℕ) : Prop :=
  ∀ entry ∈ cache.path node,
    (cache.nodes entry).key = (key.drop (pos (cache.nodes entry).parent)).take (cache.nodes entry).key.length

/-- A node at or below another one, which spells a prefix of the key. -/
structure Beyond (cache : RadixCache τ) (pos : ℕ → ℕ) (key : List τ) (node target : ℕ) : Prop where
  inTree : cache.InTree target
  below : target = node ∨ node = rootNode ∨ node ∈ cache.path target
  spelled : Spells cache pos key target

/-- The key leads from a node to the child that spells its next piece. -/
theorem RadixCache.Shape.get?_of_agrees (shape : Shape cfg cache pos) (mem : child ∈ cache.fullLru)
    (agrees : (cache.nodes child).key =
      (key.drop (pos (cache.nodes child).parent)).take (cache.nodes child).key.length) :
    (cache.nodes (cache.nodes child).parent).children.get? (childKey cfg (key.drop (pos (cache.nodes child).parent))) =
      some child := by
  refine (shape.children _ (shape.parent child mem) _ _).mpr ⟨mem, rfl, ?_⟩
  have page : cfg.pageSize ≤ (cache.nodes child).key.length :=
    Nat.le_of_dvd (shape.keyPos child mem) (shape.aligned child mem)
  rw [childKey, childKey, agrees, take_take, min_eq_left page]

namespace Beyond

section

variable (beyond : Beyond cache pos key node target) (shape : Shape cfg cache pos)

include beyond shape

/-- The way to a node further down goes through a child that the key leads to. -/
theorem exists_child (further : target ≠ node) : ∃ child ∈ cache.path target, (cache.nodes child).parent = node := by
  obtain ⟨walk, _⟩ := shape.climb_path beyond.inTree
  rcases beyond.below with same | root | passed
  · exact absurd same further
  · obtain ⟨child, passed, below⟩ := walk.exists_last (root ▸ further)
    exact ⟨child, passed, below.trans root.symm⟩
  · exact walk.exists_child passed further.symm

theorem found (further : target ≠ node) :
    ∃ child ∈ cache.path target, (cache.nodes node).children.get? (childKey cfg (key.drop (pos node))) = some child ∧
      (cache.nodes child).key = (key.drop (pos node)).take (cache.nodes child).key.length := by
  obtain ⟨child, passed, below⟩ := beyond.exists_child shape further
  have spells := beyond.spelled child passed
  have found := shape.get?_of_agrees ((shape.climb_path beyond.inTree).2 passed) spells
  rw [below] at spells found
  exact ⟨child, passed, found, spells⟩

/-- Where the descent cannot go on, no node further down spells a prefix of the key. -/
theorem eq_of_stuck (stuck : Stuck cfg cache pos key node) : target = node := by
  by_contra further
  obtain ⟨child, passed, found, spells⟩ := beyond.found shape further
  rcases stuck with done | absent
  · have length := shape.keyPos child ((shape.climb_path beyond.inTree).2 passed)
    rw [spells, done, take_nil] at length
    exact absurd length (lt_irrefl _)
  · exact absurd (found.symm.trans absent) (some_ne_none _)

end

/-- The nodes that spell prefixes of one key are above each other. -/
theorem total (shape : Shape cfg cache pos) (inTree : cache.InTree node) (spelled : Spells cache pos key node)
    (targetIn : cache.InTree target) (spelled' : Spells cache pos key target) :
    Beyond cache pos key node target ∨ target = rootNode ∨ target ∈ cache.path node := by
  obtain ⟨walk, within⟩ := shape.climb_path targetIn
  generalize way : cache.path target = above at walk within
  induction walk with
  | root => exact .inr (.inl rfl)
  | @step target above away rest ih =>
    have mem : target ∈ cache.fullLru := within (mem_cons_self ..)
    have up := shape.path_cons mem
    have parentIn := shape.parent target mem
    have spelledUp : Spells cache pos key (cache.nodes target).parent := fun entry passed =>
      spelled' entry (up ▸ mem_cons_of_mem _ passed)
    have beyond : Beyond cache pos key node (cache.nodes target).parent → Beyond cache pos key node target := by
      rintro ⟨_, same | root | higher, _⟩
      · refine ⟨targetIn, ?_, spelled'⟩
        rw [up, same]
        exact .inr ((shape.self_above inTree).imp_right (mem_cons_of_mem _))
      · exact ⟨targetIn, .inr (.inl root), spelled'⟩
      · exact ⟨targetIn, .inr (.inr (up ▸ mem_cons_of_mem _ higher)), spelled'⟩
    rcases ih parentIn spelledUp (List.cons.inj (up.symm.trans way)).2
      (fun entry passed => within (mem_cons_of_mem _ passed)) with further | higher
    · exact .inl (beyond further)
    · by_cases same : node = (cache.nodes target).parent
      · exact .inl (beyond ⟨parentIn, .inl same.symm, spelledUp⟩)
      · -- both ways lead through the child that the key selects
        have between : Beyond cache pos key (cache.nodes target).parent node := ⟨inTree, .inr higher, spelled⟩
        obtain ⟨child, passed, found, _⟩ := between.found shape same
        have here := shape.get?_of_agrees mem (spelled' target (up ▸ mem_cons_self ..))
        obtain rfl : child = target := some.inj (found.symm.trans here)
        exact .inr (.inr passed)

end Beyond

/-- What `match_prefix` returns: some slots and the node that they end at. -/
structure Matched (cfg : RadixConfig) (key : List τ) (cache : RadixCache τ) (pos : ℕ → ℕ) (slots : List ℕ) (node : ℕ) :
    Prop where
  inTree : cache.InTree node
  total : slots.length = pos node
  within : pos node ≤ key.length
  spelled : Spelled cache pos key slots node
  alive : AliveWithin cache pos node cfg.slidingWindowSize
  longest : ∀ other, cache.InTree other → pos other ≤ key.length → Spells cache pos key other →
    AliveWithin cache pos other cfg.slidingWindowSize → pos other ≤ pos node

theorem Matching.start (shape : Shape cfg cache pos) : Matching cfg cache pos key rootNode .start := by
  have none : ∀ entry, entry ∉ cache.path rootNode := fun entry => by rw [shape.path_root]; exact not_mem_nil
  refine ⟨.inl rfl, ?_, ?_, fun entry passed => absurd passed (none entry),
    fun _ _ entry passed => absurd passed (none entry),
    .inl rfl, le_rfl, ?_, fun entry passed => absurd passed (none entry)⟩
  · rw [shape.rootPos]
    exact Nat.zero_le _
  · rw [shape.rootPos]
    rfl
  · simp [MatchProgress.start]

/-- The best node so far, with its slots. -/
theorem Matching.matched (matching : Matching cfg cache pos key node progress) (shape : Shape cfg cache pos)
    (stuck : Stuck cfg cache pos key node) (longest : ∀ other, other = rootNode ∨ other ∈ cache.path node →
      AliveWithin cache pos other cfg.slidingWindowSize → pos other ≤ pos progress.bestLastNode) :
    Matched cfg key cache pos (progress.value.take progress.bestValueLen).flatten progress.bestLastNode := by
  have above := matching.best_above shape
  have bound := shape.pos_le_of_above matching.inTree above
  have inTree := matching.inTree_best shape
  have total := matching.total
  have subset : cache.path progress.bestLastNode ⊆ cache.path node := by
    rcases above with root | passed
    · rw [root, shape.path_root]
      exact nil_subset _
    · exact (shape.climb_path matching.inTree).1.subset_of_mem passed (shape.climb_path inTree).1
  rw [matching.bestSlots]
  refine ⟨inTree, ?_, bound.trans matching.within, fun entry passed => ?_, matching.bestAlive,
    fun other otherIn _ spells alive => ?_⟩
  · rw [length_take, total, min_eq_left bound]
  · have low := shape.pos_le inTree passed
    have position := shape.position entry ((shape.climb_path inTree).2 passed)
    obtain ⟨spells, holds⟩ := matching.spelled entry (subset passed)
    refine ⟨spells, holds.trans ?_⟩
    rw [drop_take, take_take, min_eq_left (by omega)]
  · have here : Spells cache pos key node := fun entry passed => (matching.spelled entry passed).1
    rcases Beyond.total shape matching.inTree here otherIn spells with beyond | above
    · obtain rfl := beyond.eq_of_stuck shape stuck
      exact longest other (shape.self_above otherIn) alive
    · exact longest other above alive

/-- A key that was cut to whole pages spells the same. -/
theorem Matched.of_take (matched : Matched cfg (key.take len) cache pos slots node) (shape : Shape cfg cache pos)
    (whole : ∀ n, cfg.pageSize ∣ n → n ≤ key.length → n ≤ len) : Matched cfg key cache pos slots node := by
  have within := matched.within
  rw [length_take] at within
  refine ⟨matched.inTree, matched.total, by omega, fun entry passed => ?_, matched.alive,
    fun other otherIn fits spells alive => ?_⟩
  · have low := shape.pos_le matched.inTree passed
    have position := shape.position entry ((shape.climb_path matched.inTree).2 passed)
    obtain ⟨spells, holds⟩ := matched.spelled entry passed
    refine ⟨spells.trans ?_, holds⟩
    rw [drop_take, take_take, min_eq_left (by omega)]
  · have short := whole _ (shape.dvd_pos otherIn) fits
    refine matched.longest other otherIn (by rw [length_take]; omega) (fun entry passed => ?_) alive
    have low := shape.pos_le otherIn passed
    have position := shape.position entry ((shape.climb_path otherIn).2 passed)
    rw [drop_take, take_take, min_eq_left (by omega)]
    exact spells entry passed

omit [DecidableEq τ] in
theorem Matched.congr (matched : Matched cfg key cache pos slots node) (same : SameTree cache cache')
    (records : cache'.nodes = cache.nodes) : Matched cfg key cache' pos slots node where
  inTree := same.inTree.mpr matched.inTree
  total := matched.total
  within := matched.within
  spelled := by
    rw [Spelled, same.path, records]
    exact matched.spelled
  alive := by
    rw [AliveWithin, same.path, records]
    exact matched.alive
  longest := fun other otherIn fits spells alive => by
    rw [Spells, same.path, records] at spells
    rw [AliveWithin, same.path, records] at alive
    exact matched.longest other (same.inTree.mp otherIn) fits spells alive

private theorem perm_front {lru front : List ℕ} (distinct : front.Nodup) (subset : front ⊆ lru) (nodup : lru.Nodup) :
    (front ++ lru.filter (· ∉ front)).Perm lru := by
  refine (perm_ext_iff_of_nodup ?_ nodup).mpr fun entry => ?_
  · refine nodup_append.mpr ⟨distinct, nodup.filter _, fun entry mem other rest same => ?_⟩
    subst same
    simp [mem] at rest
  · by_cases mem : entry ∈ front
    · simp [mem, subset mem]
    · simp [mem]

private theorem ensures_resetNodeAndParentsMru {post : Unit → RadixCache τ → Prop}
    (shape : Shape cfg cache pos) (inTree : cache.InTree node)
    (ensured : ∀ full swa fullLinks swaLinks, Reorders cache full swa fullLinks swaLinks →
      post () { cache with fullLru := full, swaLru := swa, fullLinks := fullLinks, swaLinks := swaLinks }) :
    Ensures (resetNodeAndParentsMru node) cache post fails := by
  obtain ⟨walk, within⟩ := shape.climb_path inTree
  have distinct := walk.nodup (shape.falls inTree)
  have alive : (cache.path node).filter (fun node => !(cache.nodes node).swaTombstone) ⊆ cache.swaLru := by
    intro entry passed
    obtain ⟨passed, living⟩ := mem_filter.mp passed
    exact (shape.swaMember entry).mpr ⟨within passed, by simpa using living⟩
  rw [resetNodeAndParentsMru, ensures_bind, ensures_get]
  dsimp only
  rw [ensures_bind, ensures_assertThat ⟨fun entry passed => within passed, fun entry passed => alive passed⟩,
    ensures_set]
  exact ensured _ _ _ _ ⟨perm_front distinct within shape.nodup, perm_front (distinct.filter _) alive shape.swaNodup,
    fun represents => represents.resetNodeAndParentsMru within distinct,
    fun represents => represents.resetNodeAndParentsMru alive (distinct.filter _)⟩

omit [DecidableEq τ] in
theorem Longest.start : Longest cfg cache pos rootNode .start where
  since := fun len is => absurd is (by simp [MatchProgress.start])
  best := fun uncovered => absurd rfl uncovered

/-- `match_prefix` returns, and it only reshapes the tree. -/
theorem ensures_matchPrefix (shape : Shape cfg cache pos) :
    Ensures (matchPrefix cfg key) cache (fun result cache' => ∃ pos', Reshapes cfg cache cache' ∧
      Shape cfg cache' pos' ∧ Matched cfg key cache' pos' result.1 result.2) fails := by
  rw [matchPrefix]
  split_ifs with empty
  · refine ⟨pos, .refl, shape, .inl rfl, shape.rootPos.symm, ?_, fun entry passed => ?_, fun entry passed => ?_,
      fun other _ fits _ _ => ?_⟩
    · exact shape.rootPos.le.trans (Nat.zero_le _)
    · exact absurd (shape.path_root ▸ passed) not_mem_nil
    · exact absurd (shape.path_root ▸ passed) not_mem_nil
    · rw [empty] at fits
      exact fits.trans (Nat.zero_le _)
  · dsimp only
    generalize cut : key.length / cfg.pageSize * cfg.pageSize = len
    have aligned : cfg.pageSize ∣ (key.take len).length := by
      rw [length_take, ← cut, min_eq_left (Nat.div_mul_le_self ..)]
      exact Nat.dvd_mul_left ..
    have whole : ∀ n, cfg.pageSize ∣ n → n ≤ key.length → n ≤ len := by
      rintro _ ⟨pages, rfl⟩ fits
      rw [Nat.mul_comm] at fits ⊢
      rw [← cut]
      exact Nat.mul_le_mul_right _ ((Nat.le_div_iff_mul_le cfg.pageSize_pos).mpr fits)
    rw [ensures_bind]
    have start := @ensures_matchPrefixLoop _ _ cfg cache pos rootNode (key.take len) .start fails shape
      (.start shape) .start aligned (key.take len).length (by rw [shape.rootPos, drop_zero])
    rw [shape.rootPos, drop_zero] at start
    refine start.mono ?_ fun _ fails => fails
    rintro ⟨node, progress⟩ cache' ⟨pos', reshapes, shape', matching, longest, stuck⟩
    have settled := matching.settle
    have matched := settled.matched shape' stuck fun other above alive =>
      longest.settle shape' matching.inTree above alive
    rw [ensures_bind]
    refine ensures_resetNodeAndParentsMru shape'
      (settled.inTree_best shape') fun full swa fullLinks swaLinks reorders => ?_
    exact ⟨pos', reshapes.tail (.touch reorders), shape'.touch reorders,
      (matched.of_take shape' whole).congr (sameTree_touch reorders.fullPerm) rfl⟩

end Descent

end FlashMemory
