import FlashMemory.Soundness.LockSymmetry
import FlashMemory.Soundness.RadixSizes

/-! # The bookkeeping of the radix tree

After every call that returns the four sizes are the totals they stand for, no tombstone has a window lock, no node has
more window locks than full locks, and the two lists hold the nodes they should hold, once and well linked.

This needs no condition on the uuids. A compaction may replace the uuid of a lock, and its release then goes further up
than the window of the lock. But it never stops earlier, so it takes at least what the lock has added, and a node never
has more window locks than there are locks that reach it.
-/

namespace FlashMemory

open List Option

namespace RadixCache

variable {τ : Type} [DecidableEq τ] {cfg : RadixConfig} {cache cache' : RadixCache τ} {pos : ℕ → ℕ} {node : ℕ}
  {which : Bool → ℕ → ℕ → Bool} {locks : List RadixLock} {lock : RadixLock}

/-! ## Single locks -/

/-- A total after a change of one node. -/
def shifted (cache : RadixCache τ) (node : ℕ) (cache' : RadixCache τ) (size : ℤ) (which : Bool → ℕ → ℕ → Bool) : ℤ :=
  size - share which (cache.nodes node) + share which (cache'.nodes node)

/-- The sizes follow a change of one node. -/
structure Resized (cache : RadixCache τ) (node : ℕ) (cache' : RadixCache τ) : Prop where
  fullEvictable : cache'.fullEvictableSize = shifted cache node cache' cache.fullEvictableSize fun _ full _ => full = 0
  fullProtected : cache'.fullProtectedSize = shifted cache node cache' cache.fullProtectedSize fun _ full _ => 0 < full
  swaEvictable : cache'.swaEvictableSize =
    shifted cache node cache' cache.swaEvictableSize fun dead _ swa => dead = false ∧ swa = 0
  swaProtected : cache'.swaProtectedSize =
    shifted cache node cache' cache.swaProtectedSize fun dead _ swa => dead = false ∧ 0 < swa

omit [DecidableEq τ] in
theorem Booked.resize (booked : Booked cache) (nodup : cache.fullLru.Nodup) (mem : node ∈ cache.fullLru)
    (same : cache'.fullLru = cache.fullLru) (others : ∀ other ≠ node, cache'.nodes other = cache.nodes other)
    (resized : Resized cache node cache') : Booked cache' := by
  have totals : ∀ which, cache'.total which = shifted cache node cache' (cache.total which) which := fun which =>
    weigh_change (lengthIf which) nodup mem same fun other _ away => by rw [others other away]
  constructor <;> rw [totals]
  · rw [resized.fullEvictable, booked.fullEvictable]
  · rw [resized.fullProtected, booked.fullProtected]
  · rw [resized.swaEvictable, booked.swaEvictable]
  · rw [resized.swaProtected, booked.swaProtected]

omit [DecidableEq τ] in
theorem resized_lockFull : Resized cache node (cache.lockFull node) := by
  constructor <;> rw [shifted, recounts_lockFull.apply, if_pos rfl] <;> simp only [lockFull, modifyNode, share]
  · by_cases first : (cache.nodes node).fullLockRef = 0 <;> simp [first]
  · by_cases first : (cache.nodes node).fullLockRef = 0
    · simp [first]
    · simp [first, Nat.pos_of_ne_zero first]
  · omega
  · omega

section

variable (alive : (cache.nodes node).swaTombstone = false)

include alive

omit [DecidableEq τ]

theorem resized_lockSwa : Resized cache node (cache.lockSwa node) := by
  constructor <;> rw [shifted, recounts_lockSwa.apply, if_pos rfl] <;> simp only [lockSwa, modifyNode, share]
  · omega
  · omega
  · by_cases first : (cache.nodes node).swaLockRef = 0 <;> simp [first, alive]
  · by_cases first : (cache.nodes node).swaLockRef = 0
    · simp [first, alive]
    · simp [first, alive, Nat.pos_of_ne_zero first]

theorem resized_unlockSwa (held : 0 < (cache.nodes node).swaLockRef) : Resized cache node (cache.unlockSwa node) := by
  have counts : (cache.nodes node).swaLockRef - 1 = 0 ↔ (cache.nodes node).swaLockRef = 1 := by omega
  constructor <;> rw [shifted, recounts_unlockSwa.apply, if_pos rfl] <;> simp only [unlockSwa, modifyNode, share]
  · omega
  · omega
  · by_cases last : (cache.nodes node).swaLockRef = 1 <;> simp [last, counts, held.ne', alive]
  · by_cases last : (cache.nodes node).swaLockRef = 1
    · simp [last, alive]
    · have more : 0 < (cache.nodes node).swaLockRef - 1 := by omega
      simp [last, held, more, alive]

theorem resized_unlockSwaOnly (held : 0 < (cache.nodes node).swaLockRef) :
    Resized cache node (cache.unlockSwaOnly cfg node) := by
  by_cases last : (cache.nodes node).swaLockRef = 1
  · by_cases leaf : (cache.nodes node).children.values = []
    · constructor <;> rw [shifted, unlockSwaOnly_nodes, if_pos rfl] <;>
        simp only [unlockSwaOnly, last, leaf, if_true, modifyNode, tombstone, freeSwa, share]
      · omega
      · omega
      · simp
      · simp [alive]
    · constructor <;> rw [shifted, unlockSwaOnly_nodes, if_pos rfl] <;>
        simp only [unlockSwaOnly, last, leaf, if_true, if_false, modifyNode, share]
      · omega
      · omega
      · simp [alive]
      · simp [alive]
  · have more : 0 < (cache.nodes node).swaLockRef - 1 := by omega
    constructor <;> rw [shifted, unlockSwaOnly_nodes, if_pos rfl] <;>
      simp only [unlockSwaOnly, last, if_false, modifyNode, share]
    · omega
    · omega
    · simp [held.ne', more.ne']
    · simp [alive, held, more]

end

section

omit [DecidableEq τ]

theorem resized_unlockFull (held : 0 < (cache.nodes node).fullLockRef) :
    Resized cache node (cache.unlockFull node) := by
  have counts : (cache.nodes node).fullLockRef - 1 = 0 ↔ (cache.nodes node).fullLockRef = 1 := by omega
  constructor <;> rw [shifted, recounts_unlockFull.apply, if_pos rfl] <;> simp only [unlockFull, modifyNode, share]
  · by_cases last : (cache.nodes node).fullLockRef = 1 <;> simp [last, counts, held.ne']
  · by_cases last : (cache.nodes node).fullLockRef = 1
    · simp [last]
    · have more : 0 < (cache.nodes node).fullLockRef - 1 := by omega
      simp [last, held, more]
  · omega
  · omega

/-- Where the pointers and the lists are the same. -/
theorem Linked.congr (linked : Linked cache) (fullLru : cache'.fullLru = cache.fullLru)
    (swaLru : cache'.swaLru = cache.swaLru)
    (fullLinks : cache'.fullLinks = cache.fullLinks) (swaLinks : cache'.swaLinks = cache.swaLinks) : Linked cache' :=
  ⟨fullLinks ▸ fullLru ▸ linked.full, swaLinks ▸ swaLru ▸ linked.swa⟩

theorem Linked.unlockSwaOnly (linked : Linked cache)
    (listed : (cache.nodes node).swaLockRef = 1 → (cache.nodes node).children.values = [] → node ∈ cache.swaLru) :
    Linked (cache.unlockSwaOnly cfg node) := by
  unfold RadixCache.unlockSwaOnly
  dsimp only
  split_ifs with last leaf
  · exact ⟨linked.full, linked.swa.removeNode (listed last leaf)⟩
  · exact linked.congr rfl rfl rfl rfl
  · exact linked.congr rfl rfl rfl rfl

end

/-! ## The walks -/

/-- Sizes and pointers are right, and the tree has these nodes. -/
structure Tallied (members : List ℕ) (cache : RadixCache τ) : Prop where
  same : cache.fullLru = members
  nodup : members.Nodup
  booked : Booked cache
  linked : Linked cache

namespace Tallied

variable {members : List ℕ} (tallied : Tallied members cache) (mem : node ∈ members)

include tallied mem in
omit [DecidableEq τ] in
theorem recount {full swa : ℕ} (recounts : Recounts cache node full swa cache') (resized : Resized cache node cache') :
    Tallied members cache' := by
  obtain ⟨rfl, nodup, booked, linked⟩ := tallied
  have others : ∀ other ≠ node, cache'.nodes other = cache.nodes other := fun other away => by
    rw [recounts.apply, if_neg away]
  have booked := booked.resize nodup mem recounts.relock.slots.fullLru others resized
  rw [recounts.rest] at booked ⊢
  exact ⟨rfl, nodup, booked, linked.congr rfl rfl rfl rfl⟩

include tallied in
omit [DecidableEq τ] in
theorem ensureUuid : Tallied members (cache.ensureUuid node) := by
  obtain ⟨rfl, nodup, booked, linked⟩ := tallied
  have totals : ∀ which, (cache.ensureUuid node).total which = cache.total which := by
    refine fun which => total_perm (relock_ensureUuid.slots.tree.members) fun other _ => ?_
    rw [ensureUuid_nodes]
    split_ifs <;> rfl
  unfold RadixCache.ensureUuid at totals ⊢
  cases uuid : (cache.nodes node).swaUuid with
  | some _ => exact ⟨rfl, nodup, booked, linked⟩
  | none =>
    simp only [uuid] at totals
    exact ⟨rfl, nodup, booked.congr totals ⟨rfl, rfl, rfl, rfl⟩, linked.congr rfl rfl rfl rfl⟩

include tallied mem in
omit [DecidableEq τ] in
theorem unlockSwaOnly (alive : (cache.nodes node).swaTombstone = false) (held : 0 < (cache.nodes node).swaLockRef)
    (listed : (cache.nodes node).swaLockRef = 1 → (cache.nodes node).children.values = [] → node ∈ cache.swaLru) :
    Tallied members (cache.unlockSwaOnly cfg node) := by
  obtain ⟨rfl, nodup, booked, linked⟩ := tallied
  refine ⟨sameSlots_unlockSwaOnly.fullLru, nodup, ?_, linked.unlockSwaOnly listed⟩
  refine booked.resize nodup mem sameSlots_unlockSwaOnly.fullLru (fun other away => ?_)
    (resized_unlockSwaOnly alive held)
  rw [unlockSwaOnly_nodes, if_neg away]

end Tallied

section Walks

variable {members above : List ℕ} {uuid : Option ℕ}

omit [DecidableEq τ]

theorem tallied_incLockRefLoop {size : ℕ} (tallied : Tallied members cache) (within : above ⊆ members) :
    Ensures (incLockRefLoop cfg above size uuid) cache (fun _ cache' => Tallied members cache') fun _ => True := by
  induction above generalizing cache size uuid with
  | nil => exact tallied
  | cons node above ih =>
    obtain ⟨mem, rest⟩ := cons_subset.mp within
    have counted := tallied.recount mem recounts_lockFull resized_lockFull
    rw [incLockRefLoop, ensures_bind, ensures_modify, ensures_bind, ensures_get]
    by_cases isOpen : size < cfg.slidingWindowSize
    · rw [if_pos isOpen]
      refine ensures_ensure_bind (fun alive => ?_) fun _ => trivial
      dsimp only
      rw [ensures_bind, ensures_set]
      have locked := counted.recount mem recounts_lockSwa (resized_lockSwa alive)
      split_ifs
      · rw [ensures_bind, ensures_modify, ensures_bind, ensures_get]
        exact ih locked.ensureUuid rest
      · exact ih locked rest
    · rw [if_neg isOpen]
      exact ih counted rest

theorem tallied_decLockRefLoop {flag : Bool} (tallied : Tallied members cache) (within : above ⊆ members) :
    Ensures (decLockRefLoop uuid above flag) cache (fun _ cache' => Tallied members cache') fun _ => True := by
  induction above generalizing cache flag with
  | nil => exact tallied
  | cons node above ih =>
    obtain ⟨mem, rest⟩ := cons_subset.mp within
    rw [decLockRefLoop, ensures_bind, ensures_get]
    refine ensures_ensure_bind (fun held => ?_) fun _ => trivial
    have released := tallied.recount mem recounts_unlockFull (resized_unlockFull held)
    rw [ensures_bind, ensures_set]
    cases flag with
    | false =>
      rw [if_neg Bool.false_ne_true]
      exact ih released rest
    | true =>
      rw [if_pos rfl, ensures_bind, ensures_get]
      refine ensures_ensure_bind (fun alive => ?_) fun _ => trivial
      refine ensures_ensure_bind (fun window => ?_) fun _ => trivial
      rw [ensures_bind, ensures_set]
      exact ih (released.recount mem recounts_unlockSwa (resized_unlockSwa alive window)) rest

end Walks

/-! ## Windows that a release may exceed -/

/-- A node has no more window locks than windows that reach it, and no release stops before the end of its window. -/
structure Spans (cache : RadixCache τ) (pos : ℕ → ℕ) (locks : List RadixLock) : Prop extends Labels cache where
  swa_le : ∀ node ∈ cache.fullLru, (cache.nodes node).swaLockRef ≤ locks.countP (Reached cache pos node ·)
  stops : ∀ lock ∈ locks, lock.swaHeld = true → ∀ entry ∈ cache.path lock.node,
    endsAt lock.swaUuidForLock (cache.nodes entry).swaUuid = true → pos (cache.nodes entry).parent ≤ lock.top
  issued : ∀ lock ∈ locks, ∀ uuid ∈ lock.swaUuidForLock, uuid ≤ cache.swaUuidCounter

section Counting

variable {α : Type} {first second : α → Prop} [DecidablePred first] [DecidablePred second] {entries : List α}

theorem countP_le_of_imp (less : ∀ entry ∈ entries, first entry → second entry) :
    entries.countP (first ·) ≤ entries.countP (second ·) :=
  countP_mono_left fun entry mem => by simpa only [decide_eq_true_eq] using less entry mem

end Counting

omit [DecidableEq τ] in
theorem covered_of_spans (locked : Locked cache pos locks) (spans : Spans cache pos locks)
    (root : (cache.nodes rootNode).swaLockRef ≤ (cache.nodes rootNode).fullLockRef) : cache.Covered := by
  rintro node (rfl | mem)
  · exact root
  · rw [locked.full node mem]
    exact (spans.swa_le node mem).trans (countP_le_of_imp fun lock _ reached => reached.2.1)

theorem Spans.relocate {pos' : ℕ → ℕ} (spans : Spans cache pos locks) (shape' : Shape cfg cache' pos')
    (relocates : Relocates cache cache' pos pos' locks) (sound : cache'.Sound) : Spans cache' pos' locks where
  toLabels := relocates.labels spans.toLabels sound
  swa_le := fun node mem => by
    rcases relocates.refs node mem with ⟨origin, replaces⟩ | ⟨⟨_, none⟩, _⟩
    · rw [replaces.refs.2]
      exact (spans.swa_le origin replaces.old).trans (countP_le_of_imp fun lock held => replaces.reached held)
    · exact none.trans_le (Nat.zero_le _)
  stops := fun lock held holds entry passed ends => by
    obtain ⟨some, is⟩ := endsAt_iff.mp ends
    obtain ⟨uuid, known⟩ := isSome_iff_exists.mp some
    obtain ⟨moved, uuids⟩ := relocates.uuids
    have mem := (shape'.climb_path (relocates.inTree lock held)).2 passed
    -- the node from which the uuid came starts no higher
    obtain ⟨origin, _, had, _, above, passed'⟩ := uuids entry mem uuid (is.trans known)
    exact above.trans (spans.stops lock held holds origin (passed' lock held passed)
      (endsAt_iff.mpr ⟨some, had.trans known.symm⟩))
  issued := fun lock held uuid is => relocates.counter ▸ spans.issued lock held uuid is

/-- The tree with its locks, whatever has become of the uuids. -/
def Spanned (cfg : RadixConfig) (cache : RadixCache τ) (locks : List RadixLock) : Prop :=
  ∃ pos, Shape cfg cache pos ∧ Locked cache pos locks ∧ Spans cache pos locks

variable {before after : RadixCache τ × List ℕ}

theorem Edit.spanned (edit : Edit cfg before after) (spanned : Spanned cfg before.1 locks) :
    Spanned cfg after.1 locks := by
  obtain ⟨pos, shape, locked, spans⟩ := spanned
  obtain ⟨pos', shape', relocates⟩ := edit.relocates shape locked
  exact ⟨pos', shape', locked.relocate relocates, spans.relocate shape' relocates (edit.sound shape spans.sound)⟩

theorem Edits.spanned (edits : Edits cfg before after) (spanned : Spanned cfg before.1 locks) :
    Spanned cfg after.1 locks := by
  induction edits with
  | refl => exact spanned
  | tail _ edit ih => exact edit.spanned ih

/-! ## Locks and releases -/

omit [DecidableEq τ] in
theorem Spans.perm {locks' : List RadixLock} (spans : Spans cache pos locks) (perm : locks'.Perm locks) :
    Spans cache pos locks' where
  toLabels := spans.toLabels
  swa_le := fun node mem => (spans.swa_le node mem).trans (perm.countP_eq _).ge
  stops := fun lock mem => spans.stops lock (perm.mem_iff.mp mem)
  issued := fun lock mem => spans.issued lock (perm.mem_iff.mp mem)

namespace Incremented

variable {top : ℕ} {uuid : Option ℕ} (incremented : Incremented cache pos node (cache.path node) top uuid cache')

include incremented in
omit [DecidableEq τ] in
private theorem counter_le : cache.swaUuidCounter ≤ cache'.swaUuidCounter := by
  rcases incremented.ends with ⟨_, _, same⟩ | ⟨carrier, _, _, _, same⟩
  · exact same.counter.ge
  · exact le_ensureUuid_counter.trans same.counter.ge

include incremented in
omit [DecidableEq τ] in
/-- A uuid that was issued before is where it was. -/
private theorem uuid_old {entry issued : ℕ} (has : (cache'.nodes entry).swaUuid = some issued)
    (old : issued ≤ cache.swaUuidCounter) : (cache.nodes entry).swaUuid = some issued := by
  rcases incremented.ends with ⟨_, _, same⟩ | ⟨carrier, _, _, _, same⟩
  · rwa [same.uuid] at has
  · rw [same.uuid] at has
    rcases ensureUuid_cases has with had | ⟨_, new, _⟩
    · exact had
    · omega

include incremented in
theorem spans (spans : Spans cache pos locks) (shape : Shape cfg cache pos) (inTree : cache.InTree node) :
    Spans cache' pos (⟨node, uuid, true, top, pos node⟩ :: locks) := by
  have tree := incremented.relock.slots.tree
  have labels := incremented.labels spans.toLabels
  have within := (shape.climb_path inTree).2
  refine ⟨labels, fun entry mem => ?_, fun lock mem holds entry passed ends => ?_, fun lock mem issued is => ?_⟩
  · rw [incremented.swa, countP_cons]
    refine Nat.add_le_add ?_ (le_of_eq (if_congr ?_ rfl rfl))
    · exact (spans.swa_le entry (tree.mem.mp mem)).trans (countP_le_of_imp fun lock _ => tree.reached.mpr)
    · rw [decide_eq_true_eq, tree.reached]
      exact ⟨fun reached => ⟨rfl, reached⟩, fun reached => reached.2⟩
  · rw [tree.path] at passed
    rw [tree.parent]
    obtain ⟨some, has⟩ := endsAt_iff.mp ends
    obtain ⟨issued, is⟩ := isSome_iff_exists.mp some
    rcases mem_cons.mp mem with rfl | mem
    · rcases incremented.ends with ⟨none, _, _⟩ | ⟨carrier, passed', start, carries, _⟩
      · exact absurd (none.symm.trans is) (some_ne_none _).symm
      · have same := labels.unique entry (tree.mem.mpr (within passed)) carrier (tree.mem.mpr (within passed')) issued
          (has.trans is) (carries.symm.trans is)
        rw [same, start]
    · have old := incremented.uuid_old (has.trans is) (spans.issued lock mem issued is)
      exact spans.stops lock mem holds entry passed (endsAt_iff.mpr ⟨some, old.trans is.symm⟩)
  · rcases mem_cons.mp mem with rfl | mem
    · rcases incremented.ends with ⟨none, _, _⟩ | ⟨carrier, passed, _, carries, _⟩
      · exact absurd (none.symm.trans is) (some_ne_none _).symm
      · exact labels.minted carrier (tree.mem.mpr (within passed)) issued (carries.symm.trans is)
    · exact (spans.issued lock mem issued is).trans incremented.counter_le

end Incremented

omit [DecidableEq τ] in
/-- A release of some window that contains the one of the lock. -/
theorem Spans.release {window : List ℕ} (spans : Spans cache pos (lock :: locks)) (tree : SameTree cache cache')
    (uuids : SameUuids cache cache') (sound : cache'.Sound)
    (swa : ∀ entry, (cache'.nodes entry).swaLockRef + (if entry ∈ window then 1 else 0) =
      (cache.nodes entry).swaLockRef)
    (whole : ∀ entry, Reached cache pos entry lock → entry ∈ window) : Spans cache' pos locks where
  toLabels := spans.toLabels.congr tree uuids.uuid uuids.counter sound
  swa_le := fun entry mem => by
    have was := spans.swa_le entry (tree.mem.mp mem)
    have now := swa entry
    rw [countP_cons] at was
    simp only [decide_eq_true_eq] at was
    refine le_trans ?_ (countP_le_of_imp fun other _ => tree.reached.mpr)
    by_cases reached : Reached cache pos entry lock
    · rw [if_pos (whole entry reached)] at now
      rw [if_pos reached] at was
      omega
    · rw [if_neg reached] at was
      omega
  stops := fun other mem holds entry passed ends => by
    rw [tree.path] at passed
    rw [uuids.uuid] at ends
    rw [tree.parent]
    exact spans.stops other (mem_cons_of_mem _ mem) holds entry passed ends
  issued := fun other mem issued is => uuids.counter ▸ spans.issued other (mem_cons_of_mem _ mem) issued is

theorem Spans.mem_windowOf_of_reached (spans : Spans cache pos locks) (shape : Shape cfg cache pos) (mem : lock ∈ locks)
    (inTree : cache.InTree lock.node) {entry : ℕ} (reached : Reached cache pos entry lock) :
    entry ∈ windowOf cache lock.swaUuidForLock (cache.path lock.node) := by
  obtain ⟨walk, within⟩ := shape.climb_path inTree
  exact mem_windowOf shape walk within (spans.stops lock mem reached.1) reached.2.1 reached.2.2

omit [DecidableEq τ] in
theorem Spans.consReleased (spans : Spans cache pos locks) (released : lock.swaHeld = false)
    (issued : ∀ uuid ∈ lock.swaUuidForLock, uuid ≤ cache.swaUuidCounter) : Spans cache pos (lock :: locks) where
  toLabels := spans.toLabels
  swa_le := fun entry mem => by
    rw [countP_cons_of_neg (by simp [Reached, released])]
    exact spans.swa_le entry mem
  stops := fun other mem holds => by
    rcases mem_cons.mp mem with rfl | mem
    · exact absurd (released.symm.trans holds) Bool.false_ne_true
    · exact spans.stops other mem holds
  issued := fun other mem => by
    rcases mem_cons.mp mem with rfl | mem
    · exact issued
    · exact spans.issued other mem

/-- The root is never locked or released. -/
theorem Shape.root_not_mem_path (shape : Shape cfg cache pos) (inTree : cache.InTree node) :
    rootNode ∉ cache.path node :=
  (shape.climb_path inTree).1.root_not_mem

theorem spanned_incLockRef (shape : Shape cfg cache pos) (locked : Locked cache pos locks)
    (spans : Spans cache pos locks) (accounted : Accounted cache) (inTree : cache.InTree node) :
    Ensures (incLockRef cfg node) cache (fun uuid cache' =>
      Spanned cfg cache' (RadixLock.taken cache cache' node uuid :: locks) ∧ Accounted cache' ∧ Relock cache cache')
      fun _ => True := by
  have within := (shape.climb_path inTree).2
  have walk : Ensures (incLockRef cfg node) cache (fun _ cache' => Tallied cache.fullLru cache') fun _ => True := by
    rw [incLockRef, ensures_bind, ensures_get]
    exact tallied_incLockRefLoop ⟨rfl, shape.nodup, accounted.booked, accounted.linked⟩ within
  refine ((ensures_incLockRef_or shape inTree).and walk).mono ?_ fun _ _ => trivial
  rintro uuid cache' ⟨⟨top, incremented⟩, tallied⟩
  have locked' : Locked cache' pos (⟨node, uuid, true, top, pos node⟩ :: locks) :=
    incremented.locked locked inTree rfl rfl
  have spans' := incremented.spans spans shape inTree
  have away := shape.root_not_mem_path inTree
  refine ⟨?_, ⟨spans'.sound, covered_of_spans locked' spans' ?_, tallied.booked, tallied.linked⟩, incremented.relock⟩
  · rw [incremented.taken shape inTree]
    exact ⟨pos, incremented.relock.shape shape, locked', spans'⟩
  · rw [incremented.swa, incremented.full, if_neg away, if_neg fun both => away both.1]
    exact accounted.covered rootNode (.inl rfl)

section

variable (shape : Shape cfg cache pos) (locked : Locked cache pos (lock :: locks))
  (spans : Spans cache pos (lock :: locks)) (accounted : Accounted cache)

include shape locked spans accounted

theorem spanned_decLockRef :
    Ensures (decLockRef lock.node lock.swaUuidForLock !lock.swaHeld) cache (fun _ cache' =>
      Spanned cfg cache' locks ∧ Accounted cache' ∧ Relock cache cache') fun _ => True := by
  have self : lock ∈ lock :: locks := mem_cons_self ..
  have inTree := locked.inTree lock self
  have within := (shape.climb_path inTree).2
  have walk : Ensures (decLockRef lock.node lock.swaUuidForLock !lock.swaHeld) cache
      (fun _ cache' => Tallied cache.fullLru cache') fun _ => True := by
    rw [decLockRef, ensures_bind, ensures_get]
    exact tallied_decLockRefLoop ⟨rfl, shape.nodup, accounted.booked, accounted.linked⟩ within
  refine ((ensures_decLockRef shape inTree (locked.pos_of_mem_path self within)).and walk).mono ?_ fun _ _ => trivial
  rintro _ cache' ⟨decremented, tallied⟩
  have locked' := decremented.locked locked
  have spans' : Spans cache' pos locks := by
    refine spans.release decremented.relock.slots.tree decremented.uuids (decremented.sound spans.sound) decremented.swa
      fun entry reached => ?_
    rw [reached.1, Bool.not_true, if_neg Bool.false_ne_true]
    exact spans.mem_windowOf_of_reached shape self inTree reached
  have away := shape.root_not_mem_path inTree
  have outside : rootNode ∉ if (!lock.swaHeld) = true then [] else
      windowOf cache lock.swaUuidForLock (cache.path lock.node) := by
    split_ifs
    · exact not_mem_nil
    · exact fun inside => away (windowOf_subset inside)
  refine ⟨⟨pos, decremented.relock.shape shape, locked', spans'⟩, ⟨spans'.sound, covered_of_spans locked' spans' ?_,
    tallied.booked, tallied.linked⟩, decremented.relock⟩
  have root := accounted.covered rootNode (.inl rfl)
  have full := decremented.full rootNode
  have swa := decremented.swa rootNode
  rw [if_neg away] at full
  rw [if_neg outside] at swa
  omega

/-- `dec_swa_lock_only` releases the windows of some nodes of the path. -/
theorem spanned_decSwaLockOnly :
    Ensures (decSwaLockOnly cfg lock.node lock.swaUuidForLock) cache (fun _ cache' =>
      Spanned cfg cache' ({ lock with swaHeld := false } :: locks) ∧ Accounted cache' ∧
        ∃ window ⊆ cache.fullLru, cache' = window.foldl (fun cache node => cache.unlockSwaOnly cfg node) cache)
      fun _ => True := by
  have self : lock ∈ lock :: locks := mem_cons_self ..
  have inTree := locked.inTree lock self
  have within := (shape.climb_path inTree).2
  have walk : Ensures (decSwaLockOnly cfg lock.node lock.swaUuidForLock) cache
      (fun _ cache' => Tallied cache.fullLru cache' ∧
        ∃ window ⊆ cache.fullLru, cache' = window.foldl (fun cache node => cache.unlockSwaOnly cfg node) cache)
      fun _ => True := by
    rw [decSwaLockOnly, ensures_bind, ensures_get]
    refine ensures_decSwaLockOnlyLoop_of_step ?_
      ⟨⟨rfl, shape.nodup, accounted.booked, accounted.linked⟩, [], nil_subset _, rfl⟩
    rintro _ ⟨tallied, window, inside, rfl⟩ node passed alive held listed
    refine ⟨tallied.unlockSwaOnly (within passed) alive held listed, window ++ [node],
      append_subset.mpr ⟨inside, cons_subset.mpr ⟨within passed, nil_subset _⟩⟩, ?_⟩
    rw [foldl_append]
    rfl
  refine ((ensures_decSwaLockOnly shape inTree).and walk).mono ?_ fun _ _ => trivial
  rintro _ cache' ⟨unwindowed, tallied, unwound⟩
  have locked' : Locked cache' pos ({ lock with swaHeld := false } :: locks) :=
    locked.unwindow unwindowed.slots.tree unwindowed.full rfl rfl
  have rest := spans.release unwindowed.slots.tree unwindowed.uuids (unwindowed.sound spans.sound) unwindowed.swa
    fun entry reached => spans.mem_windowOf_of_reached shape self inTree reached
  have spans' : Spans cache' pos ({ lock with swaHeld := false } :: locks) := rest.consReleased rfl fun uuid is =>
    unwindowed.uuids.counter ▸ spans.issued lock self uuid is
  refine ⟨⟨pos, unwindowed.shape, locked', spans'⟩, ⟨spans'.sound, covered_of_spans locked' spans' ?_, tallied.booked,
    tallied.linked⟩, unwound⟩
  have root := accounted.covered rootNode (.inl rfl)
  have full := unwindowed.full rootNode
  have swa := unwindowed.swa rootNode
  omega

end

end RadixCache

/-! ## Runs -/

namespace RadixCache

variable {τ : Type} [DecidableEq τ] {cfg : RadixConfig} {cache : RadixCache τ} {pos : ℕ → ℕ}

/-- What the bookkeeping should be, in terms of the tree. -/
structure Bookkeeping (cache : RadixCache τ) : Prop where
  /-- `full_lru_list` holds every node but the root, once. -/
  fullOnce : cache.fullLru.Nodup ∧ ∀ node, node ∈ cache.fullLru ↔ cache.Reaches node ∧ node ≠ rootNode
  /-- `swa_lru_list` holds those that are no tombstones, once. -/
  swaOnce : cache.swaLru.Nodup ∧
    ∀ node, node ∈ cache.swaLru ↔ cache.Reaches node ∧ node ≠ rootNode ∧ (cache.nodes node).swaTombstone = false
  /-- The pointers and dictionaries are those of doubly linked lists of these nodes. -/
  linked : cache.fullLinks.Represents cache.fullLru ∧ cache.swaLinks.Represents cache.swaLru
  fullEvictable : cache.fullEvictableSize =
    tally (fun node => if (cache.nodes node).fullLockRef = 0 then (cache.nodes node).value.length else 0) cache.fullLru
  fullProtected : cache.fullProtectedSize =
    tally (fun node => if 0 < (cache.nodes node).fullLockRef then (cache.nodes node).value.length else 0) cache.fullLru
  swaEvictable : cache.swaEvictableSize =
    tally (fun node => if (cache.nodes node).swaLockRef = 0 then (cache.nodes node).value.length else 0) cache.swaLru
  swaProtected : cache.swaProtectedSize =
    tally (fun node => if 0 < (cache.nodes node).swaLockRef then (cache.nodes node).value.length else 0) cache.swaLru
  tombstones : ∀ node, cache.Reaches node → (cache.nodes node).swaTombstone = true → (cache.nodes node).swaLockRef = 0
  windows : ∀ node, cache.Reaches node → (cache.nodes node).swaLockRef ≤ (cache.nodes node).fullLockRef

/-- The children reach every node of the tree. -/
theorem Shape.reaches (shape : Shape cfg cache pos) {node : ℕ} (inTree : cache.InTree node) : cache.Reaches node :=
  shape.inTree_induction .root (fun _ mem above => .child above (shape.get?_parent mem)) inTree

theorem Shape.mem_fullLru_iff (shape : Shape cfg cache pos) (node : ℕ) :
    node ∈ cache.fullLru ↔ cache.Reaches node ∧ node ≠ rootNode := by
  constructor
  · exact fun mem => ⟨shape.reaches (.inr mem), shape.ne_root mem⟩
  · exact fun reached => (shape.inTree_of_reaches reached.1).resolve_left reached.2

/-- A total over the nodes that are no tombstones is one over `swa_lru_list`. -/
theorem Shape.total_swaLru (shape : Shape cfg cache pos) (which : ℕ → Prop) [DecidablePred which] :
    cache.total (fun dead _ swa => dead = false ∧ which swa) =
      tally (fun node => if which (cache.nodes node).swaLockRef then (cache.nodes node).value.length else 0)
        cache.swaLru := by
  have perm : cache.swaLru.Perm (cache.fullLru.filter fun node => (cache.nodes node).swaTombstone = false) := by
    refine (perm_ext_iff_of_nodup shape.swaNodup (shape.nodup.filter _)).mpr fun node => ?_
    rw [shape.swaMember, mem_filter, decide_eq_true_eq]
  rw [tally_perm perm, tally_filter, total]
  refine tally_congr fun node _ => ?_
  by_cases dead : (cache.nodes node).swaTombstone = false
  · simp [share, dead]
  · simp [share, dead]

theorem Accounted.bookkeeping (accounted : Accounted cache) (shape : Shape cfg cache pos) : Bookkeeping cache where
  fullOnce := ⟨shape.nodup, shape.mem_fullLru_iff⟩
  swaOnce := ⟨shape.swaNodup, fun node => by rw [shape.swaMember, shape.mem_fullLru_iff, and_assoc]⟩
  linked := ⟨accounted.linked.full, accounted.linked.swa⟩
  fullEvictable := by
    rw [accounted.booked.fullEvictable]
    exact tally_congr fun node _ => by simp [share]
  fullProtected := by
    rw [accounted.booked.fullProtected]
    exact tally_congr fun node _ => by simp [share]
  swaEvictable := by rw [accounted.booked.swaEvictable, shape.total_swaLru fun swa => swa = 0]
  swaProtected := by rw [accounted.booked.swaProtected, shape.total_swaLru fun swa => 0 < swa]
  tombstones := fun node reached dead => by
    rcases shape.inTree_of_reaches reached with rfl | mem
    · exact absurd (shape.rootAlive.symm.trans dead) Bool.false_ne_true
    · exact accounted.sound node mem dead
  windows := fun node reached => accounted.covered node (shape.inTree_of_reaches reached)

/-- What a call that has returned has done to the tree. -/
inductive Moves (cfg : RadixConfig) (cache : RadixCache τ) : LockServer.TreeCall τ → RadixCache τ → Prop
  | edit {call : LockServer.TreeCall τ} {cache' : RadixCache τ} :
      Edits cfg (cache, []) (cache', []) → Moves cfg cache call cache'
  | insert {key : List τ} {value : List ℕ} {prevPrefixLen swaEvictedSeqlen skip : ℕ} {pos : ℕ → ℕ}
    {cache' : RadixCache τ} :
      Shape cfg cache pos → Passed cfg prevPrefixLen key cache pos rootNode value skip cache' [] →
      (swaEvictedSeqlen ≤ key.length → Refills cache cache' (value.drop swaEvictedSeqlen)) →
      Moves cfg cache (.call (.insert key value prevPrefixLen swaEvictedSeqlen)) cache'
  | relock {call : LockServer.TreeCall τ} {cache' : RadixCache τ} : Relock cache cache' → Moves cfg cache call cache'
  | unwind {call : LockServer.TreeCall τ} {window : List ℕ} : window ⊆ cache.fullLru →
      Moves cfg cache call (window.foldl (fun cache node => cache.unlockSwaOnly cfg node) cache)

end RadixCache

namespace LockServer

open RadixCache

variable {τ : Type} [DecidableEq τ] {cfg : RadixConfig} {server : LockServer τ}

/-- The tree, its locks and its bookkeeping; the node of the last match is in the tree. -/
structure Orderly (cfg : RadixConfig) (server : LockServer τ) : Prop where
  spanned : Spanned cfg server.cache server.locks
  accounted : Accounted server.cache
  registered : ∀ node ∈ server.matched, server.cache.InTree node

theorem orderly_init (allocator : KvAllocator) : Orderly cfg (init allocator : LockServer τ) := by
  have consistent : Consistent cfg (init allocator : LockServer τ) := consistent_init allocator
  obtain ⟨pos, shape, locked, windows⟩ := consistent.guarded
  have none : ∀ lock, lock ∉ (init allocator : LockServer τ).locks := fun _ => not_mem_nil
  refine ⟨⟨pos, shape, locked, windows.toLabels, fun node mem => ?_, fun lock held => ?_, fun lock held => ?_⟩,
    ⟨windows.sound, ?_, ⟨rfl, rfl, rfl, rfl⟩, ⟨LinkedList.represents_empty, LinkedList.represents_empty⟩⟩,
    fun node is => ?_⟩
  · exact absurd mem not_mem_nil
  · exact absurd held (none lock)
  · exact absurd held (none lock)
  · exact fun _ _ => le_rfl
  · exact absurd is (not_mem_none _)

omit [DecidableEq τ] in
/-- What a call ensures holds after it, unless it has raised. -/
theorem perform_of_ensures {α : Type} {call : CacheM τ α} {note : RadixCache τ → α → LockServer τ}
    {post : α → RadixCache τ → Prop} {fails : RadixCache τ → Prop} {good : LockServer τ → Prop}
    (ensured : Ensures call server.cache post fails)
    (noted : ∀ result cache, post result cache → good (note cache result)) :
    (server.perform call note).raised = false → good (server.perform call note) := by
  unfold perform
  exact ensured.elim (fun result cache holds _ => noted result cache holds)
    fun _ _ _ running => absurd running.symm Bool.false_ne_true

theorem Orderly.edits {server' : LockServer τ} {value pending : List ℕ} (orderly : Orderly cfg server)
    (edits : Edits cfg (server.cache, value) (server'.cache, pending)) (same : server'.locks = server.locks)
    (registered : ∀ node ∈ server'.matched, server'.cache.InTree node) : Orderly cfg server' := by
  obtain ⟨pos, shape, _⟩ := orderly.spanned
  exact ⟨same ▸ edits.spanned orderly.spanned, edits.accounted shape orderly.accounted, registered⟩

/-- What a call that returns does. -/
structure Advances (cfg : RadixConfig) (server : LockServer τ) (call : TreeCall τ) (server' : LockServer τ) : Prop where
  orderly : Orderly cfg server'
  moves : Moves cfg server.cache call server'.cache

theorem Advances.refl (orderly : Orderly cfg server) (call : TreeCall τ) : Advances cfg server call server :=
  ⟨orderly, .relock (.refl _)⟩

private theorem step_advances (call : CacheCall τ) (aligned : Aligned cfg call) (orderly : Orderly cfg server)
    (before : server.raised = false) :
    (step cfg server call).raised = false → Advances cfg server (.call call) (step cfg server call) := by
  obtain ⟨pos, shape, locked, spans⟩ := orderly.spanned
  have registered := orderly.registered
  unfold step
  rw [before, if_neg Bool.false_ne_true]
  cases call with
  | matchPrefix key =>
    dsimp only
    have ensured : Ensures (matchPrefix cfg key) server.cache _ fun _ => True := ensures_matchPrefix shape
    refine perform_of_ensures ensured ?_
    rintro result cache ⟨pos', reshapes, shape', matched⟩
    refine ⟨orderly.edits reshapes.edits rfl fun node is => ?_, .edit reshapes.edits⟩
    obtain rfl := some_inj.mp is
    exact matched.inTree
  | insert key value prevPrefixLen swaEvictedSeqlen =>
    dsimp only
    obtain ⟨length, keyAligned, evictedAligned⟩ := aligned
    refine perform_of_ensures (ensures_insert shape length keyAligned evictedAligned) ?_
    rintro result cache ⟨pos', skip, shape', passed, refills⟩
    exact ⟨orderly.edits passed.edits rfl fun node is => absurd is (not_mem_none _), .insert shape passed refills⟩
  | evict numTokens swaNumTokens =>
    dsimp only
    refine perform_of_ensures (ensures_evict shape orderly.accounted.sound numTokens swaNumTokens) ?_
    intro result cache evicted
    exact ⟨orderly.edits evicted.edits rfl fun node is => absurd is (not_mem_none _), .edit evicted.edits⟩
  | incLockRef =>
    dsimp only
    cases matched : server.matched with
    | none => exact fun _ => .refl orderly _
    | some node =>
      dsimp only
      have inTree := registered node matched
      refine perform_of_ensures (spanned_incLockRef shape locked spans orderly.accounted inTree) ?_
      rintro uuid cache ⟨spanned, accounted, relock⟩
      exact ⟨⟨spanned, accounted, fun other is => relock.slots.tree.inTree.mpr (registered other (matched.trans is))⟩,
        .relock relock⟩
  | decLockRef index =>
    dsimp only
    cases found : server.locks[index]? with
    | none => exact fun _ => .refl orderly _
    | some lock =>
      dsimp only
      have perm := perm_of_getElem? found
      refine perform_of_ensures
        (spanned_decLockRef shape (locked.perm perm.symm) (spans.perm perm.symm) orderly.accounted) ?_
      rintro _ cache ⟨spanned, accounted, relock⟩
      exact ⟨⟨spanned, accounted, fun other is => relock.slots.tree.inTree.mpr (registered other is)⟩, .relock relock⟩
  | decSwaLockOnly index =>
    dsimp only
    cases found : server.locks[index]? with
    | none => exact fun _ => .refl orderly _
    | some lock =>
      dsimp only
      by_cases holds : lock.swaHeld = true
      · rw [if_pos holds]
        have perm := perm_of_getElem? found
        have perm' := set_perm_cons_eraseIdx (List.getElem?_eq_some_iff.mp found).1 { lock with swaHeld := false }
        refine perform_of_ensures
          (spanned_decSwaLockOnly shape (locked.perm perm.symm) (spans.perm perm.symm) orderly.accounted) ?_
        rintro _ cache ⟨⟨pos', shape', locked', spans'⟩, accounted, window, within, rfl⟩
        exact ⟨⟨⟨pos', shape', locked'.perm perm', spans'.perm perm'⟩, accounted,
          fun other is => absurd is (not_mem_none _)⟩, .unwind within⟩
      · rw [if_neg holds]
        exact fun _ => .refl orderly _

theorem treeStep_advances (call : TreeCall τ) (aligned : TreeAligned cfg call) (orderly : Orderly cfg server)
    (before : server.raised = false) :
    (treeStep cfg server call).raised = false → Advances cfg server call (treeStep cfg server call) := by
  cases call with
  | call call => exact step_advances call aligned orderly before
  | lockNode node =>
    unfold treeStep
    dsimp only
    by_cases refused : server.raised = true ∨ ¬(node = rootNode ∨ node ∈ server.cache.fullLru)
    · rw [if_pos refused]
      exact fun _ => .refl orderly _
    · rw [if_neg refused]
      have inTree : server.cache.InTree node := not_not.mp (not_or.mp refused).2
      obtain ⟨pos, shape, locked, spans⟩ := orderly.spanned
      refine perform_of_ensures (spanned_incLockRef shape locked spans orderly.accounted inTree) ?_
      rintro uuid cache ⟨spanned, accounted, relock⟩
      exact ⟨⟨spanned, accounted, fun other is => relock.slots.tree.inTree.mpr (orderly.registered other is)⟩,
        .relock relock⟩

/-- After a failed assert nothing happens. -/
theorem treeStep_raised (call : TreeCall τ) (raised : server.raised = true) : treeStep cfg server call = server := by
  cases call with
  | call call => simp [treeStep, step, raised]
  | lockNode node => simp [treeStep, raised]

theorem orderly_run (allocator : KvAllocator) (calls : List (TreeCall τ))
    (aligned : ∀ call ∈ calls, TreeAligned cfg call)
    (returned : (run (treeStep cfg) (init allocator) calls).raised = false) :
    Orderly cfg (run (treeStep cfg) (init allocator) calls) := by
  have admitted : Along (treeStep cfg) (fun _ call => TreeAligned cfg call) (init allocator) calls :=
    along_of_forall aligned
  refine @Along.invariant _ _ _ _ (fun server => server.raised = false → Orderly cfg server) _ _ admitted
    (fun _ => orderly_init allocator) (fun server call before allowed => ?_) returned
  cases raised : server.raised with
  | false => exact fun returned => (treeStep_advances call allowed (before raised) raised returned).orderly
  | true =>
    rw [treeStep_raised call raised]
    exact before

/-- After every history of matches, insertions, evictions, locks of any nodes and their releases that has raised
nothing, the sizes, the lock counts and the lists are right. -/
theorem radix_bookkeeping (cfg : RadixConfig) (allocator : KvAllocator) (calls : List (TreeCall τ))
    (aligned : ∀ call ∈ calls, TreeAligned cfg call)
    (returned : (run (treeStep cfg) (init allocator) calls).raised = false) :
    (run (treeStep cfg) (init allocator) calls).cache.Bookkeeping := by
  obtain ⟨⟨pos, shape, _⟩, accounted, _⟩ := orderly_run allocator calls aligned returned
  exact accounted.bookkeeping shape

/-- A run with a lock, an early release of its window and an eviction. -/
def evictionRun : List (TreeCall ℕ) :=
  [.call (.insert [1, 2, 3] [4, 5, 6] 0 0), .call (.matchPrefix [1, 2]), .call .incLockRef, .lockNode 2,
    .call (.decSwaLockOnly 0), .call (.evict 1 3)]

theorem radix_bookkeeping_on_eviction :
    (run (treeStep (.standard 1 2 (by decide) (by decide))) (init (.clear 1 8 8 false)) evictionRun).raised = false ∧
    (run (treeStep (.standard 1 2 (by decide) (by decide)))
      (init (.clear 1 8 8 false)) evictionRun).cache.Bookkeeping :=
  have returned : (run (treeStep (.standard 1 2 (by decide) (by decide))) (init (.clear 1 8 8 false))
      evictionRun).raised = false := by decide +kernel
  ⟨returned, radix_bookkeeping _ _ _ (by decide) returned⟩

/-- In every state the walks of `LRUList` along the pointers find what the eviction reads off the sequences. -/
theorem lru_walks_follow_sequences (cfg : RadixConfig) (allocator : KvAllocator) (calls : List (TreeCall τ))
    (aligned : ∀ call ∈ calls, TreeAligned cfg call)
    (returned : (run (treeStep cfg) (init allocator) calls).raised = false) (free : ℕ → Bool) :
    let cache := (run (treeStep cfg) (init allocator) calls).cache
    ∀ list ∈ [(cache.fullLinks, cache.fullLru), (cache.swaLinks, cache.swaLru)],
      list.1.getPrev free (list.2.length + 1) .tail = lruOf list.2 free ∧
        ∀ node ∈ list.2, list.1.getPrev free (list.2.length + 1) (.entry node) = prevOf list.2 free node := by
  obtain ⟨⟨pos, shape, _⟩, accounted, _⟩ := orderly_run allocator calls aligned returned
  obtain ⟨full, swa⟩ := (accounted.bookkeeping shape).linked
  simp only [mem_cons, not_mem_nil, or_false, forall_eq_or_imp, forall_eq]
  exact ⟨⟨full.lruOf_eq, fun _ => full.prevOf_eq⟩, swa.lruOf_eq, fun _ => swa.prevOf_eq⟩

theorem lru_walks_follow_sequences_on_eviction :
    let cfg := RadixConfig.standard 1 2 (by decide) (by decide)
    let cache := (run (treeStep cfg) (init (.clear 1 8 8 false)) evictionRun).cache
    ∀ free, cache.fullLinks.getPrev free (cache.fullLru.length + 1) .tail = lruOf cache.fullLru free := by
  intro cfg cache free
  have returned : (run (treeStep cfg) (init (.clear 1 8 8 false)) evictionRun).raised = false := by decide +kernel
  exact (lru_walks_follow_sequences cfg _ evictionRun (by decide) returned free _ mem_cons_self).1

end LockServer

end FlashMemory
