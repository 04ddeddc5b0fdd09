import FlashMemory.Soundness.RadixEdits
import FlashMemory.Model.RadixLocks

/-! # Locks and the changes of the tree

`full_lock_ref` of a node counts the locks whose path passes it, and `swa_lock_ref` those whose window reaches up to it.
A lock finds the upper end of its window by the uuid on a node. Splitting moves the uuid to the upper part, which
starts where the node started. A merge keeps the uuid of the child: by the counts no window ends at a child that can be
merged, so only an idle uuid of the child can replace that of the node.
-/

namespace FlashMemory

open List

namespace RadixCache

variable {τ : Type} [DecidableEq τ] {cfg : RadixConfig} {cache cache' : RadixCache τ} {pos : ℕ → ℕ}
  {locks : List RadixLock}
variable {lock : RadixLock} {node : ℕ}

/-- The locks on the full slots. -/
structure Locked (cache : RadixCache τ) (pos : ℕ → ℕ) (locks : List RadixLock) : Prop where
  inTree : ∀ lock ∈ locks, cache.InTree lock.node
  bottom : ∀ lock ∈ locks, pos lock.node = lock.bottom
  full : ∀ node ∈ cache.fullLru,
    (cache.nodes node).fullLockRef = locks.countP fun lock => node ∈ cache.path lock.node

/-- Does the window of the lock reach up to this node? -/
def Reached (cache : RadixCache τ) (pos : ℕ → ℕ) (node : ℕ) (lock : RadixLock) : Prop :=
  lock.swaHeld = true ∧ node ∈ cache.path lock.node ∧ lock.top ≤ pos (cache.nodes node).parent

instance (node : ℕ) : DecidablePred (Reached cache pos node) := fun _ =>
  inferInstanceAs (Decidable (_ ∧ _ ∧ _))

/-- The window of the lock ends at the root, or at the node with its uuid. -/
def Marked (cache : RadixCache τ) (pos : ℕ → ℕ) (lock : RadixLock) : Prop :=
  lock.swaUuidForLock = none ∧ lock.top = 0 ∨
    ∃ node ∈ cache.path lock.node, lock.swaUuidForLock.isSome ∧
      (cache.nodes node).swaUuid = lock.swaUuidForLock ∧ pos (cache.nodes node).parent = lock.top

/-- No window lock on a tombstone, and no uuid on two nodes. -/
structure Labels (cache : RadixCache τ) : Prop where
  sound : cache.Sound
  unique : ∀ first ∈ cache.fullLru, ∀ second ∈ cache.fullLru, ∀ uuid, (cache.nodes first).swaUuid = some uuid →
    (cache.nodes second).swaUuid = some uuid → first = second
  minted : ∀ node ∈ cache.fullLru, ∀ uuid, (cache.nodes node).swaUuid = some uuid → uuid ≤ cache.swaUuidCounter

/-- The locks on the windows. -/
structure Windows (cache : RadixCache τ) (pos : ℕ → ℕ) (locks : List RadixLock) : Prop extends Labels cache where
  swa : ∀ node ∈ cache.fullLru, (cache.nodes node).swaLockRef = locks.countP (Reached cache pos node ·)
  marked : ∀ lock ∈ locks, lock.swaHeld = true → cache.Marked pos lock

omit [DecidableEq τ] in
theorem Locked.perm {locks' : List RadixLock} (locked : Locked cache pos locks) (perm : locks'.Perm locks) :
    Locked cache pos locks' where
  inTree := fun lock mem => locked.inTree lock (perm.mem_iff.mp mem)
  bottom := fun lock mem => locked.bottom lock (perm.mem_iff.mp mem)
  full := fun node mem => (locked.full node mem).trans (perm.countP_eq _).symm

omit [DecidableEq τ] in
theorem Windows.perm {locks' : List RadixLock} (windows : Windows cache pos locks) (perm : locks'.Perm locks) :
    Windows cache pos locks' where
  toLabels := windows.toLabels
  swa := fun node mem => (windows.swa node mem).trans (perm.countP_eq _).symm
  marked := fun lock mem => windows.marked lock (perm.mem_iff.mp mem)

/-! ## Counting -/

section Counting

variable {α : Type} {first second : α → Prop} [DecidablePred first] [DecidablePred second] {entries : List α}

theorem countP_iff (same : ∀ entry ∈ entries, first entry ↔ second entry) :
    entries.countP (first ·) = entries.countP (second ·) :=
  countP_congr fun entry mem => by simpa only [decide_eq_true_eq] using same entry mem

/-- Two counts that agree, one of which counts less. -/
theorem countP_eq_imp (less : ∀ entry ∈ entries, first entry → second entry)
    (same : entries.countP (first ·) = entries.countP (second ·)) : ∀ entry ∈ entries, second entry → first entry := by
  induction entries with
  | nil => exact fun entry mem => absurd mem not_mem_nil
  | cons head tail ih =>
    have less' : ∀ entry ∈ tail, first entry → second entry := (forall_mem_cons.mp less).2
    have le : tail.countP (first ·) ≤ tail.countP (second ·) :=
      countP_mono_left fun entry mem => by simpa only [decide_eq_true_eq] using less' entry mem
    have here := less head (mem_cons_self ..)
    simp only [countP_cons, decide_eq_true_eq] at same
    intro entry mem counted
    rcases mem_cons.mp mem with rfl | mem
    · by_contra not
      rw [if_neg not, if_pos counted] at same
      omega
    · refine ih less' ?_ entry mem counted
      split_ifs at same with one two
      · omega
      · exact absurd (here one) two
      · omega
      · omega

/-- The rest is counted separately. -/
private theorem countP_add_countP_not (less : ∀ entry ∈ entries, first entry → second entry) :
    entries.countP (first ·) + entries.countP (fun entry => second entry ∧ ¬first entry) =
      entries.countP (second ·) := by
  induction entries with
  | nil => rfl
  | cons head tail ih =>
    have here := less head (mem_cons_self ..)
    have tails := ih (forall_mem_cons.mp less).2
    simp only [countP_cons, decide_eq_true_eq]
    by_cases one : first head
    · simp only [one, here one, not_true_eq_false, and_false, if_true, if_false]
      omega
    · by_cases two : second head <;> simp only [one, two, not_false_eq_true, and_true, if_true, if_false] <;> omega

/-- Kinds that exclude each other are counted one by one. -/
theorem sum_countP_le {β : Type} {kinds : List β} (kind : β → α → Prop) [∀ b, DecidablePred (kind b)]
    (distinct : kinds.Nodup)
    (exclusive : ∀ entry ∈ entries, ∀ b ∈ kinds, ∀ c ∈ kinds, kind b entry → kind c entry → b = c)
    (less : ∀ entry ∈ entries, ∀ b ∈ kinds, kind b entry → second entry) :
    kinds.foldr (fun b total => entries.countP (kind b ·) + total) 0 ≤ entries.countP (second ·) := by
  induction kinds generalizing second with
  | nil => exact Nat.zero_le _
  | cons b kinds ih =>
    have apart := (nodup_cons.mp distinct).1
    have rest := @ih (fun entry => second entry ∧ ¬kind b entry) _ (nodup_cons.mp distinct).2
      (fun entry mem c here d there => exclusive entry mem c (mem_cons_of_mem _ here) d (mem_cons_of_mem _ there))
      fun entry mem c here counted => by
        refine ⟨less entry mem c (mem_cons_of_mem _ here) counted, fun other => apart ?_⟩
        rw [exclusive entry mem b (mem_cons_self ..) c (mem_cons_of_mem _ here) other counted]
        exact here
    rw [foldr_cons, ← countP_add_countP_not fun entry mem => less entry mem b (mem_cons_self ..)]
    exact Nat.add_le_add_left rest _

end Counting

/-! ## Changes of the tree -/

section

omit [DecidableEq τ]

theorem SameTree.reached (same : SameTree cache cache') :
    Reached cache' pos node lock ↔ Reached cache pos node lock := by
  rw [Reached, Reached, same.path, same.parent]

/-- Every uuid was on an old node, and no two of them come from different ones. -/
theorem Labels.moved (labels : Labels cache) (sound : cache'.Sound)
    (counter : cache'.swaUuidCounter = cache.swaUuidCounter)
    (moved : ℕ → ℕ) (origins : ∀ node ∈ cache'.fullLru, ∀ uuid, (cache'.nodes node).swaUuid = some uuid →
      ∃ origin ∈ cache.fullLru, (cache.nodes origin).swaUuid = some uuid ∧ node = moved origin) : Labels cache' where
  sound := sound
  unique := fun first here second there uuid has has' => by
    obtain ⟨origin, old, had, rfl⟩ := origins first here uuid has
    obtain ⟨origin', old', had', rfl⟩ := origins second there uuid has'
    rw [labels.unique origin old origin' old' uuid had had']
  minted := fun node here uuid has => by
    obtain ⟨origin, old, had, _⟩ := origins node here uuid has
    exact counter ▸ labels.minted origin old uuid had

theorem Labels.congr (labels : Labels cache) (same : SameTree cache cache')
    (uuids : ∀ node, (cache'.nodes node).swaUuid = (cache.nodes node).swaUuid)
    (counter : cache'.swaUuidCounter = cache.swaUuidCounter) (sound : cache'.Sound) : Labels cache' :=
  labels.moved sound counter id fun node mem _ has => ⟨node, same.mem.mp mem, (uuids node).symm.trans has, rfl⟩

end

/-- No node of a path starts inside another one. -/
theorem Shape.start_le (shape : Shape cfg cache pos) {start first second : ℕ} (inTree : cache.InTree start)
    (passed : first ∈ cache.path start) (passed' : second ∈ cache.path start)
    (inside : pos (cache.nodes first).parent < pos second) :
    pos (cache.nodes first).parent ≤ pos (cache.nodes second).parent := by
  have falls := shape.falls inTree
  rcases (shape.climb_path inTree).1.comparable falls passed passed' with rfl | above | below
  · exact le_rfl
  · exact (falls first passed).le.trans above
  · exact absurd inside (not_lt.mpr below)

/-- No window ends inside a node. -/
theorem Marked.top_le (marked : cache.Marked pos lock) (shape : Shape cfg cache pos)
    (inTree : cache.InTree lock.node) (passed : node ∈ cache.path lock.node) (inside : lock.top < pos node) :
    lock.top ≤ pos (cache.nodes node).parent := by
  rcases marked with ⟨_, top⟩ | ⟨carrier, passed', _, _, top⟩
  · exact top.le.trans (Nat.zero_le _)
  · rw [← top] at inside ⊢
    exact shape.start_le inTree passed' passed inside

/-- The locks that still hold their windows have uuids that no merge has replaced. -/
def UuidsKept (cache : RadixCache τ) (locks : List RadixLock) : Prop :=
  ∀ lock ∈ locks, lock.swaHeld = true → ∀ uuid ∈ lock.swaUuidForLock, uuid ∉ cache.lostUuids

section Relocates

variable (cache cache' : RadixCache τ) (pos pos' : ℕ → ℕ) (locks : List RadixLock)

/-- The node has the locks of an old one, and starts inside of it. -/
structure Replaces (node origin : ℕ) : Prop where
  old : origin ∈ cache.fullLru
  refs : (cache'.nodes node).fullLockRef = (cache.nodes origin).fullLockRef ∧
    (cache'.nodes node).swaLockRef = (cache.nodes origin).swaLockRef
  passed : ∀ lock ∈ locks, node ∈ cache'.path lock.node ↔ origin ∈ cache.path lock.node
  start : pos (cache.nodes origin).parent ≤ pos' (cache'.nodes node).parent
  inside : pos' (cache'.nodes node).parent < pos origin

/-- Every node has the locks of an old one or none, every uuid was on an old node, and the windows find theirs again. -/
structure Relocates : Prop where
  inTree : ∀ lock ∈ locks, cache'.InTree lock.node
  bottom : ∀ lock ∈ locks, pos' lock.node = pos lock.node
  refs : ∀ node ∈ cache'.fullLru, (∃ origin, Replaces cache cache' pos pos' locks node origin) ∨
    ((cache'.nodes node).fullLockRef = 0 ∧ (cache'.nodes node).swaLockRef = 0) ∧
    ∀ lock ∈ locks, node ∉ cache'.path lock.node
  uuids : ∃ moved : ℕ → ℕ, ∀ node ∈ cache'.fullLru, ∀ uuid, (cache'.nodes node).swaUuid = some uuid →
    ∃ origin ∈ cache.fullLru, (cache.nodes origin).swaUuid = some uuid ∧ node = moved origin ∧
      pos' (cache'.nodes node).parent ≤ pos (cache.nodes origin).parent ∧
      ∀ lock ∈ locks, node ∈ cache'.path lock.node → origin ∈ cache.path lock.node
  counter : cache'.swaUuidCounter = cache.swaUuidCounter
  marked : Windows cache pos locks → UuidsKept cache' locks → ∀ lock ∈ locks, lock.swaHeld = true →
    cache'.Marked pos' lock

variable {cache cache' pos pos' locks}

theorem Replaces.of_start (shape : Shape cfg cache pos) {origin : ℕ} (old : origin ∈ cache.fullLru)
    (refs : (cache'.nodes node).fullLockRef = (cache.nodes origin).fullLockRef ∧
      (cache'.nodes node).swaLockRef = (cache.nodes origin).swaLockRef)
    (passed : ∀ lock ∈ locks, node ∈ cache'.path lock.node ↔ origin ∈ cache.path lock.node)
    (start : pos' (cache'.nodes node).parent = pos (cache.nodes origin).parent) :
    Replaces cache cache' pos pos' locks node origin :=
  ⟨old, refs, passed, start.ge, start.trans_lt (shape.parent_pos_lt old)⟩

section

omit [DecidableEq τ]

/-- A window that reached the old node reaches the new one. -/
theorem Replaces.reached {origin : ℕ} (replaces : Replaces cache cache' pos pos' locks node origin)
    (held : lock ∈ locks) (reached : Reached cache pos origin lock) : Reached cache' pos' node lock :=
  ⟨reached.1, (replaces.passed lock held).mpr reached.2.1, reached.2.2.trans replaces.start⟩

theorem Locked.relocate (locked : Locked cache pos locks) (relocates : Relocates cache cache' pos pos' locks) :
    Locked cache' pos' locks where
  inTree := relocates.inTree
  bottom := fun lock held => (relocates.bottom lock held).trans (locked.bottom lock held)
  full := fun node mem => by
    rcases relocates.refs node mem with ⟨origin, replaces⟩ | ⟨⟨none, _⟩, off⟩
    · rw [replaces.refs.1, locked.full origin replaces.old]
      exact countP_iff fun lock held => (replaces.passed lock held).symm
    · rw [none, eq_comm, countP_eq_zero]
      simpa only [decide_eq_true_eq] using off

theorem Relocates.labels (relocates : Relocates cache cache' pos pos' locks) (labels : Labels cache)
    (sound : cache'.Sound) : Labels cache' := by
  obtain ⟨moved, uuids⟩ := relocates.uuids
  refine labels.moved sound relocates.counter moved fun node mem uuid has => ?_
  obtain ⟨origin, old, had, is, _⟩ := uuids node mem uuid has
  exact ⟨origin, old, had, is⟩

end

theorem Windows.relocate (windows : Windows cache pos locks) (locked : Locked cache pos locks)
    (shape : Shape cfg cache pos)
    (relocates : Relocates cache cache' pos pos' locks) (sound : cache'.Sound) (kept : UuidsKept cache' locks) :
    Windows cache' pos' locks where
  toLabels := relocates.labels windows.toLabels sound
  swa := fun node mem => by
    rcases relocates.refs node mem with ⟨origin, replaces⟩ | ⟨⟨_, none⟩, off⟩
    · rw [replaces.refs.2, windows.swa origin replaces.old]
      refine countP_iff fun lock held => ⟨replaces.reached held, fun ⟨holds, passed, above⟩ => ?_⟩
      have passed := (replaces.passed lock held).mp passed
      exact ⟨holds, passed, (windows.marked lock held holds).top_le shape (locked.inTree lock held) passed
        (above.trans_lt replaces.inside)⟩
    · rw [none, eq_comm, countP_eq_zero]
      simp only [decide_eq_true_eq]
      exact fun lock held reached => off lock held reached.2.1
  marked := relocates.marked windows kept

theorem relocates_of_sameTree (locked : Locked cache pos locks) (shape : Shape cfg cache pos)
    (same : SameTree cache cache') (counts : SameLocks cache cache') : Relocates cache cache' pos pos locks where
  inTree := fun lock mem => same.inTree.mpr (locked.inTree lock mem)
  bottom := fun _ _ => rfl
  refs := fun node mem => .inl ⟨node, .of_start shape (same.mem.mp mem) ⟨counts.full node, counts.swa node⟩
    (fun lock _ => by rw [same.path]) (by rw [same.parent])⟩
  uuids := ⟨id, fun node mem uuid has => ⟨node, same.mem.mp mem, (counts.uuid node).symm.trans has, rfl,
    by rw [same.parent], fun lock _ passed => same.path ▸ passed⟩⟩
  counter := counts.counter
  marked := fun windows _ lock mem held => by
    simp only [Marked, same.path, same.parent, counts.uuid]
    exact windows.marked lock mem held

end Relocates

/-! ## Splitting -/

section Split

variable {child k : ℕ} (shape : Shape cfg cache pos) (splits : Splits cfg cache child k)

include shape splits

private theorem mem_path_split_counter {start : ℕ} (inTree : cache.InTree start) :
    cache.counter ∈ (cache.split cfg child k).path start ↔ child ∈ cache.path start := by
  have fresh : cache.counter ∉ cache.path start := fun old => shape.counter_not_mem ((shape.climb_path inTree).2 old)
  rw [shape.mem_path_split splits inTree]
  simp [fresh]

private theorem mem_path_split_old {start : ℕ} (inTree : cache.InTree start) (old : node ∈ cache.fullLru) :
    node ∈ (cache.split cfg child k).path start ↔ node ∈ cache.path start := by
  rw [shape.mem_path_split splits inTree]
  simp [shape.ne_counter (.inr old)]

theorem relocates_split (locked : Locked cache pos locks) :
    Relocates cache (cache.split cfg child k) pos (splitPos cache pos child k) locks := by
  have mem := splits.member
  have isChild := shape.split_child splits
  have isNew := shape.split_counter splits
  have start {node : ℕ} (old : node ∈ cache.fullLru) :=
    @Shape.splitPos_inTree _ _ cfg cache pos child k _ shape (shape.parent node old)
  have passedNew (lock) (held : lock ∈ locks) := mem_path_split_counter shape splits (locked.inTree lock held)
  have passedOld {node : ℕ} (old : node ∈ cache.fullLru) (lock) (held : lock ∈ locks) :=
    mem_path_split_old shape splits (locked.inTree lock held) old
  refine ⟨fun lock held => Shape.inTree_split mem (locked.inTree lock held),
    fun lock held => shape.splitPos_inTree (locked.inTree lock held), ?refs, ?uuids, rfl, ?marked⟩
  case refs =>
    refine shape.split_cases mem (.inl ⟨child, ?_⟩) (.inl ⟨child, ?_⟩) fun node old notChild notNew => .inl ⟨node, ?_⟩
    · exact .of_start shape mem (by rw [isNew]; exact ⟨rfl, rfl⟩) passedNew (by rw [isNew, start mem])
    · have short := splits.short
      have childPos := shape.position child mem
      refine ⟨mem, by rw [isChild]; exact ⟨rfl, rfl⟩, passedOld mem, ?_, ?_⟩ <;>
        rw [isChild, splitPos_counter] <;> omega
    · have is := @split_other _ _ cfg cache child k node notChild notNew
      exact .of_start shape old (by rw [is]; exact ⟨rfl, rfl⟩) (passedOld old) (by rw [is, start old])
  case uuids =>
    -- the uuid of the node moves up to the new one
    refine ⟨fun origin => if origin = child then cache.counter else origin, ?_⟩
    refine shape.split_cases mem (fun uuid has => ?_) (fun uuid none => ?_) fun node old notChild notNew uuid has => ?_
    · rw [isNew] at has ⊢
      exact ⟨child, mem, has, (if_pos rfl).symm, (start mem).le, fun lock held => (passedNew lock held).mp⟩
    · rw [isChild] at none
      exact absurd none.symm (Option.some_ne_none _)
    · rw [split_other notChild notNew] at has ⊢
      exact ⟨node, old, has, (if_neg notChild).symm, (start old).le, fun lock held => (passedOld old lock held).mp⟩
  case marked =>
    intro windows _ lock held holds
    refine (windows.marked lock held holds).imp id ?_
    rintro ⟨carrier, passed, some, carries, top⟩
    have old := (shape.climb_path (locked.inTree lock held)).2 passed
    by_cases cut : carrier = child
    · subst cut
      refine ⟨cache.counter, (passedNew lock held).mpr passed, some, ?_⟩
      rw [isNew, start mem]
      exact ⟨carries, top⟩
    · refine ⟨carrier, (passedOld old lock held).mpr passed, some, ?_⟩
      rw [split_other cut (shape.ne_counter (.inr old)), start old]
      exact ⟨carries, top⟩

end Split

/-! ## Merging -/

section Merge

variable {node child : ℕ}

/-- A node is a child under one key only. -/
theorem Shape.values_nodup (shape : Shape cfg cache pos) (inTree : cache.InTree node) :
    (cache.nodes node).children.values.Nodup := by
  have distinct : (cache.nodes node).children.entries.Nodup := List.Nodup.of_map _ (cache.nodes node).children.distinct
  refine List.Nodup.map_on (fun first mem second mem' same => ?_) distinct
  have bound := (shape.children node inTree _ _).mp ((OrderedDict.get?_eq_some_iff _ _ _).mpr mem)
  have bound' := (shape.children node inTree _ _).mp ((OrderedDict.get?_eq_some_iff _ _ _).mpr mem')
  refine Prod.ext ?_ same
  rw [← bound.2.2, ← bound'.2.2, same]

/-- Locks that pass one of the children, counted child by child, are at most those that pass the node without ending
there. -/
theorem Locked.childrenFullLockRef_le (locked : Locked cache pos locks) (shape : Shape cfg cache pos)
    (mem : node ∈ cache.fullLru) : cache.childrenFullLockRef node ≤
      locks.countP fun lock => node ∈ cache.path lock.node ∧ lock.node ≠ node := by
  have values := @Shape.mem_values _ _ cfg cache pos node
  have counts : cache.childrenFullLockRef node = (cache.nodes node).children.values.foldr
      (fun child total => (locks.countP fun lock => child ∈ cache.path lock.node) + total) 0 := by
    refine foldr_ext _ _ _ fun child below total => ?_
    rw [locked.full child ((values shape (.inr mem)).mp below).1]
  rw [counts]
  refine sum_countP_le (fun child (lock : RadixLock) => child ∈ cache.path lock.node)
    (shape.values_nodup (.inr mem)) ?_ ?_
  · intro lock held first below second below' passed passed'
    obtain ⟨walk, _⟩ := shape.climb_path (locked.inTree lock held)
    refine walk.eq_of_parent_eq (shape.falls (locked.inTree lock held)) passed passed' ?_
    rw [((values shape (.inr mem)).mp below).2, ((values shape (.inr mem)).mp below').2]
  · intro lock held child below passed
    obtain ⟨old, parent⟩ := (values shape (.inr mem)).mp below
    obtain ⟨walk, _⟩ := shape.climb_path (locked.inTree lock held)
    have away : (cache.nodes child).parent ≠ rootNode := parent ▸ shape.ne_root mem
    refine ⟨parent ▸ walk.parent_mem passed away, fun ends => ?_⟩
    have low := walk.height_le (shape.falls (locked.inTree lock held)) passed
    have high := shape.parent_pos_lt old
    rw [ends] at low
    rw [parent] at high
    omega

omit [DecidableEq τ] in
private theorem merge_locks (other : ℕ) :
    ((cache.merge node child).nodes other).fullLockRef = (cache.nodes other).fullLockRef ∧
      ((cache.merge node child).nodes other).swaLockRef = (cache.nodes other).swaLockRef := by
  by_cases same : other = node
  · rw [same, merge_node]
    exact ⟨rfl, rfl⟩
  · rw [merge_other same]
    exact ⟨rfl, rfl⟩

section

variable (locked : Locked cache pos locks) (shape : Shape cfg cache pos) (merges : Merges cache node child)
  (compactable : cache.Compactable node child)

include locked shape merges compactable

/-- No lock ends at a child that can be merged. -/
theorem Locked.ne_child : ∀ lock ∈ locks, lock.node ≠ child := by
  obtain ⟨mem, _⟩ := shape.merges_child merges
  have bound := compactable.2.1.trans (locked.childrenFullLockRef_le shape mem)
  rw [locked.full child mem] at bound
  have same := le_antisymm bound (countP_mono_left fun lock _ => by
    simp only [decide_eq_true_eq]
    exact fun both => both.1)
  intro lock held ends
  have passes : child ∈ cache.path lock.node := by
    rw [ends]
    exact shape.self_passed mem
  exact (countP_eq_imp (fun lock _ both => both.1) same.symm lock held passes).2 ends

/-- Every lock that passes the node passes its child, if that can be merged. -/
theorem Locked.passes_child : ∀ lock ∈ locks, node ∈ cache.path lock.node → child ∈ cache.path lock.node := by
  obtain ⟨mem, below⟩ := shape.merges_child merges
  have same := compactable.2.2.2.1
  rw [locked.full child mem, locked.full node merges.member] at same
  refine countP_eq_imp (fun lock held passed => ?_) same
  have away : (cache.nodes child).parent ≠ rootNode := below ▸ shape.ne_root merges.member
  exact below ▸ (shape.climb_path (locked.inTree lock held)).1.parent_mem passed away

theorem Locked.ne_node : ∀ lock ∈ locks, lock.node ≠ node := by
  obtain ⟨mem, below⟩ := shape.merges_child merges
  intro lock held ends
  obtain ⟨walk, _⟩ := shape.climb_path (.inr merges.member)
  have passed := locked.passes_child shape merges compactable lock held
    (ends ▸ walk.self_mem (shape.ne_root merges.member))
  rw [ends] at passed
  have low := walk.height_le (shape.falls (.inr merges.member)) passed
  have high := shape.parent_pos_lt mem
  rw [below] at high
  omega

private theorem mem_path_merge (held : lock ∈ locks) {entry : ℕ} (stays : entry ≠ child) :
    entry ∈ (cache.merge node child).path lock.node ↔ entry ∈ cache.path lock.node := by
  rw [shape.path_merge merges (locked.inTree lock held) (locked.ne_child shape merges compactable lock held)]
  simp [stays]

/-- No window ends at a child that can be merged. -/
theorem Windows.top_ne (windows : Windows cache pos locks) (held : lock ∈ locks)
    (holds : lock.swaHeld = true) (passed : child ∈ cache.path lock.node) :
    pos (cache.nodes child).parent ≠ lock.top := by
  obtain ⟨mem, below⟩ := shape.merges_child merges
  have lower := shape.parent_pos_lt merges.member
  have same := compactable.2.2.2.2
  rw [windows.swa child mem, windows.swa node merges.member] at same
  intro ends
  have reached : Reached cache pos child lock := ⟨holds, passed, ends.ge⟩
  have up :=
    (countP_eq_imp (fun lock held (reached : Reached cache pos node lock) => ?_) same.symm lock held reached).2.2
  · rw [below] at ends
    omega
  · refine ⟨reached.1, locked.passes_child shape merges compactable lock held reached.2.1, ?_⟩
    rw [below]
    exact reached.2.2.trans lower.le

theorem relocates_merge : Relocates cache (cache.merge node child) pos (mergePos pos node child) locks := by
  obtain ⟨mem, below⟩ := shape.merges_child merges
  have passes {entry : ℕ} (stays : entry ≠ child) (lock) (held : lock ∈ locks) :=
    mem_path_merge locked shape merges compactable held stays
  refine ⟨fun lock held => Shape.inTree_merge (locked.inTree lock held)
    (locked.ne_child shape merges compactable lock held),
    fun lock held => Function.update_of_ne (locked.ne_node shape merges compactable lock held) .., ?refs, ?uuids,
    rfl, ?marked⟩
  case refs =>
    intro entry kept
    obtain ⟨old, stays⟩ := mem_fullLru_merge.mp kept
    exact .inl ⟨entry, .of_start shape old (merge_locks entry) (passes stays) (shape.merge_start merges old stays)⟩
  case uuids =>
    -- the uuid of the child moves up to the node, which starts higher
    refine ⟨fun origin => if origin = child then node else origin, fun entry kept uuid has => ?_⟩
    obtain ⟨old, stays⟩ := mem_fullLru_merge.mp kept
    rw [shape.merge_start merges old stays]
    by_cases here : entry = node
    · subst here
      rw [merge_node] at has
      rcases Option.or_eq_some_iff.mp has with lower | ⟨_, upper⟩
      · exact ⟨child, mem, lower, (if_pos rfl).symm, below ▸ (shape.parent_pos_lt old).le, fun lock held passed =>
          locked.passes_child shape merges compactable lock held ((passes stays lock held).mp passed)⟩
      · exact ⟨entry, old, upper, (if_neg stays).symm, le_rfl, fun lock held => (passes stays lock held).mp⟩
    · rw [merge_other here] at has
      exact ⟨entry, old, has, (if_neg stays).symm, le_rfl, fun lock held => (passes stays lock held).mp⟩
  case marked =>
    intro windows intact lock held holds
    refine (windows.marked lock held holds).imp id ?_
    rintro ⟨carrier, passed, some, carries, top⟩
    have old := (shape.climb_path (locked.inTree lock held)).2 passed
    have stays : carrier ≠ child := by
      rintro rfl
      exact windows.top_ne locked shape merges compactable held holds passed top
    refine ⟨carrier, (passes stays lock held).mpr passed, some, ?_, (shape.merge_start merges old stays).trans top⟩
    by_cases here : carrier = node
    · subst here
      rw [merge_node]
      obtain ⟨uuid, is⟩ := Option.isSome_iff_exists.mp some
      -- a uuid of the child would have replaced the one that the lock needs
      have idle : (cache.nodes child).swaUuid = .none := by
        by_contra busy
        refine intact lock held holds uuid is ?_
        simp [RadixCache.merge, busy, carries.trans is]
      rw [idle, Option.none_or]
      exact carries
    · rw [merge_other here]
      exact carries

end

end Merge

/-! ## Adding and deleting -/

section Add

variable {parent : ℕ} {key : List τ} {slots : List ℕ} {dead : Bool}

/-- Where the nodes start is not changed by a new node. -/
theorem Shape.addPos_start (shape : Shape cfg cache pos) (old : node ∈ cache.fullLru) :
    addPos cache pos parent key (cache.nodes node).parent = pos (cache.nodes node).parent :=
  Function.update_of_ne (shape.ne_counter (shape.parent node old)) ..

theorem relocates_addNode (shape : Shape cfg cache pos) (adds : Adds cfg cache parent key slots)
    (locked : Locked cache pos locks) :
    Relocates cache (cache.addNode cfg parent key slots dead) pos (addPos cache pos parent key) locks := by
  have isNew := @addNode_counter _ _ cfg cache parent key slots dead (shape.ne_counter adds.inTree)
  have path : ∀ lock ∈ locks, (cache.addNode cfg parent key slots dead).path lock.node = cache.path lock.node :=
    fun lock held => shape.path_addNode adds (locked.inTree lock held)
  refine ⟨fun lock held => (locked.inTree lock held).imp id fun old => mem_fullLru_addNode.mpr (.inr old),
    fun lock held => Function.update_of_ne (shape.ne_counter (locked.inTree lock held)) .., ?refs, ⟨id, ?uuids⟩,
      rfl, ?marked⟩
  case refs =>
    refine shape.addNode_cases (.inr ⟨by rw [isNew]; exact ⟨rfl, rfl⟩, fun lock held => ?_⟩) fun node old notNew =>
      .inl ⟨node, ?_⟩
    · rw [path lock held]
      exact fun passed => shape.counter_not_mem ((shape.climb_path (locked.inTree lock held)).2 passed)
    · have is := @addNode_other _ _ cfg cache parent key slots dead node notNew
      exact .of_start shape old (by rw [is]; exact ⟨rfl, rfl⟩) (fun lock held => by rw [path lock held])
        (by rw [is, shape.addPos_start old])
  case uuids =>
    refine shape.addNode_cases (fun uuid none => ?_) fun node old notNew uuid has => ?_
    · rw [isNew] at none
      exact absurd none.symm (Option.some_ne_none _)
    · rw [addNode_other notNew] at has ⊢
      exact ⟨node, old, has, rfl, (shape.addPos_start old).le, fun lock held passed => path lock held ▸ passed⟩
  case marked =>
    intro windows _ lock held holds
    rw [Marked, path lock held]
    refine (windows.marked lock held holds).imp id ?_
    rintro ⟨carrier, passed, some, carries, top⟩
    have old := (shape.climb_path (locked.inTree lock held)).2 passed
    refine ⟨carrier, passed, some, ?_⟩
    rw [addNode_other (shape.ne_counter (.inr old)), shape.addPos_start old]
    exact ⟨carries, top⟩

end Add

section Delete

variable {node : ℕ}

omit [DecidableEq τ] in
/-- A node without a lock is on no locked path. -/
theorem Locked.not_mem_path (locked : Locked cache pos locks) (mem : node ∈ cache.fullLru)
    (unlocked : (cache.nodes node).fullLockRef = 0) : ∀ lock ∈ locks, node ∉ cache.path lock.node := by
  intro lock held passed
  rw [locked.full node mem] at unlocked
  exact countP_eq_zero.mp unlocked lock held (decide_eq_true passed)

section

variable (locked : Locked cache pos locks) (shape : Shape cfg cache pos)

include locked shape

theorem Locked.ne_of_unlocked (mem : node ∈ cache.fullLru) (unlocked : (cache.nodes node).fullLockRef = 0) :
    ∀ lock ∈ locks, lock.node ≠ node := by
  intro lock held ends
  refine locked.not_mem_path mem unlocked lock held ?_
  rw [ends]
  exact shape.self_passed mem

theorem path_deleteLeaf (deletes : Deletes cache node) :
    ∀ lock ∈ locks, (cache.deleteLeaf cfg node).path lock.node = cache.path lock.node :=
  fun lock held => shape.path_deleteLeaf deletes (locked.inTree lock held)
    (locked.ne_of_unlocked shape deletes.member deletes.unlocked lock held)

private theorem relocates_deleteLeaf (deletes : Deletes cache node) :
    Relocates cache (cache.deleteLeaf cfg node) pos pos locks where
  inTree := fun lock held => (locked.inTree lock held).imp id fun old =>
    mem_fullLru_deleteLeaf.mpr ⟨old, locked.ne_of_unlocked shape deletes.member deletes.unlocked lock held⟩
  bottom := fun _ _ => rfl
  refs := fun other kept => by
    have is := @deleteLeaf_nodes _ _ cfg cache node other
    exact .inl ⟨other, .of_start shape (mem_fullLru_deleteLeaf.mp kept).1 (by rw [is]; exact ⟨rfl, rfl⟩)
      (fun lock held => by rw [path_deleteLeaf locked shape deletes lock held]) (by rw [is])⟩
  uuids := ⟨id, fun other kept uuid has => by
    rw [deleteLeaf_nodes] at has ⊢
    exact ⟨other, (mem_fullLru_deleteLeaf.mp kept).1, has, rfl, le_rfl, fun lock held passed =>
      path_deleteLeaf locked shape deletes lock held ▸ passed⟩⟩
  counter := by simp [RadixCache.deleteLeaf]
  marked := fun windows _ lock held holds => by
    simp only [Marked, path_deleteLeaf locked shape deletes lock held, deleteLeaf_nodes]
    exact windows.marked lock held holds

end

end Delete

/-! ## Sequences of changes -/

/-- The tree with all its locks. -/
def Guarded (cfg : RadixConfig) (cache : RadixCache τ) (locks : List RadixLock) : Prop :=
  ∃ pos, Shape cfg cache pos ∧ Locked cache pos locks ∧ Windows cache pos locks

variable {before after : RadixCache τ × List ℕ}

theorem Edit.lostUuids_subset (edit : Edit cfg before after) : before.1.lostUuids ⊆ after.1.lostUuids := by
  cases edit with
  | touch => exact List.Subset.refl _
  | split => exact List.Subset.refl _
  | merge =>
    simp only [RadixCache.merge]
    split_ifs
    · exact List.Subset.refl _
    · exact subset_append_right ..
  | add => exact List.Subset.refl _
  | revive => simp [RadixCache.revive]
  | free => simp
  | evictSwa => exact List.Subset.refl _
  | delete => simp [RadixCache.deleteLeaf]

theorem Edit.relocates (edit : Edit cfg before after) (shape : Shape cfg before.1 pos)
    (locked : Locked before.1 pos locks) :
    ∃ pos', Shape cfg after.1 pos' ∧ Relocates before.1 after.1 pos pos' locks := by
  have same := @relocates_of_sameTree _ _ cfg before.1 after.1 pos locks locked shape
  cases edit with
  | touch reorders =>
    exact ⟨_, shape.touch reorders, same (sameTree_touch reorders.fullPerm)
      ⟨fun _ => rfl, fun _ => rfl, fun _ => rfl, rfl⟩⟩
  | split splits => exact ⟨_, shape.split splits, relocates_split shape splits locked⟩
  | merge merges compactable => exact ⟨_, shape.merge merges, relocates_merge locked shape merges compactable⟩
  | add dead adds _ => exact ⟨_, shape.addNode adds, relocates_addNode shape adds locked⟩
  | revive mem _ length _ => exact ⟨_, shape.revive mem length, same sameTree_revive sameLocks_revive⟩
  | free _ => exact ⟨_, shape.free, same sameTree_free sameLocks_free⟩
  | evictSwa mem _ => exact ⟨_, shape.evictSwa mem, same sameTree_evictSwa sameLocks_evictSwa⟩
  | delete deletes => exact ⟨_, shape.deleteLeaf deletes, relocates_deleteLeaf locked shape deletes⟩

theorem Edit.guarded (edit : Edit cfg before after) (guarded : Guarded cfg before.1 locks)
    (kept : UuidsKept after.1 locks) : Guarded cfg after.1 locks := by
  obtain ⟨pos, shape, locked, windows⟩ := guarded
  obtain ⟨pos', shape', relocates⟩ := edit.relocates shape locked
  exact ⟨pos', shape', locked.relocate relocates,
    windows.relocate locked shape relocates (edit.sound shape windows.sound) kept⟩

theorem Edits.guarded (edits : Edits cfg before after) (guarded : Guarded cfg before.1 locks)
    (kept : UuidsKept after.1 locks) : Guarded cfg after.1 locks := by
  induction edits with
  | refl => exact guarded
  | tail _ edit ih =>
    refine edit.guarded (ih fun lock mem held uuid is lost => ?_) kept
    exact kept lock mem held uuid is (edit.lostUuids_subset lost)

end RadixCache

end FlashMemory
