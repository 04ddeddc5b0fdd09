import FlashMemory.Soundness.MatchPrefix
import FlashMemory.Soundness.RadixSlots

/-! # Insertions conserve slots

Along every run of the tree calls, with whatever requests do between them to slots outside the tree, the slots of the
tree are all different, in whole pages and not free. An insertion brings the slots beyond the locked prefix of its
request. Each of them ends up in the tree or is freed, as does each slot that the tree had before, and none of them
twice. If the insertions know how much of the windows is gone, the living nodes keep theirs.
-/

namespace FlashMemory

open List

/-! ## Calls of the allocator -/

namespace KvServer

variable {pageSize : ℕ} {server : KvServer} {slot : ℕ}

theorem Paged.pagewise (paged : Paged pageSize server) : server.allocator.Pagewise pageSize :=
  ⟨paged.pages, fun slot mapped => paged.swa.2 _ (paged.into slot mapped)⟩

/-- The pools after a history of successful calls. -/
theorem pagewise_run (page : 1 < pageSize) {size sizeSwa : ℕ} {needSort : Bool} {calls : List KvCall}
    (valid : Along (step pageSize) (Valid pageSize) (init pageSize size sizeSwa needSort) calls) :
    (run (step pageSize) (init pageSize size sizeSwa needSort) calls).allocator.Pagewise pageSize :=
  (valid.invariant (paged_init size sizeSwa needSort) fun _ call paged allowed =>
    paged_step page paged call allowed).pagewise

/-- An allocation takes nothing away. -/
theorem Allocates.keeps {slots fullTaken : List ℕ} {pairs : List (ℕ × ℕ)} {allocator : KvAllocator}
    (paged : Paged pageSize server)
    (allocates : Allocates pageSize server slots pairs fullTaken allocator) (mem : slot ∈ server.allocated) :
    slot ∈ (server.handOut (.ok (some slots) allocator)).allocated ∧
      (server.allocator.fullToSwa slot ≠ 0 → allocator.fullToSwa slot = server.allocator.fullToSwa slot) := by
  obtain ⟨_, _, hands, is⟩ := allocates
  refine ⟨mem_append_right _ mem, fun mapped => ?_⟩
  rw [is]
  exact hands.scatter_of_mapped paged mapped

/-- A slot that a call does not give up stays allocated, with its window slot. -/
private theorem keeps_step (page : 1 < pageSize) (paged : Paged pageSize server) {call : KvCall}
    (valid : server.Valid pageSize call)
    (mem : slot ∈ server.allocated) (kept : slot ∉ call.givesUp) : slot ∈ (server.step pageSize call).allocated ∧
      (server.allocator.fullToSwa slot ≠ 0 →
        (server.step pageSize call).allocator.fullToSwa slot = server.allocator.fullToSwa slot) := by
  rcases step_cases page paged call valid with ⟨_, _, _, _, allocates, is⟩ | ⟨slots, rfl⟩ | ⟨slots, rfl⟩
  · rw [is]
    exact Allocates.keeps paged allocates mem
  · rw [paged.step_free page valid.1 valid.2]
    exact ⟨mem_filter.mpr ⟨mem, decide_eq_true kept⟩, fun _ => if_neg kept⟩
  · exact ⟨mem, fun _ => if_neg kept⟩

/-- Requests that give up none of the slots of the tree leave it alone. -/
theorem leavesTree_step {τ : Type} {cache : RadixCache τ} (page : 1 < pageSize) (paged : Paged pageSize server)
    {call : KvCall} (valid : server.Valid pageSize call) (same : cache.allocator = server.allocator)
    (within : cache.slots ⊆ server.allocated) (apart : ∀ slot ∈ cache.slots, slot ∉ call.givesUp) :
    LeavesTree pageSize cache (server.step pageSize call).allocator := by
  have paged' := paged_step page paged call valid
  refine ⟨paged'.pagewise, fun slot mem => ?_, fun slot mem mapped => ?_⟩
  · exact paged'.full.2 slot (keeps_step page paged valid (within mem) (apart slot mem)).1
  · rw [same] at mapped ⊢
    exact (keeps_step page paged valid (within mem) (apart slot mem)).2 mapped

/-- The tree holds one of two pages, and the request frees the other one. -/
theorem leavesTree_step_on_free :
    let server := (init 2 16 16 false).step 2 (.allocExtend [⟨0, 4, -1⟩])
    let cache : RadixCache ℕ :=
      { (RadixCache.init server.allocator : RadixCache ℕ) with
        fullLru := [1]
        nodes := fun _ => ⟨.empty, rootNode, [], [2, 3], false, 0, 0, none⟩ }
    LeavesTree 2 cache (server.step 2 (.free [4, 5])).allocator :=
  leavesTree_step (by decide) (paged_step (by decide) (paged_init 16 16 false) _ (by decide +kernel))
    (by decide +kernel) rfl (by decide +kernel) (by decide +kernel)

end KvServer

namespace RadixCache

variable {τ : Type} [DecidableEq τ] {cfg : RadixConfig} {cache cache' : RadixCache τ} {pos : ℕ → ℕ} {node slot skip : ℕ}
  {key : List τ} {value pending : List ℕ} {prevPrefixLen swaEvictedSeqlen b : ℕ} {chosen : ℕ → Prop}

/-! ## Locks -/

section

omit [DecidableEq τ]

theorem SameSlots.slots (same : SameSlots cache cache') : cache'.slots = cache.slots := by
  rw [RadixCache.slots, same.fullLru]
  exact flatMap_congr fun node _ => same.value node

/-- Counts, uuids and links change, and nodes may become tombstones. -/
theorem Stocked.recounting (stocked : Stocked cfg (cache, [])) (same : SameSlots cache cache')
    (allocator : cache'.allocator = cache.allocator)
    (tombstones : ∀ node, (cache'.nodes node).swaTombstone = false → (cache.nodes node).swaTombstone = false) :
    Effect cfg (cache, []) (cache', []) [] [] := by
  refine stocked.freeing ?_ ?_ .nil (fun node mem => ?_) .nil fun slot present => present.imp_left fun alive => ?_
  · rw [KvServer.free_nil]
    exact allocator
  · rw [append_nil, same.slots]
  · rw [same.value]
    exact stocked.valuePages node (same.fullLru ▸ mem)
  · obtain ⟨node, mem, alive, inside⟩ := alive
    exact ⟨node, same.fullLru ▸ mem, tombstones node alive, same.value node ▸ inside⟩

private theorem unlockSwaOnly_allocator : (cache.unlockSwaOnly cfg node).allocator =
    if (cache.nodes node).swaLockRef = 1 ∧ (cache.nodes node).children.values = []
    then cache.allocator.freeSwa cfg.pageSize (cache.nodes node).value else cache.allocator := by
  unfold unlockSwaOnly
  by_cases last : (cache.nodes node).swaLockRef = 1 <;> by_cases leaf : (cache.nodes node).children.values = [] <;>
    simp [last, leaf, modifyNode, tombstone, freeSwa]

/-- The window of a leaf is given up with its last lock. -/
theorem Stocked.unlockSwaOnly (stocked : Stocked cfg (cache, [])) (mem : node ∈ cache.fullLru) :
    ∃ released, Effect cfg (cache, []) (cache.unlockSwaOnly cfg node, []) [] released := by
  have same := @sameSlots_unlockSwaOnly _ cfg cache node
  have allocator := @unlockSwaOnly_allocator _ cfg cache node
  have nodes := @unlockSwaOnly_nodes _ cfg cache node
  by_cases last : (cache.nodes node).swaLockRef = 1 ∧ (cache.nodes node).children.values = []
  · rw [if_pos last] at allocator
    refine ⟨_, stocked.releasing mem allocator same.fullLru same.value fun other alive => ?_⟩
    rw [nodes] at alive
    split_ifs at alive with here
    · rw [here, decide_eq_true last, Bool.or_true] at alive
      exact Bool.noConfusion alive
    · exact ⟨here, alive⟩
  · rw [if_neg last] at allocator
    refine ⟨_, stocked.recounting same allocator fun other alive => ?_⟩
    rw [nodes] at alive
    split_ifs at alive
    · exact (Bool.or_eq_false_iff.mp alive).1
    · exact alive

end

/-! ## What an insertion brings -/

section

variable (admissible : Admissible cfg cache key value prevPrefixLen swaEvictedSeqlen b)

include admissible

/-- The insertion skips the locked prefix and nothing else. -/
private theorem skip_eq (shape : Shape cfg cache pos)
    (passed : Passed cfg prevPrefixLen key cache pos rootNode value skip cache' pending) : skip = b := by
  obtain ⟨node, listed, spelled, length, _⟩ := admissible.boundary
  have inTree : cache.InTree node := mem_cons.mp listed
  obtain ⟨low, high⟩ := admissible.prevPrefix
  have ends : pos node = b := (shape.length_spelling inTree).symm.trans length
  have beyond : Beyond cache pos key rootNode node :=
    ⟨inTree, .inr (.inl rfl), ((shape.spells_iff inTree).mpr spelled).2⟩
  have reached := passed.reaches node beyond (ends ▸ low)
  rw [ends, shape.rootPos, Nat.zero_add] at reached
  refine le_antisymm ?_ reached
  rcases passed.early with zero | early
  · rw [zero]
    exact Nat.zero_le _
  · rw [shape.rootPos, Nat.zero_add] at early
    exact Nat.le_of_lt_add_of_dvd (by omega) passed.aligned (ends ▸ shape.dvd_pos inTree)

omit [DecidableEq τ]

/-- The slots beyond the prefix are pending at the start. -/
theorem Stocked.bring (stocked : Stocked cfg (cache, [])) (aligned : cfg.pageSize ∣ b) :
    Stocked cfg (cache, value.drop b) where
  distinct := by
    have distinct := stocked.distinct
    rw [append_nil] at distinct
    refine nodup_append.mpr ⟨distinct, admissible.distinct, ?_⟩
    rintro slot inTree _ brought rfl
    exact (admissible.own slot brought).1 inTree
  valuePages := stocked.valuePages
  pendingPages := admissible.inPages.drop aligned
  inUse := fun slot mem => by
    rcases mem_append.mp mem with inTree | brought
    · exact stocked.inUse slot (mem_append_left _ inTree)
    · exact (admissible.own slot brought).2
  pagewise := stocked.pagewise

/-- The slots from `swa_evicted_seqlen` on have windows. -/
theorem Backed.bring (backed : Backed (fun _ => True) (cache, []))
    (windows : WindowsFrom cfg cache value swaEvictedSeqlen) :
    Backed (fun slot => cache.Alive slot ∨ slot ∈ value.drop swaEvictedSeqlen) (cache, value.drop b) := by
  intro slot isChosen present
  rcases present with alive | brought
  · exact backed slot trivial (.inl alive)
  · have outside := (admissible.own slot brought).1
    rcases isChosen with alive | late
    · exact absurd alive.mem_slots outside
    · exact (windows slot late outside).1

end

omit [DecidableEq τ] in
/-- Living slots are chosen, so that all of them have windows. -/
theorem Backed.all (backed : Backed chosen (cache, [])) (living : ∀ slot, cache.Alive slot → chosen slot) :
    Backed (fun _ => True) (cache, []) := by
  rintro slot _ (alive | none)
  · exact backed slot (living slot alive) (.inl alive)
  · exact absurd none not_mem_nil

section Insertion

variable (shape : Shape cfg cache pos) (stocked : Stocked cfg (cache, []))
  (admissible : Admissible cfg cache key value prevPrefixLen swaEvictedSeqlen b)
  (passed : Passed cfg prevPrefixLen key cache pos rootNode value skip cache' [])

include shape stocked admissible passed

/-- An admissible insertion keeps the slots of the tree in order. -/
theorem stocked_insert : Stocked cfg (cache, value.drop b) ∧ Edits cfg (cache, value.drop b) (cache', []) ∧
    Stocked cfg (cache', []) := by
  obtain rfl := skip_eq admissible shape passed
  have before := stocked.bring admissible passed.aligned
  exact ⟨before, passed.edits, (passed.edits.stocked shape before (fun _ none => False.elim none)).1⟩

theorem backed_insert (backed : Backed (fun _ => True) (cache, []))
    (windows : WindowsFrom cfg cache value swaEvictedSeqlen)
    (refills : swaEvictedSeqlen ≤ key.length → Refills cache cache' (value.drop swaEvictedSeqlen)) :
    Backed (fun _ => True) (cache', []) := by
  obtain ⟨before, edits, _⟩ := stocked_insert shape stocked admissible passed
  have backed' := (edits.stocked shape before (backed.bring admissible windows)).2
  exact backed'.all (refills admissible.evictedWithin)

end Insertion

omit [DecidableEq τ] in
theorem stocked_foldl_unlockSwaOnly {window : List ℕ} (stocked : Stocked cfg (cache, []))
    (backed : Backed chosen (cache, [])) (within : window ⊆ cache.fullLru) :
    Stocked cfg (window.foldl (fun cache node => cache.unlockSwaOnly cfg node) cache, []) ∧
      Backed chosen (window.foldl (fun cache node => cache.unlockSwaOnly cfg node) cache, []) := by
  induction window generalizing cache with
  | nil => exact ⟨stocked, backed⟩
  | cons node window ih =>
    obtain ⟨mem, rest⟩ := cons_subset.mp within
    obtain ⟨released, effect⟩ := stocked.unlockSwaOnly mem
    have same : (cache.unlockSwaOnly cfg node).fullLru = cache.fullLru := sameSlots_unlockSwaOnly.fullLru
    exact ih (effect.stocked stocked) (effect.backed backed) (same ▸ rest)

variable {allocator : KvAllocator} (leaves : LeavesTree cfg.pageSize cache allocator)
include leaves

omit [DecidableEq τ]

/-- What requests do outside the tree is no concern of it. -/
theorem stocked_requests
    (stocked : Stocked cfg (cache, [])) : Stocked cfg ({ cache with allocator := allocator }, []) where
  distinct := stocked.distinct
  valuePages := stocked.valuePages
  pendingPages := .nil
  inUse := fun slot mem => leaves.inUse slot (append_nil cache.slots ▸ mem)
  pagewise := leaves.pagewise

theorem backed_requests
    (backed : Backed (fun _ => True) (cache, [])) :
    Backed (fun _ => True) ({ cache with allocator := allocator }, []) := by
  rintro slot _ (alive | none)
  · have was : cache.Alive slot := alive
    have mapped := backed slot trivial (.inl was)
    exact leaves.windows slot was.mem_slots mapped ▸ mapped
  · exact absurd none not_mem_nil

end RadixCache

namespace LockServer

open RadixCache

variable {τ : Type} [DecidableEq τ] {cfg : RadixConfig} {server : LockServer τ} {calls : List (SharedCall τ)}
  {allocator : KvAllocator}

/-! ## Runs -/

omit [DecidableEq τ] in
theorem Permitted.aligned {call : TreeCall τ} (permitted : Permitted cfg server (.tree call)) :
    TreeAligned cfg call := by
  cases call with
  | call call =>
    cases call with
    | insert key value prevPrefixLen swaEvictedSeqlen =>
      obtain ⟨b, admissible⟩ := permitted
      exact ⟨admissible.length, admissible.aligned, admissible.evictedAligned⟩
    | _ => trivial
  | lockNode node => trivial

private theorem moves_stocked {call : TreeCall τ} {cache : RadixCache τ} {pos : ℕ → ℕ}
    (moves : Moves cfg server.cache call cache)
    (shape : Shape cfg server.cache pos) (permitted : Permitted cfg server (.tree call))
    (stocked : Stocked cfg (server.cache, [])) :
    Stocked cfg (cache, []) ∧ (Truthful cfg server (.tree call) → Backed (fun _ => True) (server.cache, []) →
      Backed (fun _ => True) (cache, [])) := by
  cases moves with
  | edit edits =>
    exact ⟨(edits.stocked shape stocked (fun _ none => False.elim none)).1,
      fun _ backed => (edits.stocked shape stocked backed).2⟩
  | insert shape' passed refills =>
    obtain ⟨b, admissible⟩ := permitted
    exact ⟨(stocked_insert shape' stocked admissible passed).2.2,
      fun windows backed => backed_insert shape' stocked admissible passed backed windows refills⟩
  | relock relock =>
    have effect := stocked.recounting relock.slots relock.allocator fun node alive =>
      (relock.tombstone node).symm.trans alive
    exact ⟨effect.stocked stocked, fun _ => effect.backed⟩
  | unwind within =>
    exact ⟨(stocked_foldl_unlockSwaOnly stocked (fun _ none => False.elim none) within).1,
      fun _ backed => (stocked_foldl_unlockSwaOnly stocked backed within).2⟩

private theorem orderly_requests (orderly : Orderly cfg server) :
    Orderly cfg { server with cache := { server.cache with allocator := allocator } } := by
  obtain ⟨⟨pos, shape, locked, spans⟩, accounted, registered⟩ := orderly
  exact ⟨⟨pos, { shape with }, { locked with }, { spans with }⟩,
    ⟨accounted.sound, accounted.covered, { accounted.booked with }, { accounted.linked with }⟩, registered⟩

/-- After a failed assert nothing happens. -/
theorem sharedStep_raised (call : SharedCall τ) (raised : server.raised = true) :
    sharedStep cfg server call = server := by
  cases call with
  | tree call => exact treeStep_raised call raised
  | requests allocator => exact if_pos raised

private theorem sharedStep_stocked (call : SharedCall τ) (permitted : Permitted cfg server call)
    (orderly : Orderly cfg server) (stocked : Stocked cfg (server.cache, [])) (before : server.raised = false)
    (returned : (sharedStep cfg server call).raised = false) :
    Orderly cfg (sharedStep cfg server call) ∧ Stocked cfg ((sharedStep cfg server call).cache, []) ∧
      (Truthful cfg server call → Backed (fun _ => True) (server.cache, []) →
        Backed (fun _ => True) ((sharedStep cfg server call).cache, [])) := by
  cases call with
  | tree call =>
    obtain ⟨pos, shape, _⟩ := orderly.spanned
    obtain ⟨orderly', moves⟩ := treeStep_advances call permitted.aligned orderly before returned
    exact ⟨orderly', moves_stocked moves shape permitted stocked⟩
  | requests allocator =>
    have goesOn : ¬server.raised = true := before ▸ Bool.false_ne_true
    rw [sharedStep, if_neg goesOn]
    exact ⟨orderly_requests orderly, stocked_requests permitted stocked, fun _ => backed_requests permitted⟩

section

variable (start : allocator.Pagewise cfg.pageSize)
  (returned : (run (sharedStep cfg) (init allocator) calls).raised = false)

include start returned

/-- Along every run the slots of the tree stay in order, and with truthful insertions the living ones keep their
windows. -/
theorem kept_run {truthful : Prop}
    (admitted : Along (sharedStep cfg)
      (fun server call => Permitted cfg server call ∧ (truthful → Truthful cfg server call)) (init allocator) calls) :
    Orderly cfg (run (sharedStep cfg) (init allocator) calls) ∧
      Stocked cfg ((run (sharedStep cfg) (init allocator) calls).cache, []) ∧
      (truthful → Backed (fun _ => True) ((run (sharedStep cfg) (init allocator) calls).cache, [])) := by
  refine @Along.invariant _ _ _ _ (fun server => server.raised = false →
    Orderly cfg server ∧ Stocked cfg (server.cache, []) ∧ (truthful → Backed (fun _ => True) (server.cache, []))) _ _
    admitted (fun _ => ⟨orderly_init allocator, ?_, ?_⟩) (fun server call before allowed after => ?_) returned
  · exact ⟨nodup_nil, fun node mem => absurd mem not_mem_nil, .nil,
      fun slot mem => absurd mem not_mem_nil, start⟩
  · rintro _ slot _ (⟨node, mem, _⟩ | none)
    · exact absurd mem not_mem_nil
    · exact absurd none not_mem_nil
  · cases raised : server.raised with
    | false =>
      obtain ⟨orderly, stocked, backed⟩ := before raised
      obtain ⟨orderly', stocked', backed'⟩ := sharedStep_stocked call allowed.1 orderly stocked raised after
      exact ⟨orderly', stocked', fun told => backed' (allowed.2 told) (backed told)⟩
    | true =>
      rw [sharedStep_raised call raised] at after ⊢
      exact before after

variable (permitted : Along (sharedStep cfg) (Permitted cfg) (init allocator) calls)
include permitted

theorem stocked_run : Orderly cfg (run (sharedStep cfg) (init allocator) calls) ∧
      Stocked cfg ((run (sharedStep cfg) (init allocator) calls).cache, []) := by
  obtain ⟨orderly, stocked, _⟩ := kept_run start returned (permitted.mono fun _ _ allowed => ⟨allowed, False.elim⟩)
  exact ⟨orderly, stocked⟩

theorem backed_run (truthful : Along (sharedStep cfg) (Truthful cfg) (init allocator) calls) :
    Backed (fun _ => True) ((run (sharedStep cfg) (init allocator) calls).cache, []) :=
  (kept_run start returned
    ((permitted.and truthful).mono fun _ _ allowed => ⟨allowed.1, fun _ : True => allowed.2⟩)).2.2 trivial

end

/-! ## Conservation -/

section Conservation

variable {key : List τ} {value : List ℕ} {prevPrefixLen swaEvictedSeqlen b : ℕ}

/-- An insertion into any tree that a run leads to returns. The slots of the tree after it and those that it has freed
are the slots of the tree before it and the new ones beyond the locked prefix, each of them once; no two nodes share a
slot; and if the insertions know how much of the windows is gone, every slot of a node that is no tombstone has a window
slot in use. -/
theorem insertion_conserves_slots (cfg : RadixConfig) (allocator : KvAllocator) (calls : List (SharedCall τ))
    (start : allocator.Pagewise cfg.pageSize)
    (permitted : Along (sharedStep cfg) (Permitted cfg) (init allocator) calls)
    (returned : (run (sharedStep cfg) (init allocator) calls).raised = false)
    (admissible : Admissible cfg (run (sharedStep cfg) (init allocator) calls).cache key value prevPrefixLen
      swaEvictedSeqlen b) :
    let cache := (run (sharedStep cfg) (init allocator) calls).cache
    ∃ total cache' freed, insert cfg key value prevPrefixLen swaEvictedSeqlen cache = .ok total cache' ∧
      cache'.freedSlots = freed ++ cache.freedSlots ∧ (cache'.slots ++ freed).Perm (cache.slots ++ value.drop b) ∧
      (cache'.slots ++ freed).Nodup ∧
      cache'.fullLru.Pairwise (fun node other => List.Disjoint (cache'.nodes node).value (cache'.nodes other).value) ∧
      (Along (sharedStep cfg) (Truthful cfg) (init allocator) calls → WindowsFrom cfg cache value swaEvictedSeqlen →
        ∀ node ∈ cache'.fullLru, (cache'.nodes node).swaTombstone = false → ∀ slot ∈ (cache'.nodes node).value,
          cache'.allocator.SwaAllocated cfg.pageSize slot) := by
  intro cache
  obtain ⟨orderly, stocked⟩ := stocked_run start returned permitted
  obtain ⟨pos, shape, _⟩ := orderly.spanned
  have ensured : Ensures (insert cfg key value prevPrefixLen swaEvictedSeqlen) cache _ fun _ => False :=
    (ensures_insert shape admissible.length admissible.aligned admissible.evictedAligned).mono (fun _ _ post => post)
      fun _ ⟨_, _, _, unsound⟩ => unsound orderly.accounted.sound
  obtain ⟨total, cache', returns, _, skip, _, passed, refills⟩ := ensured.returns
  obtain ⟨before, edits, after⟩ := stocked_insert shape stocked admissible passed
  obtain ⟨freed, noted⟩ := edits.frees
  have conserved : (cache'.slots ++ freed).Perm (cache.slots ++ value.drop b) := by
    have whole := edits.conserve shape
    rw [holdings, holdings, append_nil, noted, ← append_assoc] at whole
    exact (perm_append_right_iff _).mp whole
  have distinct := after.distinct
  rw [append_nil] at distinct
  refine ⟨total, cache', freed, returns, noted, conserved, conserved.nodup_iff.mpr before.distinct,
    (nodup_flatMap.mp distinct).2, fun truthful windows node member alive slot inside => ?_⟩
  have backed :=
    backed_insert shape stocked admissible passed (backed_run start returned permitted truthful) windows refills
  have mapped := backed slot trivial (.inl ⟨node, member, alive, inside⟩)
  exact ⟨mapped, after.pagewise.taken slot mapped⟩

/-- Pools from which two requests have got two pages each. One has given up the window of its first page. -/
def twoRequests : KvServer :=
  run (KvServer.step 2) (.init 2 16 16 false) [.allocExtend [⟨0, 4, -1⟩, ⟨0, 4, -1⟩], .freeSwa [2, 3]]

/-- That one inserts its slots, which leaves a tombstone for the first page. -/
def tombstoneRun : List (SharedCall ℕ) :=
  [.requests twoRequests.allocator, .tree (.call (.insert [1, 2, 3, 4] [2, 3, 4, 5] 0 2))]

theorem permitted_tombstoneRun : Along (sharedStep (.standard 2 2 (by decide) (by decide)))
    (Permitted (.standard 2 2 (by decide) (by decide))) (init (.clear 2 16 16 false)) tombstoneRun := by
  refine ⟨⟨KvServer.pagewise_run (by decide) (by decide +kernel), ?_, ?_⟩, ⟨0, ?_⟩, trivial⟩
  · exact fun slot mem => absurd mem not_mem_nil
  · exact fun slot mem => absurd mem not_mem_nil
  · exact ⟨rfl, by decide, ⟨[1, 2], rfl⟩, ⟨rootNode, by simp, by decide +kernel, rfl, rfl⟩, by decide, by decide,
      by decide +kernel, by decide, by decide⟩

theorem truthful_tombstoneRun : Along (sharedStep (.standard 2 2 (by decide) (by decide)))
    (Truthful (.standard 2 2 (by decide) (by decide))) (init (.clear 2 16 16 false)) tombstoneRun :=
  ⟨trivial, show WindowsFrom _ _ _ _ by unfold WindowsFrom; decide +kernel, trivial⟩

/-- The other request has the same first page. Its slots go to the tombstone, and those of the tombstone are freed. -/
theorem insertion_conserves_slots_on_tombstoneRun :
    let cfg : RadixConfig := .standard 2 2 (by decide) (by decide)
    let cache := (run (sharedStep cfg) (init (.clear 2 16 16 false)) tombstoneRun).cache
    cache.slots = [4, 5, 2, 3] ∧ Admissible cfg cache [1, 2, 7, 8] [6, 7, 8, 9] 0 0 0 ∧
      ∃ total cache' freed, insert cfg [1, 2, 7, 8] [6, 7, 8, 9] 0 0 cache = .ok total cache' ∧
        cache'.freedSlots = freed ++ cache.freedSlots ∧ (cache'.slots ++ freed).Perm (cache.slots ++ [6, 7, 8, 9]) ∧
        (cache'.slots ++ freed).Nodup ∧
        cache'.fullLru.Pairwise (fun node other => List.Disjoint (cache'.nodes node).value (cache'.nodes other).value) ∧
        ∀ node ∈ cache'.fullLru, (cache'.nodes node).swaTombstone = false → ∀ slot ∈ (cache'.nodes node).value,
          cache'.allocator.SwaAllocated cfg.pageSize slot := by
  intro cfg cache
  have second : Admissible cfg cache [1, 2, 7, 8] [6, 7, 8, 9] 0 0 0 :=
    ⟨rfl, by decide, ⟨[3, 4], rfl⟩,
      ⟨rootNode, by simp, by decide +kernel, rfl, rfl⟩, by decide, by decide, by decide +kernel, by decide, by decide⟩
  obtain ⟨total, cache', freed, returns, noted, conserved, distinct, disjoint, windows⟩ :=
    insertion_conserves_slots cfg (.clear 2 16 16 false) tombstoneRun (KvServer.paged_init 16 16 false).pagewise
      permitted_tombstoneRun (by decide +kernel) second
  exact ⟨by decide +kernel, second, total, cache', freed, returns, noted, conserved, distinct, disjoint,
    windows truthful_tombstoneRun (by unfold WindowsFrom; decide +kernel)⟩

end Conservation

end LockServer

end FlashMemory
