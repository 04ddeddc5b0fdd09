import FlashMemory.Soundness.KvPageMap

/-! # Allocations that succeed or fail as a whole

An allocation that has passed the tests of both pools gets its pages from both of them, although a pool merges its
released pages only when an estimate says that it has to. An allocation that returns nothing leaves the free pages as
they were, apart from `alloc_decode`, which asks both pools without a test before it. `backup_state` keeps the pages of
the pools and not the mapping.
-/

namespace FlashMemory

open List KvServer KvPool

variable {needed len : ℕ} {seqs : List ExtendSeq}

/-! ## Pools that find what they have -/

namespace KvPool

variable {pageSize : ℕ} {pool : KvPool}

/-- Pages wait in `release_pages` only where an allocation merges them. -/
def Tidy (pool : KvPool) : Prop := pool.needSort = false → pool.releasePages = []

theorem availableSize_eq : pool.availableSize pageSize = pool.pages.length * pageSize := by
  rw [availableSize, pages, length_append]

section

variable (tidy : pool.Tidy)

include tidy

theorem Tidy.prepare (needed : ℕ) : (pool.prepare needed).Tidy := by
  unfold KvPool.prepare mergeAndSortFree
  split_ifs
  · exact tidy
  · exact fun _ => rfl
  · exact tidy

theorem Tidy.take (needed : ℕ) (outIndices : List ℕ) : (pool.take needed outIndices).2.Tidy := by
  unfold KvPool.take
  split_ifs
  · exact tidy
  · exact tidy

section

variable {needed estimate : ℕ} (within : needed ≤ estimate) (enough : needed ≤ pool.pages.length)
include within enough

/-- After `prepare` the pages are at hand. -/
theorem Tidy.le_length_prepare : needed ≤ (pool.prepare estimate).freePages.length := by
  unfold KvPool.prepare mergeAndSortFree
  rw [pages, length_append] at enough
  split_ifs with few none
  · rw [none, length_nil] at enough
    omega
  · rw [length_insertionSort, length_append]
    exact enough
  · rcases Bool.eq_false_or_eq_true pool.needSort with sorted | unsorted
    · have many : estimate ≤ pool.freePages.length := not_lt.mp fun short => few ⟨sorted, short⟩
      omega
    · rw [tidy unsorted, length_nil] at enough
      omega

theorem Tidy.take_prepare (outIndices : List ℕ) :
    ∃ pool', (pool.prepare estimate).take needed outIndices = (some outIndices, pool') ∧ pool'.Tidy := by
  rw [KvPool.take, if_neg (not_lt.mpr (tidy.le_length_prepare within enough))]
  exact ⟨_, rfl, tidy.prepare estimate⟩

end

section

variable (page : 0 < pageSize)
include page

/-- A batch gets its pages: the pages are merged when the estimate is not at hand, and the estimate is not too low. -/
theorem Tidy.allocExtend (grows : ∀ seq ∈ seqs, seq.prefixLen ≤ seq.seqLen)
    (enough : extendNumNewPages pageSize seqs ≤ pool.pages.length) :
    ∃ slots pool', pool.allocExtend pageSize seqs = (some slots, pool') ∧ pool'.Tidy := by
  have within := (extendNumNewPages_le page grows).trans (Nat.le_add_right _ 1)
  obtain ⟨pool', is, tidy'⟩ := tidy.take_prepare within enough _
  exact ⟨_, pool', is, tidy'⟩

/-- A fresh sequence gets its pages. -/
theorem Tidy.allocExtend_fresh (enough : numPages pageSize len ≤ pool.pages.length) :
    ∃ slots pool', pool.allocExtend pageSize [⟨0, len, -1⟩] = (some slots, pool') ∧ pool'.Tidy := by
  refine tidy.allocExtend page ?_ (by rwa [extendNumNewPages_fresh page])
  intro seq mem
  rw [mem_singleton.mp mem]
  exact Nat.zero_le _

theorem Tidy.alloc (enough : needed ≤ pool.pages.length) :
    ∃ slots pool', pool.alloc pageSize (needed * pageSize) = (some slots, pool') ∧ pool'.Tidy := by
  unfold KvPool.alloc
  rw [Nat.mul_div_cancel _ page]
  obtain ⟨pool', is, tidy'⟩ := tidy.take_prepare le_rfl enough _
  exact ⟨_, pool', is, tidy'⟩

theorem Tidy.allocFresh (enough : numPages pageSize len ≤ pool.pages.length) :
    ∃ slots pool', KvAllocator.allocFresh pageSize len pool = (some slots, pool') ∧ pool'.Tidy := by
  unfold KvAllocator.allocFresh KvAllocator.allocWhole
  split_ifs
  · obtain ⟨slots, pool', is, tidy'⟩ := tidy.alloc page enough
    dsimp only
    rw [is]
    exact ⟨_, pool', rfl, tidy'⟩
  · exact tidy.allocExtend_fresh page enough

end

theorem Tidy.free (slots : List ℕ) : (pool.free pageSize slots).Tidy := by
  unfold KvPool.free
  dsimp only
  split_ifs with sorted
  · exact fun unsorted => absurd (sorted.symm.trans unsorted) (by decide)
  · exact fun unsorted => absurd (sorted.symm.trans unsorted) (by decide)
  · exact tidy
  · exact tidy

end

end KvPool

namespace KvAllocator

variable {pageSize : ℕ} {pool : KvPool} {allocator : KvAllocator}
variable {outIndices slots : List ℕ} {server : KvServer} {before : KvAllocator}

/-! ## After the tests -/

section

variable (page : 0 < pageSize)
include page

end

section

variable (page : 0 < pageSize) {full swa : KvPool} {swaSlots : List ℕ}
include page

end

/-- One page of the full pool waits to be merged, and the window pool has all of its pages at hand. -/
def waiting : KvAllocator := ⟨⟨12, true, [3], [1, 2]⟩, ⟨12, true, [1, 2, 3], []⟩, fun _ => 0⟩

/-- The same pages are free, and the mapping is the same. -/
structure SameFree (allocator allocator' : KvAllocator) : Prop where
  full : ∀ number, number ∈ allocator'.full.pages ↔ number ∈ allocator.full.pages
  swa : ∀ number, number ∈ allocator'.swa.pages ↔ number ∈ allocator.swa.pages
  mapping : allocator'.fullToSwa = allocator.fullToSwa

theorem SameFree.refl (allocator : KvAllocator) :
    SameFree allocator allocator := ⟨fun _ => Iff.rfl, fun _ => Iff.rfl, rfl⟩

/-- Without enough pages nothing is taken. -/
theorem mem_pages_take_none {estimate : ℕ}
    (none : ((pool.prepare estimate).take needed outIndices).1 = none) (number : ℕ) :
    number ∈ ((pool.prepare estimate).take needed outIndices).2.pages ↔ number ∈ pool.pages := by
  unfold KvPool.take at none ⊢
  split_ifs at none ⊢
  exact (perm_prepare estimate).mem_iff

private theorem mem_pages_allocFresh_none (none : (allocFresh pageSize len pool).1 = none) (number : ℕ) :
    number ∈ (allocFresh pageSize len pool).2.pages ↔ number ∈ pool.pages := by
  unfold allocFresh at none ⊢
  split_ifs at none ⊢
  · exact mem_pages_take_none (Option.map_eq_none_iff.mp none) number
  · exact mem_pages_take_none none number

/-- A sequence that is freed at once gives its pages back. -/
private theorem mem_pages_free_fresh (page : 0 < pageSize) (is : (allocFresh pageSize len pool).1 = some slots)
    (number : ℕ) : number ∈ ((allocFresh pageSize len pool).2.free pageSize slots).pages ↔ number ∈ pool.pages := by
  obtain ⟨free, rfl, enough, took⟩ := allocFresh_eq_some page is
  rw [mem_pages_free, mem_pages_freshSlots page enough, took.perm.mem_iff, mem_append]

/-- Both results or none of them is used. -/
theorem ensures_mapped_ne_none {full swa : Option (List ℕ) × KvPool} {first : ℕ} :
    Ensures (mapped full swa first) allocator (fun result _ => result ≠ none) fun _ => True :=
  ensures_mapped fun _ _ _ _ => Option.some_ne_none _

private theorem ensures_alloc_none (needSize : ℕ) (allocator : KvAllocator) :
    Ensures (alloc pageSize needSize) allocator
      (fun result allocator' => result = none → SameFree allocator allocator') fun _ => True := by
  unfold alloc
  rw [ensures_bind, ensures_get]
  split_ifs
  · exact fun _ => .refl _
  · exact fun _ => .refl _
  · exact ensures_mapped_ne_none.mono (fun _ _ some none => absurd none some) fun _ => id

private theorem ensures_allocExtend_none (seqs : List ExtendSeq) (allocator : KvAllocator) :
    Ensures (allocExtend pageSize seqs) allocator
      (fun result allocator' => result = none → SameFree allocator allocator') fun _ => True := by
  unfold allocExtend
  rw [ensures_bind, ensures_get]
  dsimp only
  split_ifs
  · exact fun _ => .refl _
  · exact fun _ => .refl _
  · rw [ensures_bind, ensures_set]
    exact ensures_compiled (ensures_mapped_ne_none.mono (fun _ _ some none => absurd none some) fun _ => id) trivial

private theorem ensures_allocExtendWindowedSwa_none (page : 0 < pageSize) (fullSeqLen swaWinStart : ℕ)
    (allocator : KvAllocator) : Ensures (allocExtendWindowedSwa pageSize fullSeqLen swaWinStart) allocator
      (fun result allocator' => result = none → SameFree allocator allocator') fun _ => True := by
  unfold allocExtendWindowedSwa
  rw [ensures_bind, ensures_get, ensures_bind, ensures_ensure]
  dsimp only
  split_ifs
  · exact fun _ => .refl _
  · exact fun _ => .refl _
  · split
    · next none => exact fun _ => ⟨mem_pages_allocFresh_none none, fun _ => Iff.rfl, rfl⟩
    · next slots is =>
      rw [ensures_bind, ensures_set]
      apply ensures_compiled _ trivial
      split
      · next none => exact fun _ => ⟨mem_pages_free_fresh page is, mem_pages_take_none none, rfl⟩
      · exact ensures_mapped_ne_none.mono (fun _ _ some none => absurd none some) fun _ => id

/-- Both pools have the pages of a decode step, or neither has. -/
def RunOutTogether (pageSize : ℕ) (allocator : KvAllocator) (seqs : List DecodeSeq) : Prop :=
  decodeNumNewPages pageSize seqs ≤ (allocator.full.prepare seqs.length).freePages.length ↔
    decodeNumNewPages pageSize seqs ≤ (allocator.swa.prepare seqs.length).freePages.length

private theorem take_eq_none_iff :
    (pool.take needed outIndices).1 = none ↔ ¬needed ≤ pool.freePages.length := by
  unfold KvPool.take
  split_ifs with few <;> simp [few, not_lt.mp]

/-- A pool of distinct pages that has given some away has fewer of them. -/
private theorem short_of_same {estimate : ℕ} (distinct : pool.pages.Nodup) (some : 0 < needed)
    (same : ∀ number, number ∈ ((pool.prepare estimate).take needed outIndices).2.pages ↔ number ∈ pool.pages) :
    ¬needed ≤ (pool.prepare estimate).freePages.length := by
  intro enough
  have returned : (pool.prepare estimate).take needed outIndices =
      (Option.some outIndices,
      { pool.prepare estimate with freePages := (pool.prepare estimate).freePages.drop needed }) :=
    if_neg (not_lt.mpr enough)
  obtain ⟨_, _, took⟩ := KvPool.take_eq_some returned
  rw [returned] at same
  have perm := took.prepare.perm
  obtain ⟨number, taken⟩ := exists_mem_of_length_pos (l := (pool.prepare estimate).freePages.take needed)
    (by rw [length_take, min_eq_left enough]; exact some)
  have kept := (same number).mpr (perm.mem_iff.mpr (mem_append_left _ taken))
  exact (nodup_append.mp (perm.nodup_iff.mp distinct)).2.2 number taken number kept rfl

theorem decodeNumNewPages_map (seqs : List DecodeSeq) (translate : ℤ → ℤ) :
    decodeNumNewPages pageSize (seqs.map fun seq => { seq with lastLoc := translate seq.lastLoc }) =
      decodeNumNewPages pageSize seqs := foldr_map ..

private theorem ensures_allocDecode_none (allocator : KvAllocator) (seqs : List DecodeSeq) :
    Ensures (allocDecode pageSize seqs) allocator
      (fun result allocator' => result = none →
        (RunOutTogether pageSize allocator seqs → SameFree allocator allocator') ∧
          (allocator.full.pages.Nodup → allocator.swa.pages.Nodup → SameFree allocator allocator' →
            RunOutTogether pageSize allocator seqs)) fun _ => True := by
  have fullNone : (allocator.full.allocDecode pageSize seqs).1 = none ↔
      ¬decodeNumNewPages pageSize seqs ≤ (allocator.full.prepare seqs.length).freePages.length := take_eq_none_iff
  have swaNone : (allocator.swa.allocDecode pageSize
      (seqs.map fun seq => { seq with lastLoc := allocator.translate seq.lastLoc })).1 = none ↔
        ¬decodeNumNewPages pageSize seqs ≤ (allocator.swa.prepare seqs.length).freePages.length := by
    unfold KvPool.allocDecode
    rw [take_eq_none_iff, decodeNumNewPages_map, length_map]
  unfold allocDecode
  rw [ensures_bind, ensures_get]
  dsimp only
  split_ifs with out
  · refine fun _ => ⟨fun together => ?_, fun fullDistinct swaDistinct same => ?_⟩
    · have both := fullNone.trans ((not_congr together).trans swaNone.symm)
      have out := or_iff_left_iff_imp.mpr both.mpr |>.mp out
      exact ⟨mem_pages_take_none out, mem_pages_take_none (both.mp out), rfl⟩
    · -- a pool that could not pay needs a page, so the other one has taken it if it could
      rw [fullNone, swaNone] at out
      have some : 0 < decodeNumNewPages pageSize seqs := by omega
      have full := short_of_same fullDistinct some same.full
      have swa := same.swa
      unfold KvPool.allocDecode at swa
      rw [decodeNumNewPages_map, length_map] at swa
      exact iff_of_false full (short_of_same swaDistinct some swa)
  · exact ensures_mapped_ne_none.mono (fun _ _ some none => absurd none some) fun _ => id

/-- What an allocation without a result leaves. After `alloc_decode` it is what was there exactly if both pools have run
out. -/
theorem failed_allocation_takes_nothing (page : 0 < pageSize) (allocator allocator' : KvAllocator) :
    (∀ needSize, alloc pageSize needSize allocator = .ok none allocator' → SameFree allocator allocator') ∧
      (∀ seqs, allocExtend pageSize seqs allocator = .ok none allocator' → SameFree allocator allocator') ∧
      (∀ fullSeqLen swaWinStart, allocExtendWindowedSwa pageSize fullSeqLen swaWinStart allocator =
        .ok none allocator' → SameFree allocator allocator') ∧
      ∀ seqs, allocDecode pageSize seqs allocator = .ok none allocator' →
        (RunOutTogether pageSize allocator seqs → SameFree allocator allocator') ∧
          (allocator.full.pages.Nodup → allocator.swa.pages.Nodup → SameFree allocator allocator' →
            RunOutTogether pageSize allocator seqs) := by
  have of_ensures {call : KvM (Option (List ℕ))} {kept : KvAllocator → Prop}
      (ensured : Ensures call allocator (fun result after => result = none → kept after) fun _ => True)
      (is : call allocator = .ok none allocator') : kept allocator' := by
    unfold Ensures at ensured
    rw [is] at ensured
    exact ensured rfl
  exact ⟨fun needSize => of_ensures (ensures_alloc_none needSize allocator),
    fun seqs => of_ensures (ensures_allocExtend_none seqs allocator),
    fun fullSeqLen swaWinStart =>
      of_ensures (ensures_allocExtendWindowedSwa_none page fullSeqLen swaWinStart allocator),
    fun seqs => of_ensures (ensures_allocDecode_none allocator seqs)⟩

/-- Neither pool has a page for the next token. -/
theorem failed_allocation_takes_nothing_on_full :
    ∃ before after, allocExtend 4 [⟨0, 4, -1⟩] (clear 4 4 4 true) = .ok (some [4, 5, 6, 7]) before ∧
      allocDecode 4 [⟨5, 7⟩] before = .ok none after ∧ SameFree before after := by
  refine ⟨_, _, rfl, rfl, ?_⟩
  exact (failed_allocation_takes_nothing (by decide : 0 < 4) _ _).2.2.2 [⟨5, 7⟩] rfl |>.1
    (by unfold RunOutTogether; decide)

/-- The full pool has a page for the next token and loses it, since the window pool has none. -/
theorem failed_decode_loses_page :
    ∃ before after, allocExtend 4 [⟨0, 4, -1⟩] (clear 4 8 4 true) = .ok (some [4, 5, 6, 7]) before ∧
      allocDecode 4 [⟨5, 7⟩] before = .ok none after ∧ before.full.pages = [2] ∧ after.full.pages = [] :=
  ⟨_, _, rfl, rfl, rfl, rfl⟩

/-! ## Long sequences -/

/-- `alloc` and `alloc_extend` merge the released pages for a sequence of this length, or neither does. -/
def MergeAlike (pageSize : ℕ) (pool : KvPool) (len : ℕ) : Prop :=
  pool.needSort = false ∨ pool.releasePages = [] ∨ pool.freePages.length < numPages pageSize len ∨
    len / pageSize + 2 ≤ pool.freePages.length

theorem numPages_le_div_add_one (page : 0 < pageSize) (len : ℕ) : numPages pageSize len ≤ len / pageSize + 1 := by
  have := Nat.lt_div_mul_add page (a := len)
  rw [numPages_le_iff page, Nat.succ_mul]
  omega

private theorem prepare_eq_iff (page : 0 < pageSize) :
    pool.prepare (numPages pageSize len) = pool.prepare (len / pageSize + 2) ↔ MergeAlike pageSize pool len := by
  have lower := numPages_le_div_add_one page len
  unfold MergeAlike
  constructor
  · intro same
    by_contra! apart
    obtain ⟨sorted, waits, enough, more⟩ := apart
    unfold KvPool.prepare at same
    rw [if_neg fun few => enough.not_gt few.2, if_pos ⟨eq_true_of_ne_false sorted, more⟩, KvPool.mergeAndSortFree,
      if_neg waits] at same
    exact waits (congrArg KvPool.releasePages same)
  · unfold KvPool.prepare
    rintro (unsorted | merged | few | many)
    · simp [unsorted]
    · simp [KvPool.mergeAndSortFree, merged]
    · have fewer : pool.freePages.length < len / pageSize + 2 := by omega
      simp [few, fewer]
    · rw [if_neg fun ⟨_, few⟩ => by omega, if_neg fun ⟨_, few⟩ => by omega]

private theorem allocExtend_fresh_eq (page : 0 < pageSize) (pool : KvPool) (len : ℕ) :
    pool.allocExtend pageSize [⟨0, len, -1⟩] = (pool.prepare (len / pageSize + 2)).take (numPages pageSize len)
      (allocExtendKernel pageSize [⟨0, len, -1⟩] (pool.prepare (len / pageSize + 2)).freePages) := by
  unfold KvPool.allocExtend
  rw [extendNumNewPages_fresh page]
  rfl

private theorem releasePages_take : (pool.take needed outIndices).2.releasePages = pool.releasePages := by
  unfold KvPool.take
  split_ifs <;> rfl

/-- Whole pages that are cut to the length are what `alloc_extend` hands out, with the same pages left, exactly if both
merge the released pages or neither does. -/
theorem large_prealloc_same_layout (page : 0 < pageSize) (pool : KvPool) (fullSeqLen : ℕ) :
    allocWhole pageSize fullSeqLen pool = pool.allocExtend pageSize [⟨0, fullSeqLen, -1⟩] ↔
      MergeAlike pageSize pool fullSeqLen := by
  unfold allocWhole KvPool.alloc
  rw [allocExtend_fresh_eq page, Nat.mul_div_cancel _ page, ← prepare_eq_iff page]
  constructor
  · intro same
    have left := congrArg (·.2.releasePages) same
    dsimp only at left
    rw [releasePages_take, releasePages_take] at left
    unfold KvPool.prepare KvPool.mergeAndSortFree at left ⊢
    have := numPages_le_div_add_one page fullSeqLen
    split_ifs at left ⊢ <;> grind
  · intro same
    rw [same]
    dsimp only
    unfold KvPool.take
    split_ifs with few
    · rfl
    · rw [Option.map_some, take_flatMap_pages page (not_lt.mp few)]

/-- Two pages are at hand and none waits. -/
theorem large_prealloc_same_layout_on_two_pages :
    MergeAlike 4 ⟨16, true, [2, 3], []⟩ 5 ∧
      allocWhole 4 5 ⟨16, true, [2, 3], []⟩ = KvPool.allocExtend 4 ⟨16, true, [2, 3], []⟩ [⟨0, 5, -1⟩] :=
  ⟨.inr (.inl rfl), (large_prealloc_same_layout (by decide) _ _).mpr (.inr (.inl rfl))⟩

/-- Two pages are at hand and a lower one waits: `alloc` takes the two, and `alloc_extend` takes the lower one first. -/
theorem large_prealloc_other_layout :
    allocWhole 4 5 ⟨16, true, [2, 3], [1]⟩ = (some [8, 9, 10, 11, 12], ⟨16, true, [], [1]⟩) ∧
      KvPool.allocExtend 4 ⟨16, true, [2, 3], [1]⟩ [⟨0, 5, -1⟩] = (some [4, 5, 6, 7, 8], ⟨16, true, [3], []⟩) := by
  decide

/-! ## Backup -/

/-- The calls between a backup and its restoration. -/
def Extends : KvCall → Prop
  | .allocExtend _ => True
  | .allocDecode _ => True
  | _ => False

/-- Pages have been taken for these slots, which alone are mapped anew. -/
structure Drawn (before after : KvAllocator) (slots : List ℕ) : Prop where
  full : after.full.restoreState before.full.backupState = before.full
  swa : after.swa.restoreState before.swa.backupState = before.swa
  mapping : ∀ slot, slot ∉ slots → after.fullToSwa slot = before.fullToSwa slot

theorem restoreState_prepare {pool before : KvPool} (same : pool.restoreState before.backupState = before)
    (estimate : ℕ) : (pool.prepare estimate).restoreState before.backupState = before := by
  rw [← same]
  unfold KvPool.prepare KvPool.mergeAndSortFree
  split_ifs <;> rfl

private theorem restoreState_take {pool before : KvPool} (same : pool.restoreState before.backupState = before)
    (estimate needed : ℕ) (outIndices : List ℕ) :
    ((pool.prepare estimate).take needed outIndices).2.restoreState before.backupState = before := by
  rw [← restoreState_prepare same estimate]
  unfold KvPool.take
  split_ifs <;> rfl

/-- Pages of both pools are taken, and mapped if both have enough. -/
private theorem ensures_mapped_drawn {allocator : KvAllocator} {drawn : List ℕ} {full swa : Option (List ℕ) × KvPool}
    {first : ℕ} (is : Drawn before allocator drawn) (isFull : full.2.restoreState before.full.backupState = before.full)
    (isSwa : swa.2.restoreState before.swa.backupState = before.swa) :
    Ensures (mapped full swa first) allocator
      (fun result allocator' => Drawn before allocator' (result.getD [] ++ drawn))
      fun allocator' => Drawn before allocator' drawn := by
  unfold mapped
  split
  · refine ⟨isFull, isSwa, fun slot outside => ?_⟩
    rw [mem_append, not_or] at outside
    rw [← is.mapping slot outside.2]
    apply scatter_of_not_mem
    intro touched
    obtain ⟨pair, mem, rfl⟩ := mem_map.mp touched
    exact outside.1 (mem_of_mem_drop (of_mem_zip mem).1)
  · exact ⟨isFull, isSwa, is.mapping⟩

/-- What has been drawn when an allocation ends. -/
private theorem drawn_handOut {call : KvM (Option (List ℕ))} (ensured : Ensures call server.allocator
      (fun result allocator' => Drawn before allocator' (result.getD [] ++ server.allocated))
      fun allocator' => Drawn before allocator' server.allocated) :
    Drawn before (server.handOut (call server.allocator)).allocator
      (server.handOut (call server.allocator)).allocated := by
  refine ensured.elim (fun result allocator' drawn => ?_) fun _ _ drawn => drawn
  cases result with
  | none => exact drawn
  | some slots => exact drawn

private theorem drawn_step (is : Drawn before server.allocator server.allocated) {call : KvCall}
    (extend : Extends call) :
    Drawn before (server.step pageSize call).allocator (server.step pageSize call).allocated := by
  cases call with
  | allocExtend seqs =>
    apply drawn_handOut
    unfold allocExtend
    rw [ensures_bind, ensures_get]
    dsimp only
    split_ifs
    · exact is
    · exact is
    · have merged (estimate : ℕ) :
          Drawn before { server.allocator with full := server.allocator.full.prepare estimate } server.allocated :=
        ⟨restoreState_prepare is.full estimate, is.swa, is.mapping⟩
      rw [ensures_bind, ensures_set]
      exact ensures_compiled
        (ensures_mapped_drawn (merged _) (restoreState_take is.full ..) (restoreState_take is.swa ..)) (merged _)
  | allocDecode seqs =>
    apply drawn_handOut
    unfold allocDecode
    rw [ensures_bind, ensures_get]
    dsimp only
    split_ifs
    · exact ⟨restoreState_take is.full .., restoreState_take is.swa .., is.mapping⟩
    · exact ensures_mapped_drawn is (restoreState_take is.full ..) (restoreState_take is.swa ..)
  | allocExtendWindowedSwa fullSeqLen swaWinStart => exact extend.elim
  | free slots => exact extend.elim
  | freeSwa slots => exact extend.elim

/-- The call hands out nothing: it asks for no token, or a pool has too few pages, or the kernel does not compile. -/
def Idle (pageSize : ℕ) (server : KvServer) : KvCall → Prop
  | .allocExtend seqs =>
    (∀ seq ∈ seqs, seq.prefixLen = seq.seqLen) ∨
      server.allocator.full.availableSize pageSize / pageSize < extendNumNewPages pageSize seqs ∨
      server.allocator.swa.availableSize pageSize / pageSize < extendNumNewPages pageSize seqs ∨
      tritonMaxTensorNumel < nextPowerOf2 (extendNumTokens seqs)
  | .allocDecode seqs =>
    seqs = [] ∨ (server.allocator.full.prepare seqs.length).freePages.length < decodeNumNewPages pageSize seqs ∨
      (server.allocator.swa.prepare seqs.length).freePages.length < decodeNumNewPages pageSize seqs
  | _ => False

private theorem allocExtendKernel_idle (none : ∀ seq ∈ seqs, seq.prefixLen = seq.seqLen) (pages : List ℕ) :
    allocExtendKernel pageSize seqs pages = [] := by
  induction seqs generalizing pages with
  | nil => rfl
  | cons seq seqs ih =>
    have empty : min seq.seqLen (numPages pageSize seq.seqLen * pageSize) - seq.seqLen = 0 := by omega
    rw [allocExtendKernel, ih fun other mem => none other (mem_cons_of_mem _ mem), ExtendSeq.outIndices,
      none seq mem_cons_self]
    simp [empty]

private theorem allocated_handOut {call : KvM (Option (List ℕ))}
    (ensured : Ensures call server.allocator (fun result _ => result.getD [] = []) fun _ => True) :
    (server.handOut (call server.allocator)).allocated = server.allocated := by
  refine ensured.elim (fun result allocator' empty => ?_) fun _ _ _ => rfl
  cases result with
  | none => rfl
  | some slots => exact congrArg (· ++ server.allocated) empty

theorem Idle.allocated_step {call : KvCall} (idle : Idle pageSize server call) :
    (server.step pageSize call).allocated = server.allocated := by
  cases call with
  | allocExtend seqs =>
    apply allocated_handOut
    unfold allocExtend
    rw [ensures_bind, ensures_get]
    dsimp only
    split_ifs with full swa
    · rfl
    · rfl
    · rw [ensures_bind, ensures_set]
      refine ensures_ensure_bind (fun compiles => ensures_mapped fun slots swaSlots isFull _ => ?_) fun _ => trivial
      obtain ⟨free, rfl, _⟩ := KvPool.allocExtend_eq_some (Prod.ext isFull rfl)
      apply allocExtendKernel_idle
      rcases idle with none | few | few | large
      · exact none
      · exact absurd few full
      · exact absurd few swa
      · exact absurd compiles large.not_ge
  | allocDecode seqs =>
    apply allocated_handOut
    unfold allocDecode
    rw [ensures_bind, ensures_get]
    dsimp only
    split_ifs with out
    · rfl
    · refine ensures_mapped fun slots swaSlots isFull isSwa => ?_
      obtain ⟨rfl, fullEnough, _⟩ := KvPool.take_eq_some (Prod.ext isFull rfl)
      obtain ⟨_, swaEnough, _⟩ := KvPool.take_eq_some (Prod.ext isSwa rfl)
      rw [length_map, decodeNumNewPages_map] at swaEnough
      rcases idle with rfl | few | few
      · rfl
      · exact absurd fullEnough few.not_ge
      · exact absurd swaEnough few.not_ge
  | allocExtendWindowedSwa fullSeqLen swaWinStart => exact idle.elim
  | free slots => exact idle.elim
  | freeSwa slots => exact idle.elim

/-- The pages come back, and so does the mapping of every slot that was not handed out in between. If nothing was handed
out, the whole state is as before. -/
theorem restore_undoes_extensions (pageSize : ℕ) (allocator : KvAllocator) (calls : List KvCall)
    (extend : ∀ call ∈ calls, Extends call) :
    let after := run (KvServer.step pageSize) ⟨allocator, [], [], []⟩ calls
    let restored := after.allocator.restoreState allocator.backupState
    restored.full = allocator.full ∧ restored.swa = allocator.swa ∧
      (∀ slot, slot ∉ after.allocated → restored.fullToSwa slot = allocator.fullToSwa slot) ∧
      (Along (KvServer.step pageSize) (Idle pageSize) ⟨allocator, [], [], []⟩ calls → restored = allocator) := by
  intro after restored
  have drawn : Drawn allocator after.allocator after.allocated := by
    have start : Drawn allocator allocator [] := ⟨rfl, rfl, fun _ _ => rfl⟩
    exact @Along.invariant _ _ _ _ (fun server : KvServer => Drawn allocator server.allocator server.allocated) _ _
      (along_of_forall extend) start fun _ _ is allowed => drawn_step is allowed
  refine ⟨drawn.full, drawn.swa, drawn.mapping, fun idle => ?_⟩
  have none : after.allocated = [] :=
    @Along.invariant _ _ _ _ (fun server : KvServer => server.allocated = []) _ _ idle rfl
      fun _ _ none idle => (Idle.allocated_step idle).trans none
  have mapping : restored.fullToSwa = allocator.fullToSwa := by
    funext slot
    exact drawn.mapping slot (none ▸ not_mem_nil)
  exact congr (congr (congrArg KvAllocator.mk drawn.full) drawn.swa) mapping

/-- Two slots are handed out between the backup and its restoration. -/
theorem restore_undoes_extensions_on_one_page :
    (∀ call ∈ [KvCall.allocExtend [⟨0, 2, -1⟩]], Extends call) ∧
      let after := run (KvServer.step 2) ⟨clear 2 4 4 true, [], [], []⟩ [.allocExtend [⟨0, 2, -1⟩]]
      (after.allocator.restoreState (clear 2 4 4 true).backupState).full = (clear 2 4 4 true).full := by
  have all : ∀ call ∈ [KvCall.allocExtend [⟨0, 2, -1⟩]], Extends call := by
    rintro call member
    rw [mem_singleton.mp member]
    trivial
  exact ⟨all, (restore_undoes_extensions 2 (clear 2 4 4 true) _ all).1⟩

/-- The two slots stay mapped. A prompt of four tokens with a window of two gets them again, in front of its window, and
to free their window slots frees the page of the window. -/
theorem restore_keeps_mapping :
    let after := run (KvServer.step 2) ⟨clear 2 4 4 true, [], [], []⟩ [.allocExtend [⟨0, 2, -1⟩]]
    let restored := after.allocator.restoreState (clear 2 4 4 true).backupState
    (clear 2 4 4 true).swaIndices [2, 3] = [] ∧ restored.swaIndices [2, 3] = [2, 3] ∧
      ∃ prompt, allocExtendWindowedSwa 2 4 2 restored = .ok (some [2, 3, 4, 5]) prompt ∧ prompt.fullToSwa 4 = 2 ∧
        prompt.swa.pages = [2] ∧ (prompt.freeSwa 2 [2, 3]).swa.pages = [2, 1] :=
  ⟨rfl, rfl, _, rfl, rfl, rfl, rfl⟩

end KvAllocator

end FlashMemory
