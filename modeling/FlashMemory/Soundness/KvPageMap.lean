import FlashMemory.Soundness.KvPages

/-! # The page map along every history

Freeing whole pages keeps the page map, and so do all allocations.
-/

namespace FlashMemory

open List KvPool

namespace KvServer

variable {pageSize : ℕ} {server : KvServer}

/-! ## Freeing -/

section

variable {allocator : KvAllocator} {slots : List ℕ} {slot : ℕ}

theorem mem_swaIndices :
    slot ∈ allocator.swaIndices slots ↔ slot ≠ 0 ∧ ∃ other ∈ slots, allocator.fullToSwa other = slot := by
  rw [KvAllocator.swaIndices, mem_filter, mem_map, decide_eq_true_eq, Nat.pos_iff_ne_zero, and_comm]

/-- What is mapped afterwards was mapped before and is not among the slots. -/
theorem mapped_freeSwa
    (mapped : (allocator.freeSwa pageSize slots).fullToSwa slot ≠ 0) : slot ∉ slots ∧ allocator.fullToSwa slot ≠ 0 ∧
      (allocator.freeSwa pageSize slots).fullToSwa slot = allocator.fullToSwa slot := by
  by_cases freed : slot ∈ slots
  · exact absurd (if_pos freed) mapped
  · have same : (allocator.freeSwa pageSize slots).fullToSwa slot = allocator.fullToSwa slot := if_neg freed
    exact ⟨freed, same ▸ mapped, same⟩

end

/-- The window slots of whole pages are freed. -/
theorem Paged.freeSwa (paged : Paged pageSize server) (page : 1 < pageSize) {slots allocated swaFreed : List ℕ}
    {full : KvPool} (whole : ∀ slot, server.allocator.fullToSwa slot ≠ 0 → slot / pageSize ∈ slots.map (· / pageSize) →
      slot ∈ slots)
    (fullOk : full.pages.Nodup ∧ ∀ slot ∈ allocated, slot / pageSize ∉ full.pages)
    (fullRange : full.Ranged pageSize allocated)
    (known : ∀ slot, slot ∉ allocated ∨ slot ∈ swaFreed → slot ∈ slots ∨ slot ∉ server.allocated ∨
      slot ∈ server.swaFreed) :
    Paged pageSize
      ⟨{ server.allocator with full := full }.freeSwa pageSize slots, allocated,
        server.swaAllocated.filter (· ∉ server.allocator.swaIndices slots), swaFreed⟩ := by
  -- two slots whose window slots share a page are freed together
  have together : ∀ slot, server.allocator.fullToSwa slot ≠ 0 → server.allocator.fullToSwa slot / pageSize ∈
      (server.allocator.swaIndices slots).map (· / pageSize) → slot ∈ slots := by
    intro slot mapped shares
    obtain ⟨_, among, same⟩ := mem_map.mp shares
    obtain ⟨nonzero, other, freed, rfl⟩ := mem_swaIndices.mp among
    exact whole slot mapped (mem_map.mpr ⟨other, freed, (paged.pages other slot nonzero mapped).mpr same⟩)
  have touched : ∀ slot ∈ server.allocator.swaIndices slots,
      slot / pageSize ∈ server.swaAllocated.map (· / pageSize) := by
    intro slot among
    obtain ⟨nonzero, other, _, rfl⟩ := mem_swaIndices.mp among
    exact mem_map_of_mem (paged.into other nonzero)
  have windows : WholePages pageSize (server.allocator.swaIndices slots) server.swaAllocated := by
    intro slot kept shares
    obtain ⟨nonzero, source, rfl⟩ := paged.onto slot kept
    exact mem_swaIndices.mpr ⟨nonzero, source, together source nonzero shares, rfl⟩
  refine ⟨⟨fullOk, apart_free touched page windows paged.swa, fun slot outside => ?_, fun slot mapped => ?_,
    fun slot mapped => ?_, fun slot other mapped otherMapped => ?_⟩, fullRange, paged.swaRange.free touched,
      fun slot mem => ?_⟩
  · change (if slot ∈ slots then 0 else server.allocator.fullToSwa slot) = 0
    rcases known slot outside with freed | unmapped
    · rw [if_pos freed]
    · rw [paged.unmapped slot unmapped, ite_self]
  · obtain ⟨_, before, same⟩ := mapped_freeSwa mapped
    rw [same]
    exact paged.offset slot before
  · obtain ⟨kept, before, same⟩ := mapped_freeSwa mapped
    rw [same]
    refine mem_filter.mpr ⟨paged.into slot before, decide_eq_true fun among => ?_⟩
    exact kept (together slot before (mem_map_of_mem among))
  · obtain ⟨_, before, same⟩ := mapped_freeSwa mapped
    obtain ⟨_, otherBefore, otherSame⟩ := mapped_freeSwa otherMapped
    rw [same, otherSame]
    exact paged.pages slot other before otherBefore
  · obtain ⟨kept, outside⟩ := mem_filter.mp mem
    obtain ⟨nonzero, source, is⟩ := paged.onto slot kept
    refine ⟨nonzero, source, (if_neg fun freed => ?_).trans is⟩
    exact of_decide_eq_true outside (mem_swaIndices.mpr ⟨nonzero, source, freed, is⟩)

/-- Whole pages are freed. -/
theorem Paged.free (paged : Paged pageSize server) (page : 1 < pageSize) {slots : List ℕ}
    (touched : ∀ slot ∈ slots, slot / pageSize ∈ server.allocated.map (· / pageSize))
    (whole : WholePages pageSize slots server.allocated) :
    Paged pageSize
      ⟨server.allocator.free pageSize slots, server.allocated.filter (· ∉ slots),
        server.swaAllocated.filter (· ∉ server.allocator.swaIndices slots), server.swaFreed.filter (· ∉ slots)⟩ := by
  refine paged.freeSwa page (fun slot mapped => whole slot (paged.allocated_of_mapped mapped))
    (apart_free touched page whole paged.full) (paged.fullRange.free touched) fun slot outside => ?_
  by_cases freed : slot ∈ slots
  · exact .inl freed
  · refine .inr (outside.imp (fun outside allocated => outside ?_) fun mem => (mem_filter.mp mem).1)
    exact mem_filter.mpr ⟨allocated, decide_eq_true freed⟩

/-! ## Histories -/

theorem paged_init (size sizeSwa : ℕ) (needSort : Bool) : Paged pageSize (init pageSize size sizeSwa needSort) := by
  refine ⟨⟨⟨?_, ?_⟩, ⟨?_, ?_⟩, ?_, ?_, ?_, ?_⟩, fun number => ?_, fun number => ?_, ?_⟩
  all_goals simp [init, KvAllocator.clear, clear, pages, nodup_range']
  all_goals omega

theorem free_nil (allocator : KvAllocator) : allocator.free pageSize [] = allocator := by
  have pages : KvPool.pagesOf pageSize [] = [] := by simp [KvPool.pagesOf]
  have pool (pool : KvPool) : pool.free pageSize [] = pool := by
    simp [free, pages]
  simp [KvAllocator.free, KvAllocator.freeSwa, KvAllocator.swaIndices, pool]

section

variable {slots : List ℕ} (paged : Paged pageSize server) (page : 1 < pageSize)
  (touched : ∀ slot ∈ slots, slot / pageSize ∈ server.allocated.map (· / pageSize))
  (whole : WholePages pageSize slots server.allocated)

include paged page touched whole

/-- The asserts of `free` hold. -/
theorem Paged.freeChecked :
    KvAllocator.freeChecked pageSize slots server.allocator = .ok () (server.allocator.free pageSize slots) := by
  have ensured : Ensures (KvAllocator.freeChecked pageSize slots) server.allocator
      (fun _ allocator => allocator = server.allocator.free pageSize slots) fun _ => False := by
    unfold KvAllocator.freeChecked
    split_ifs with empty
    · rw [empty, free_nil]
      rfl
    · have freed := paged.free page touched whole
      rw [ensures_bind, ensures_modify, ensures_bind, ensures_get, ensures_bind,
        ensures_ensure_of (freed.fullRange.availableSize_le freed.full.1),
        ensures_ensure_of (freed.swaRange.availableSize_le freed.swa.1)]
  obtain ⟨_, allocator, is, rfl⟩ := ensured.returns
  exact is

theorem Paged.step_free :
    server.step pageSize (.free slots) =
      ⟨server.allocator.free pageSize slots, server.allocated.filter (· ∉ slots),
        server.swaAllocated.filter (· ∉ server.allocator.swaIndices slots), server.swaFreed.filter (· ∉ slots)⟩ := by
  rw [step, paged.freeChecked page touched whole]
  rfl

end

/-- The result of a call that succeeds is what the call ensures. -/
private theorem ensured_of_succeeds {call : KvM (Option (List ℕ))} {post : List ℕ → KvAllocator → Prop}
    (succeeds : Succeeds (call server.allocator))
    (ensured : Ensures call server.allocator (fun result allocator => ∀ slots ∈ result, post slots allocator)
      fun _ => True) :
    ∃ slots allocator, call server.allocator = .ok (some slots) allocator ∧ post slots allocator := by
  revert succeeds
  refine ensured.elim (fun result allocator holds succeeds => ?_) fun _ _ _ => False.elim
  cases result with
  | none => exact succeeds.elim
  | some slots => exact ⟨slots, allocator, rfl, holds slots rfl⟩

section

variable (page : 1 < pageSize) (paged : Paged pageSize server) (call : KvCall)
  (valid : server.Valid pageSize call)
include page paged valid

/-- A call hands out what it has allocated, or it is one of the two that free. -/
theorem step_cases :
    (∃ slots pairs fullTaken allocator, Allocates pageSize server slots pairs fullTaken allocator ∧
      server.step pageSize call = server.handOut (.ok (some slots) allocator)) ∨
      (∃ slots, call = .free slots) ∨ ∃ slots, call = .freeSwa slots := by
  have some : 0 < pageSize := by omega
  cases call with
  | allocExtend seqs =>
    obtain ⟨slots, allocator, is, _, _, allocates⟩ :=
      ensured_of_succeeds valid.2 (ensures_allocExtend some paged valid.1)
    exact .inl ⟨slots, _, _, allocator, allocates, congrArg server.handOut is⟩
  | allocExtendWindowedSwa fullSeqLen swaWinStart =>
    obtain ⟨slots, allocator, is, _, _, _, _, _, _, allocates⟩ :=
      ensured_of_succeeds valid.2 (ensures_allocExtendWindowedSwa some paged valid.1)
    exact .inl ⟨slots, _, _, allocator, allocates, congrArg server.handOut is⟩
  | allocDecode seqs =>
    obtain ⟨slots, allocator, is, _, _, _, _, _, allocates⟩ :=
      ensured_of_succeeds valid.2 (ensures_allocDecode page paged valid.1)
    exact .inl ⟨slots, _, _, allocator, allocates, congrArg server.handOut is⟩
  | free slots => exact .inr (.inl ⟨slots, rfl⟩)
  | freeSwa slots => exact .inr (.inr ⟨slots, rfl⟩)

theorem paged_step : Paged pageSize (server.step pageSize call) := by
  rcases step_cases page paged call valid with ⟨_, _, _, _, allocates, is⟩ | ⟨slots, rfl⟩ | ⟨slots, rfl⟩
  · rw [is]
    exact allocates.paged paged
  · obtain ⟨touched, whole⟩ := valid
    rw [paged.step_free page touched whole]
    exact paged.free page touched whole
  · refine paged.freeSwa page (fun slot mapped mem => ?_) paged.full paged.fullRange fun slot outside => ?_
    · refine valid slot (mem_filter.mpr ⟨paged.allocated_of_mapped mapped, by simpa using mapped⟩) mem
    · rcases outside with outside | freed
      · exact .inr (.inl outside)
      · exact (mem_append.mp freed).imp id .inr

end

/-- After every history of successful allocations and frees of whole pages, free pages are free once and hold no slot,
and the mapping is `0` outside, keeps the offsets and maps pages one to one. -/
theorem full_to_swa_page_map (page : 1 < pageSize) (size sizeSwa : ℕ) (needSort : Bool) (calls : List KvCall)
    (valid : Along (step pageSize) (Valid pageSize) (init pageSize size sizeSwa needSort) calls) :
    PageMap pageSize (run (step pageSize) (init pageSize size sizeSwa needSort) calls) :=
  (valid.invariant (paged_init size sizeSwa needSort) fun _ call paged allowed =>
    paged_step page paged call allowed).toPageMap

/-- A sequence with a window is decoded, loses the first page of its window and grows beside another one, and is
freed. -/
def windowedRun : List KvCall :=
  [.allocExtendWindowedSwa 5 2, .allocDecode [⟨6, 6⟩], .freeSwa [4, 5], .allocExtend [⟨0, 3, -1⟩, ⟨6, 9, 7⟩],
    .free [2, 3, 4, 5, 6, 7, 12, 13, 14]]

theorem full_to_swa_page_map_on_windowedRun :
    Along (step 2) (Valid 2) (init 2 16 16 false) windowedRun ∧
      PageMap 2 (run (step 2) (init 2 16 16 false) windowedRun) :=
  have valid : Along (step 2) (Valid 2) (init 2 16 16 false) windowedRun := by decide +kernel
  ⟨valid, full_to_swa_page_map (by decide) 16 16 false windowedRun valid⟩

end KvServer

end FlashMemory
