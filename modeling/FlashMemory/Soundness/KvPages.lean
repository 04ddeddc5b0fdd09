import FlashMemory.Model.KvCalls
import FlashMemory.Soundness.KvKernels

/-! # Free pages and the page map

Every page of a pool is either free or holds slots that were handed out. `full_to_swa_index_mapping` keeps the offset
inside a page, and it maps the pages with window slots one to one to pages of the window pool.
-/

namespace FlashMemory

open List KvAllocator

variable {pageSize : ℕ}
variable {needed len number : ℕ}

/-! ## A pool -/

namespace KvPool

variable {pool pool' : KvPool} {slots : List ℕ}

theorem perm_prepare (needed : ℕ) : (pool.prepare needed).pages.Perm pool.pages := by
  unfold prepare mergeAndSortFree pages
  split_ifs with _ none
  · exact .refl _
  · simpa using perm_insertionSort ..
  · exact .refl _

/-- What an allocation took from the free pages. -/
structure Took (pool pool' : KvPool) (taken : List ℕ) : Prop where
  perm : pool.pages.Perm (taken ++ pool'.pages)
  size : pool'.size = pool.size

theorem take_eq_some {outIndices slots : List ℕ} (is : pool.take needed outIndices = (some slots, pool')) :
    slots = outIndices ∧ needed ≤ pool.freePages.length ∧ Took pool pool' (pool.freePages.take needed) := by
  unfold take at is
  split_ifs at is with few
  · cases is
  · cases is
    refine ⟨rfl, not_lt.mp few, ?_, rfl⟩
    rw [pages, pages, ← append_assoc, take_append_drop]

private theorem size_prepare (needed : ℕ) : (pool.prepare needed).size = pool.size := by
  unfold prepare mergeAndSortFree
  split_ifs <;> rfl

theorem Took.prepare {taken : List ℕ} (took : Took (pool.prepare needed) pool' taken) : Took pool pool' taken :=
  ⟨(perm_prepare needed).symm.trans took.perm, took.size.trans (size_prepare needed)⟩

theorem Took.nodup {taken : List ℕ} (took : Took pool pool' taken) (distinct : pool.pages.Nodup) : taken.Nodup :=
  (nodup_append.mp (took.perm.nodup_iff.mp distinct)).1

theorem allocExtend_eq_some {seqs : List ExtendSeq} (is : pool.allocExtend pageSize seqs = (some slots, pool')) :
    ∃ free : List ℕ, slots = allocExtendKernel pageSize seqs free ∧ extendNumNewPages pageSize seqs ≤ free.length ∧
      Took pool pool' (free.take (extendNumNewPages pageSize seqs)) := by
  obtain ⟨same, enough, took⟩ := take_eq_some is
  exact ⟨_, same, enough, took.prepare⟩

theorem allocDecode_eq_some (page : 1 < pageSize) {seqs : List DecodeSeq} (positive : ∀ seq ∈ seqs, 0 < seq.seqLen)
    (is : pool.allocDecode pageSize seqs = (some slots, pool')) :
    ∃ free : List ℕ, slots = allocExtendKernel pageSize (seqs.map DecodeSeq.toExtend) free ∧
      extendNumNewPages pageSize (seqs.map DecodeSeq.toExtend) ≤ free.length ∧
      Took pool pool' (free.take (extendNumNewPages pageSize (seqs.map DecodeSeq.toExtend))) := by
  obtain ⟨same, enough, took⟩ := take_eq_some is
  rw [DecodeSeq.decodeNumNewPages_eq page positive] at enough took
  rw [DecodeSeq.allocDecodeKernel_eq (by omega) positive] at same
  exact ⟨_, same, enough, took.prepare⟩

theorem flatMap_pages (page : 0 < pageSize) (pages : List ℕ) :
    pages.flatMap (fun number => (List.range pageSize).map (number * pageSize + ·)) =
      (List.range (pages.length * pageSize)).map fun position =>
        pages.getD (position / pageSize) 0 * pageSize + position % pageSize := by
  induction pages with
  | nil => simp
  | cons number pages ih =>
    rw [flatMap_cons, ih, length_cons, Nat.succ_mul, Nat.add_comm, range_add, map_append, map_map]
    congr 1
    · refine map_congr_left fun position inside => ?_
      have inside := mem_range.mp inside
      rw [Nat.div_eq_of_lt inside, Nat.mod_eq_of_lt inside]
      rfl
    · refine map_congr_left fun position _ => ?_
      rw [Function.comp_apply, Nat.add_div_left _ page, Nat.add_mod_left]
      rfl

/-- Whole pages, cut to the length of a sequence, are the slots of a fresh sequence. -/
theorem take_flatMap_pages (page : 0 < pageSize) {free : List ℕ} (enough : numPages pageSize len ≤ free.length) :
    ((free.take (numPages pageSize len)).flatMap fun number => (List.range pageSize).map (number * pageSize + ·)).take
      len = allocExtendKernel pageSize [⟨0, len, -1⟩] free := by
  have short := le_numPages_mul page len
  rw [flatMap_pages page, length_take, min_eq_left enough, allocExtendKernel_fresh page, ← map_take,
    take_range, min_eq_left short]
  refine map_congr_left fun position inside => ?_
  have inside := div_lt_numPages page (mem_range.mp inside)
  rw [getD_eq_getElem?_getD, getElem?_take_of_lt inside, ← getD_eq_getElem?_getD]

/-- Whole pages are handed out as a fresh sequence would get them. -/
theorem alloc_eq_some (page : 0 < pageSize)
    (is : pool.alloc pageSize (numPages pageSize len * pageSize) = (some slots, pool')) :
    ∃ free : List ℕ, slots.take len = allocExtendKernel pageSize [⟨0, len, -1⟩] free ∧
      numPages pageSize len ≤ free.length ∧ Took pool pool' (free.take (numPages pageSize len)) := by
  unfold alloc at is
  rw [Nat.mul_div_cancel _ page] at is
  obtain ⟨same, enough, took⟩ := take_eq_some is
  refine ⟨_, ?_, enough, took.prepare⟩
  rw [same, take_flatMap_pages page enough]

theorem mem_pagesOf : number ∈ pagesOf pageSize slots ↔ number ∈ slots.map (· / pageSize) := by
  unfold pagesOf
  split_ifs with single
  · simp [single]
  · rw [mem_insertionSort, mem_dedup]

theorem nodup_pagesOf (page : 1 < pageSize) : (pagesOf pageSize slots).Nodup := by
  unfold pagesOf
  rw [if_neg page.ne']
  exact (perm_insertionSort ..).nodup_iff.mpr (nodup_dedup _)

theorem perm_free : (pool.free pageSize slots).pages.Perm (pagesOf pageSize slots ++ pool.pages) := by
  unfold free pages
  dsimp only
  split_ifs
  all_goals grind

theorem size_free : (pool.free pageSize slots).size = pool.size := by
  unfold free
  dsimp only
  split_ifs <;> rfl

theorem mem_pages_free : number ∈ (pool.free pageSize slots).pages ↔
    number ∈ slots.map (· / pageSize) ∨ number ∈ pool.pages := by
  rw [perm_free.mem_iff, mem_append, mem_pagesOf]

/-- Free pages and the pages of some slots are pages of the pool. -/
def Ranged (pageSize : ℕ) (pool : KvPool) (slots : List ℕ) : Prop :=
  ∀ number, number ∈ pool.pages ∨ number ∈ slots.map (· / pageSize) → 0 < number ∧ number ≤ pool.size / pageSize

namespace Took

variable {taken old new : List ℕ} (took : Took pool pool' taken)

include took

theorem was_free (taken : number ∈ taken ∨ number ∈ pool'.pages) : number ∈ pool.pages :=
  took.perm.mem_iff.mpr (mem_append.mpr taken)

variable (within : ∀ slot ∈ new, slot / pageSize ∈ taken ∨ slot / pageSize ∈ old.map (· / pageSize))
include within

/-- The new slots are in pages that were taken or that had slots before. -/
theorem apart (held : pool.pages.Nodup ∧ ∀ slot ∈ old, slot / pageSize ∉ pool.pages) :
    pool'.pages.Nodup ∧ ∀ slot ∈ new ++ old, slot / pageSize ∉ pool'.pages := by
  obtain ⟨_, distinct, disjoint⟩ := nodup_append.mp (took.perm.nodup_iff.mp held.1)
  have before : ∀ slot ∈ old, slot / pageSize ∉ pool'.pages := fun slot mem free =>
    held.2 slot mem (took.was_free (.inr free))
  refine ⟨distinct, fun slot mem => ?_⟩
  rcases mem_append.mp mem with isNew | isOld
  · rcases within slot isNew with taken | page
    · exact fun free => disjoint _ taken _ free rfl
    · obtain ⟨other, isOld, same⟩ := mem_map.mp page
      exact same ▸ before other isOld
  · exact before slot isOld

theorem ranged (ranged : Ranged pageSize pool old) : Ranged pageSize pool' (new ++ old) := by
  rintro number (free | page)
  · exact took.size ▸ ranged number (.inl (took.was_free (.inr free)))
  · refine took.size ▸ ranged number ?_
    obtain ⟨slot, mem, rfl⟩ := mem_map.mp page
    rcases mem_append.mp mem with isNew | isOld
    · exact (within slot isNew).imp (fun taken => took.was_free (.inl taken)) id
    · exact .inr (mem_map_of_mem isOld)

end Took

section Free

variable {held : List ℕ} (touched : ∀ slot ∈ slots, slot / pageSize ∈ held.map (· / pageSize))

include touched

/-- Some of the slots are freed in whole pages. -/
theorem apart_free (page : 1 < pageSize) (whole : KvServer.WholePages pageSize slots held)
    (apart : pool.pages.Nodup ∧ ∀ slot ∈ held, slot / pageSize ∉ pool.pages) :
    (pool.free pageSize slots).pages.Nodup ∧
      ∀ slot ∈ held.filter (· ∉ slots), slot / pageSize ∉ (pool.free pageSize slots).pages := by
  refine ⟨perm_free.nodup_iff.mpr (nodup_append.mpr ⟨nodup_pagesOf page, apart.1, ?_⟩), fun slot mem free => ?_⟩
  · rintro number mem _ free rfl
    obtain ⟨slot, among, rfl⟩ := mem_map.mp (mem_pagesOf.mp mem)
    obtain ⟨other, isHeld, same⟩ := mem_map.mp (touched slot among)
    exact apart.2 other isHeld (same ▸ free)
  · obtain ⟨isHeld, kept⟩ := mem_filter.mp mem
    rcases mem_pages_free.mp free with freed | free
    · exact of_decide_eq_true kept (whole slot isHeld freed)
    · exact apart.2 slot isHeld free

theorem Ranged.free (ranged : Ranged pageSize pool held) :
    Ranged pageSize (pool.free pageSize slots) (held.filter (· ∉ slots)) := by
  intro number place
  rw [size_free]
  apply ranged
  rcases place with free | page
  · rcases mem_pages_free.mp free with freed | free
    · obtain ⟨slot, among, rfl⟩ := mem_map.mp freed
      exact .inr (touched slot among)
    · exact .inl free
  · exact .inr (map_subset _ (filter_subset_self _) page)

end Free

/-- Different pages of the pool are not more than it has. -/
theorem Ranged.availableSize_le (ranged : Ranged pageSize pool slots) (distinct : pool.pages.Nodup) :
    pool.availableSize pageSize ≤ pool.size := by
  have few : pool.pages.length ≤ pool.size / pageSize := by
    have subset : pool.pages ⊆ List.range' 1 (pool.size / pageSize) := fun number mem => by
      have := ranged number (.inl mem)
      rw [mem_range'_1]
      omega
    simpa using (subperm_of_subset distinct subset).length_le
  rw [pages, length_append] at few
  exact (Nat.mul_le_mul_right _ few).trans (Nat.div_mul_le_self ..)

end KvPool

/-! ## The invariant -/

namespace KvServer

variable {server : KvServer}
variable {slot : ℕ} {pages : List ℕ}

/-- What holds of the pages and the mapping. -/
structure PageMap (pageSize : ℕ) (server : KvServer) : Prop where
  /-- A free page is free once, and no slot of it is handed out. -/
  full : server.allocator.full.pages.Nodup ∧ ∀ slot ∈ server.allocated, slot / pageSize ∉ server.allocator.full.pages
  swa : server.allocator.swa.pages.Nodup ∧ ∀ slot ∈ server.swaAllocated, slot / pageSize ∉ server.allocator.swa.pages
  /-- Only slots that are handed out and keep their window slot are mapped. -/
  unmapped : ∀ slot, slot ∉ server.allocated ∨ slot ∈ server.swaFreed → server.allocator.fullToSwa slot = 0
  offset : ∀ slot, server.allocator.fullToSwa slot ≠ 0 →
    server.allocator.fullToSwa slot % pageSize = slot % pageSize
  into : ∀ slot, server.allocator.fullToSwa slot ≠ 0 → server.allocator.fullToSwa slot ∈ server.swaAllocated
  /-- The mapping is a function of the pages, and one to one. -/
  pages : ∀ slot other, server.allocator.fullToSwa slot ≠ 0 → server.allocator.fullToSwa other ≠ 0 →
    (slot / pageSize = other / pageSize ↔
      server.allocator.fullToSwa slot / pageSize = server.allocator.fullToSwa other / pageSize)

/-- The page map, with what its preservation needs. -/
structure Paged (pageSize : ℕ) (server : KvServer) : Prop extends PageMap pageSize server where
  fullRange : server.allocator.full.Ranged pageSize server.allocated
  swaRange : server.allocator.swa.Ranged pageSize server.swaAllocated
  onto : ∀ slot ∈ server.swaAllocated, slot ≠ 0 ∧ ∃ other, server.allocator.fullToSwa other = slot

namespace Paged

variable (paged : Paged pageSize server) {slot : ℕ} (mapped : server.allocator.fullToSwa slot ≠ 0)
include paged mapped

theorem allocated_of_mapped : slot ∈ server.allocated := by
  by_contra outside
  exact mapped (paged.unmapped slot (.inl outside))

theorem page_of_mapped : slot / pageSize ∉ server.allocator.full.pages ∧
      server.allocator.fullToSwa slot / pageSize ∉ server.allocator.swa.pages :=
  ⟨paged.full.2 slot (paged.allocated_of_mapped mapped), paged.swa.2 _ (paged.into slot mapped)⟩

end Paged

/-! ## Handing out -/

/-- A slot and its window slot have the same offset, and their pages belong together: those of an earlier slot, or two
new ones. -/
structure Fits (pageSize : ℕ) (server : KvServer) (newPages : List (ℕ × ℕ)) (pair : ℕ × ℕ) : Prop where
  offset : pair.2 % pageSize = pair.1 % pageSize
  place : (∃ slot, server.allocator.fullToSwa slot ≠ 0 ∧ pair.1 / pageSize = slot / pageSize ∧
      pair.2 / pageSize = server.allocator.fullToSwa slot / pageSize) ∨
    (pair.1 / pageSize, pair.2 / pageSize) ∈ newPages

/-- What an allocation did: it took pages of both pools, and mapped slots to window slots. -/
structure Hands (pageSize : ℕ) (server : KvServer) (slots : List ℕ) (pairs : List (ℕ × ℕ)) (full swa : KvPool)
    (fullTaken swaTaken : List ℕ) (newPages : List (ℕ × ℕ)) : Prop where
  fullTook : server.allocator.full.Took full fullTaken
  swaTook : server.allocator.swa.Took swa swaTaken
  newFull : (newPages.map Prod.fst).Nodup ∧ newPages.map Prod.fst ⊆ fullTaken
  newSwa : (newPages.map Prod.snd).Nodup ∧ newPages.map Prod.snd ⊆ swaTaken
  inPages : ∀ slot ∈ slots, slot / pageSize ∈ fullTaken ∨
    ∃ other, server.allocator.fullToSwa other ≠ 0 ∧ slot / pageSize = other / pageSize
  among : ∀ pair ∈ pairs, pair.1 ∈ slots
  fits : ∀ pair ∈ pairs, Fits pageSize server newPages pair

namespace Hands

variable {slots : List ℕ} {pairs : List (ℕ × ℕ)} {full swa : KvPool} {fullTaken swaTaken : List ℕ}
  {newPages : List (ℕ × ℕ)} (hands : Hands pageSize server slots pairs full swa fullTaken swaTaken newPages)
  (paged : Paged pageSize server)

include hands

theorem new_mem {first second : ℕ} (new : (first, second) ∈ newPages) :
    first ∈ fullTaken ∧ second ∈ swaTaken :=
  ⟨hands.newFull.2 (mem_map_of_mem new), hands.newSwa.2 (mem_map_of_mem new)⟩

include paged

/-- A page that had slots is not a new one. -/
theorem new_ne {first second : ℕ} (mapped : server.allocator.fullToSwa slot ≠ 0) (new : (first, second) ∈ newPages) :
    slot / pageSize ≠ first ∧ server.allocator.fullToSwa slot / pageSize ≠ second := by
  obtain ⟨fullPage, swaPage⟩ := paged.page_of_mapped mapped
  obtain ⟨fullNew, swaNew⟩ := hands.new_mem new
  constructor
  · exact fun same => fullPage (hands.fullTook.was_free (.inl (same ▸ fullNew)))
  · exact fun same => swaPage (hands.swaTook.was_free (.inl (same ▸ swaNew)))

/-- A slot that was mapped already is mapped to the same window slot. -/
theorem scatter_of_mapped (mapped : server.allocator.fullToSwa slot ≠ 0) :
    scatter server.allocator.fullToSwa pairs slot = server.allocator.fullToSwa slot := by
  by_cases touched : slot ∈ pairs.map Prod.fst
  · obtain ⟨value, mem, is⟩ := @exists_of_mem_scatter _ _ _ server.allocator.fullToSwa _ _ touched
    rw [is]
    obtain ⟨offset, ⟨other, otherMapped, here, there⟩ | new⟩ := hands.fits _ mem
    · have same := (paged.pages slot other mapped otherMapped).mp here
      rw [← Nat.div_add_mod value pageSize, ← Nat.div_add_mod (server.allocator.fullToSwa slot) pageSize, there,
        same, offset, paged.offset slot mapped]
    · exact absurd rfl (hands.new_ne paged mapped new).1
  · exact scatter_of_not_mem touched

/-- Where a mapped slot and its window slot are. -/
theorem place (mapped : scatter server.allocator.fullToSwa pairs slot ≠ 0) :
    Fits pageSize server newPages (slot, scatter server.allocator.fullToSwa pairs slot) := by
  by_cases touched : slot ∈ pairs.map Prod.fst
  · obtain ⟨value, mem, is⟩ := @exists_of_mem_scatter _ _ _ server.allocator.fullToSwa _ _ touched
    rw [is]
    exact hands.fits _ mem
  · rw [scatter_of_not_mem touched] at mapped ⊢
    exact ⟨paged.offset slot mapped, .inl ⟨slot, mapped, rfl, rfl⟩⟩

/-- The pages of mapped slots determine each other. -/
private theorem pages_iff {other : ℕ} (mapped : scatter server.allocator.fullToSwa pairs slot ≠ 0)
    (otherMapped : scatter server.allocator.fullToSwa pairs other ≠ 0) :
    slot / pageSize = other / pageSize ↔ scatter server.allocator.fullToSwa pairs slot / pageSize =
      scatter server.allocator.fullToSwa pairs other / pageSize := by
  obtain ⟨_, ⟨old, oldMapped, here, there⟩ | new⟩ := hands.place paged mapped
  · obtain ⟨_, ⟨old', oldMapped', here', there'⟩ | new'⟩ := hands.place paged otherMapped
    · rw [here, here', there, there']
      exact paged.pages old old' oldMapped oldMapped'
    · obtain ⟨fullPage, swaPage⟩ := hands.new_ne paged oldMapped new'
      rw [here, there]
      exact iff_of_false fullPage swaPage
  · obtain ⟨_, ⟨old', oldMapped', here', there'⟩ | new'⟩ := hands.place paged otherMapped
    · obtain ⟨fullPage, swaPage⟩ := hands.new_ne paged oldMapped' new
      rw [here', there']
      exact iff_of_false fullPage.symm swaPage.symm
    · constructor
      · intro same
        exact congrArg Prod.snd (inj_on_of_nodup_map hands.newFull.1 new new' same)
      · intro same
        exact congrArg Prod.fst (inj_on_of_nodup_map hands.newSwa.1 new new' same)

private theorem full_within : ∀ slot ∈ slots,
    slot / pageSize ∈ fullTaken ∨ slot / pageSize ∈ server.allocated.map (· / pageSize) := by
  intro slot mem
  refine (hands.inPages slot mem).imp id ?_
  rintro ⟨other, mapped, same⟩
  exact mem_map.mpr ⟨other, paged.allocated_of_mapped mapped, same.symm⟩

private theorem swa_within : ∀ slot ∈ (slots.map (scatter server.allocator.fullToSwa pairs)).filter (0 < ·),
    slot / pageSize ∈ swaTaken ∨ slot / pageSize ∈ server.swaAllocated.map (· / pageSize) := by
  intro slot mem
  obtain ⟨image, positive⟩ := mem_filter.mp mem
  obtain ⟨other, _, rfl⟩ := mem_map.mp image
  obtain ⟨_, ⟨earlier, mapped, _, there⟩ | new⟩ := hands.place paged (of_decide_eq_true positive).ne'
  · exact .inr (mem_map.mpr ⟨_, paged.into earlier mapped, there.symm⟩)
  · exact .inl (hands.new_mem new).2

private theorem paged_handOut :
    Paged pageSize (server.handOut (.ok (some slots) ⟨full, swa, scatter server.allocator.fullToSwa pairs⟩)) where
  full := hands.fullTook.apart (hands.full_within paged) paged.full
  swa := hands.swaTook.apart (hands.swa_within paged) paged.swa
  unmapped := fun slot outside => by
    have untouched : slot ∉ pairs.map Prod.fst := by
      intro touched
      obtain ⟨pair, mem, rfl⟩ := mem_map.mp touched
      have among := hands.among pair mem
      rcases outside with outside | freed
      · exact outside (mem_append_left _ among)
      · exact absurd among (by simpa using (mem_filter.mp freed).2)
    refine (scatter_of_not_mem untouched).trans (paged.unmapped slot ?_)
    exact outside.imp (fun outside mem => outside (mem_append_right _ mem)) fun freed => (mem_filter.mp freed).1
  offset := fun slot mapped => (hands.place paged mapped).offset
  into := fun slot mapped => by
    by_cases touched : slot ∈ pairs.map Prod.fst
    · obtain ⟨pair, mem, rfl⟩ := mem_map.mp touched
      refine mem_append_left _ (mem_filter.mpr ⟨mem_map_of_mem (hands.among pair mem), ?_⟩)
      simpa [Nat.pos_iff_ne_zero] using mapped
    · refine mem_append_right _ ?_
      change scatter server.allocator.fullToSwa pairs slot ≠ 0 at mapped
      change scatter server.allocator.fullToSwa pairs slot ∈ _
      rw [scatter_of_not_mem touched] at mapped ⊢
      exact paged.into slot mapped
  pages := fun _ _ mapped otherMapped => hands.pages_iff paged mapped otherMapped
  fullRange := hands.fullTook.ranged (hands.full_within paged) paged.fullRange
  swaRange := hands.swaTook.ranged (hands.swa_within paged) paged.swaRange
  onto := fun slot mem => by
    rcases mem_append.mp mem with new | old
    · obtain ⟨image, positive⟩ := mem_filter.mp new
      obtain ⟨other, _, rfl⟩ := mem_map.mp image
      exact ⟨by simpa [Nat.pos_iff_ne_zero] using positive, other, rfl⟩
    · obtain ⟨nonzero, other, is⟩ := paged.onto slot old
      exact ⟨nonzero, other, (hands.scatter_of_mapped paged (is ▸ nonzero)).trans is⟩

/-- A slot that was given a window slot is mapped. -/
private theorem mapped_of_pair (given : slot ∈ pairs.map Prod.fst) :
    scatter server.allocator.fullToSwa pairs slot ≠ 0 := by
  obtain ⟨value, mem, is⟩ := @exists_of_mem_scatter _ _ _ server.allocator.fullToSwa _ _ given
  rw [is]
  rintro rfl
  obtain ⟨_, ⟨other, mapped, _, there⟩ | new⟩ := hands.fits _ mem
  · have := paged.swaRange _ (.inr (mem_map_of_mem (paged.into other mapped)))
    rw [← there, Nat.zero_div] at this
    exact absurd this.1 (lt_irrefl 0)
  · have := paged.swaRange _ (.inl (hands.swaTook.was_free (.inl (hands.new_mem new).2)))
    rw [Nat.zero_div] at this
    exact absurd this.1 (lt_irrefl 0)

end Hands

/-- An allocation has taken these pages of the full pool and mapped these slots. -/
def Allocates (pageSize : ℕ) (server : KvServer) (slots : List ℕ) (pairs : List (ℕ × ℕ)) (fullTaken : List ℕ)
    (allocator : KvAllocator) : Prop :=
  ∃ swaTaken newPages, Hands pageSize server slots pairs allocator.full allocator.swa fullTaken swaTaken newPages ∧
    allocator.fullToSwa = scatter server.allocator.fullToSwa pairs

namespace Allocates

variable {slots : List ℕ} {pairs : List (ℕ × ℕ)} {fullTaken : List ℕ} {allocator : KvAllocator}

section

variable (allocates : Allocates pageSize server slots pairs fullTaken allocator)

include allocates

theorem paged (paged : Paged pageSize server) : Paged pageSize (server.handOut (.ok (some slots) allocator)) := by
  obtain ⟨swaTaken, newPages, hands, is⟩ := allocates
  have handedOut := hands.paged_handOut paged
  rw [← is] at handedOut
  exact handedOut

theorem mapped (paged : Paged pageSize server)
    (given : slot ∈ pairs.map Prod.fst ∨ server.allocator.fullToSwa slot ≠ 0) : allocator.fullToSwa slot ≠ 0 := by
  obtain ⟨swaTaken, newPages, hands, is⟩ := allocates
  rw [is]
  rcases given with new | old
  · exact hands.mapped_of_pair paged new
  · rw [hands.scatter_of_mapped paged old]
    exact old

theorem took : server.allocator.full.Took allocator.full fullTaken := by
  obtain ⟨_, _, hands, _⟩ := allocates
  exact hands.fullTook

end

end Allocates

/-! ## The allocations -/

theorem ensures_compiled {tokens : ℕ} {allocator : KvAllocator} {next : Unit → KvM (Option (List ℕ))}
    {post : Option (List ℕ) → KvAllocator → Prop} {fails : KvAllocator → Prop}
    (returns : Ensures (next ()) allocator post fails) (raises : fails allocator) :
    Ensures (compiled tokens >>= next) allocator post fails :=
  ensures_ensure_bind (fun _ => returns) fun _ => raises

theorem ensures_mapped {full swa : Option (List ℕ) × KvPool} {first : ℕ} {allocator : KvAllocator}
    {post : Option (List ℕ) → KvAllocator → Prop}
    (ensured : ∀ fullIndices swaIndices, full.1 = some fullIndices → swa.1 = some swaIndices →
      post (some fullIndices) ⟨full.2, swa.2, scatter allocator.fullToSwa ((fullIndices.drop first).zip swaIndices)⟩) :
    Ensures (mapped full swa first) allocator post fun _ => True := by
  unfold mapped
  split
  · next fullIndices swaIndices isFull isSwa => exact ensured fullIndices swaIndices isFull isSwa
  · trivial

private theorem getElem?_take_drop {start index : ℕ} (enough : needed ≤ pages.length)
    (inside : start + index < needed) :
    (pages.take needed)[start + index]? = some ((pages.drop start).getD index 0) := by
  rw [getElem?_take_of_lt inside, getD_eq_getElem?_getD, getElem?_drop,
    getElem?_eq_getElem (inside.trans_le enough), Option.getD_some]

theorem getElem?_take_numPages (page : 0 < pageSize) {position : ℕ}
    (enough : numPages pageSize len ≤ pages.length) (inside : position < len) :
    (pages.take (numPages pageSize len))[position / pageSize]? = some (pages.getD (position / pageSize) 0) := by
  have within := div_lt_numPages page inside
  rw [getElem?_take_of_lt within, getD_eq_getElem?_getD, getElem?_eq_getElem (within.trans_le enough),
    Option.getD_some]

theorem mem_zip_of_getElem? {first second : List ℕ} {index left right : ℕ} (isLeft : first[index]? = some left)
    (isRight : second[index]? = some right) : (left, right) ∈ first.zip second :=
  mem_of_getElem? (getElem?_zip_eq_some.mpr ⟨isLeft, isRight⟩)

/-- A sequence that continues inside a page has its last slot there. -/
theorem Continues.last {prefixLen : ℕ} {lastLoc : ℤ} (page : 0 < pageSize)
    (continues : server.Continues pageSize prefixLen lastLoc)
    (inside : prefixLen < numPages pageSize prefixLen * pageSize) :
    ∃ loc : ℕ, lastLoc = loc ∧ server.allocator.fullToSwa loc ≠ 0 ∧ (loc + 1) % pageSize = prefixLen % pageSize := by
  obtain ⟨none | ⟨some, mapped⟩, fits⟩ := continues
  · rw [none, neg_add_cancel, Int.zero_emod] at fits
    have zero : prefixLen % pageSize = 0 := by exact_mod_cast fits.symm
    have few : numPages pageSize prefixLen ≤ prefixLen / pageSize := by
      rw [numPages_le_iff page, Nat.div_mul_cancel (Nat.dvd_of_mod_eq_zero zero)]
    have := Nat.mul_le_mul_right pageSize few
    rw [Nat.div_mul_cancel (Nat.dvd_of_mod_eq_zero zero)] at this
    omega
  · obtain ⟨loc, rfl⟩ := Int.eq_ofNat_of_zero_le some
    refine ⟨loc, rfl, mapped, ?_⟩
    exact_mod_cast fits

private theorem fits_extend (page : 0 < pageSize) (paged : Paged pageSize server) {seq : ExtendSeq} {start position : ℕ}
    {fullFree swaFree : List ℕ} (continues : server.Continues pageSize seq.prefixLen seq.lastLoc)
    (share : start + seq.numNewPages pageSize ≤ needed) (fullEnough : needed ≤ fullFree.length)
    (swaEnough : needed ≤ swaFree.length) (inside : position ∈ seq.positions) :
    Fits pageSize server ((fullFree.take needed).zip (swaFree.take needed))
      (seq.slotAt pageSize (fullFree.drop start) position,
        { seq with lastLoc := server.allocator.translate seq.lastLoc }.slotAt pageSize
          (swaFree.drop start) position) := by
  obtain ⟨first, last⟩ := ExtendSeq.mem_positions.mp inside
  rcases Nat.lt_or_ge position (numPages pageSize seq.prefixLen * pageSize) with old | new
  · obtain ⟨loc, is, mapped, fits⟩ := continues.last page (first.trans_lt old)
    have image : server.allocator.translate seq.lastLoc = server.allocator.fullToSwa loc := by
      rw [is, KvAllocator.translate, if_neg (by omega), Int.toNat_natCast]
    have swaFits : (server.allocator.fullToSwa loc + 1) % pageSize = seq.prefixLen % pageSize := by
      rw [Nat.add_mod, paged.offset loc mapped, ← Nat.add_mod, fits]
    obtain ⟨fullPage, fullOffset, _⟩ := @ExtendSeq.slotAt_old _ page seq _ _ (fullFree.drop start) is fits first old
    obtain ⟨swaPage, swaOffset, _⟩ := @ExtendSeq.slotAt_old _ page
      { seq with lastLoc := server.allocator.translate seq.lastLoc } _ _ (swaFree.drop start) image swaFits first old
    exact ⟨swaOffset.trans fullOffset.symm, .inl ⟨loc, mapped, fullPage, swaPage⟩⟩
  · have index := ExtendSeq.newPage_lt page last new
    obtain ⟨fullPage, fullOffset⟩ := @ExtendSeq.slotAt_new _ page seq _ (fullFree.drop start) new
    obtain ⟨swaPage, swaOffset⟩ := @ExtendSeq.slotAt_new _ page
      { seq with lastLoc := server.allocator.translate seq.lastLoc } _ (swaFree.drop start) new
    refine ⟨swaOffset.trans fullOffset.symm, .inr ?_⟩
    rw [fullPage, swaPage]
    exact mem_zip_of_getElem? (getElem?_take_drop fullEnough (by omega)) (getElem?_take_drop swaEnough (by omega))

section

variable {seqs : List ExtendSeq} (page : 0 < pageSize) (paged : Paged pageSize server)
  (valid : ∀ seq ∈ seqs, seq.prefixLen ≤ seq.seqLen ∧ server.Continues pageSize seq.prefixLen seq.lastLoc)

include page paged valid

/-- A batch that both pools run. -/
theorem hands_extend {full swa : KvPool} {fullFree swaFree : List ℕ}
    (is : needed = extendNumNewPages pageSize seqs) (fullEnough : needed ≤ fullFree.length)
    (swaEnough : needed ≤ swaFree.length) (fullTook : server.allocator.full.Took full (fullFree.take needed))
    (swaTook : server.allocator.swa.Took swa (swaFree.take needed)) :
    Hands pageSize server (allocExtendKernel pageSize seqs fullFree)
      ((allocExtendKernel pageSize seqs fullFree).zip (allocExtendKernel pageSize
        (seqs.map fun seq => { seq with lastLoc := server.allocator.translate seq.lastLoc }) swaFree)) full swa
      (fullFree.take needed) (swaFree.take needed) ((fullFree.take needed).zip (swaFree.take needed)) := by
  have grows := fun seq mem => (valid seq mem).1
  have fullLength : (fullFree.take needed).length = needed := by rw [length_take, min_eq_left fullEnough]
  have swaLength : (swaFree.take needed).length = needed := by rw [length_take, min_eq_left swaEnough]
  have fits : ∀ pair ∈ (allocExtendKernel pageSize seqs fullFree).zip (allocExtendKernel pageSize
      (seqs.map fun seq => { seq with lastLoc := server.allocator.translate seq.lastLoc }) swaFree),
      Fits pageSize server ((fullFree.take needed).zip (swaFree.take needed)) pair := by
    intro pair mem
    obtain ⟨seq, among, start, share, position, inside, rfl⟩ := exists_of_mem_zip_kernel page grows mem
    exact fits_extend page paged (valid seq among).2 (is ▸ share) fullEnough swaEnough inside
  refine ⟨fullTook, swaTook, ?_, ?_, fun slot mem => ?_, fun pair mem => (of_mem_zip mem).1, fits⟩
  · rw [map_fst_zip (by omega)]
    exact ⟨fullTook.nodup paged.full.1, List.Subset.refl _⟩
  · rw [map_snd_zip (by omega)]
    exact ⟨swaTook.nodup paged.swa.1, List.Subset.refl _⟩
  · -- every slot has got a window slot
    rw [← map_fst_zip_kernel page grows] at mem
    obtain ⟨pair, among, rfl⟩ := mem_map.mp mem
    obtain ⟨_, ⟨other, mapped, here, _⟩ | new⟩ := fits pair among
    · exact .inr ⟨other, mapped, here⟩
    · exact .inl (of_mem_zip new).1

theorem ensures_allocExtend :
    Ensures (allocExtend pageSize seqs) server.allocator
      (fun result allocator => ∀ slots ∈ result, ∃ pairs fullTaken,
        Allocates pageSize server slots pairs fullTaken allocator) fun _ => True := by
  unfold allocExtend
  rw [ensures_bind, ensures_get]
  dsimp only
  split_ifs
  · exact fun _ none => nomatch none
  · exact fun _ none => nomatch none
  · rw [ensures_bind, ensures_set]
    refine ensures_compiled (ensures_mapped fun fullIndices swaIndices isFull isSwa => ?_) trivial
    obtain ⟨fullFree, rfl, fullEnough, fullTook⟩ := KvPool.allocExtend_eq_some (Prod.ext isFull rfl)
    obtain ⟨swaFree, rfl, swaEnough, swaTook⟩ := KvPool.allocExtend_eq_some (Prod.ext isSwa rfl)
    rw [extendNumNewPages_map] at swaEnough swaTook
    intro slots is
    obtain rfl := Option.some.inj is
    rw [drop_zero]
    exact ⟨_, _, _, _, hands_extend page paged valid rfl fullEnough swaEnough fullTook swaTook, rfl⟩

end

theorem ensures_allocDecode (page : 1 < pageSize) (paged : Paged pageSize server) {seqs : List DecodeSeq}
    (valid : ∀ seq ∈ seqs, 0 < seq.seqLen ∧ server.Continues pageSize (seq.seqLen - 1) seq.lastLoc) :
    Ensures (allocDecode pageSize seqs) server.allocator
      (fun result allocator => ∀ slots ∈ result, ∃ fullFree pairs, slots = allocDecodeKernel pageSize seqs fullFree ∧
        decodeNumNewPages pageSize seqs ≤ fullFree.length ∧ pairs.map Prod.fst = slots ∧
        Allocates pageSize server slots pairs (fullFree.take (decodeNumNewPages pageSize seqs)) allocator)
      fun _ => True := by
  unfold allocDecode
  rw [ensures_bind, ensures_get]
  dsimp only
  split_ifs
  · exact fun _ none => nomatch none
  · refine ensures_mapped fun fullIndices swaIndices isFull isSwa => ?_
    have positive := fun seq mem => (valid seq mem).1
    have swaPositive : ∀ seq ∈ seqs.map fun seq =>
        ({ seq with lastLoc := server.allocator.translate seq.lastLoc } : DecodeSeq), 0 < seq.seqLen := by
      intro seq mem
      obtain ⟨original, among, rfl⟩ := mem_map.mp mem
      exact positive original among
    obtain ⟨fullFree, rfl, fullEnough, fullTook⟩ := KvPool.allocDecode_eq_some page positive (Prod.ext isFull rfl)
    obtain ⟨swaFree, rfl, swaEnough, swaTook⟩ := KvPool.allocDecode_eq_some page swaPositive (Prod.ext isSwa rfl)
    have extended :
        (seqs.map fun seq => ({ seq with lastLoc := server.allocator.translate seq.lastLoc } : DecodeSeq)).map
          DecodeSeq.toExtend = (seqs.map DecodeSeq.toExtend).map fun seq =>
          { seq with lastLoc := server.allocator.translate seq.lastLoc } := by
      rw [map_map, map_map]
      rfl
    rw [extended, extendNumNewPages_map] at swaEnough swaTook
    have grows : ∀ seq ∈ seqs.map DecodeSeq.toExtend, seq.prefixLen ≤ seq.seqLen ∧
        server.Continues pageSize seq.prefixLen seq.lastLoc := by
      intro seq mem
      obtain ⟨original, among, rfl⟩ := mem_map.mp mem
      exact ⟨Nat.sub_le .., (valid original among).2⟩
    intro slots is
    obtain rfl := Option.some.inj is
    rw [drop_zero, extended, DecodeSeq.decodeNumNewPages_eq page positive]
    exact ⟨fullFree, _, (DecodeSeq.allocDecodeKernel_eq (by omega) positive).symm, fullEnough,
      map_fst_zip_kernel (by omega) fun seq mem => (grows seq mem).1, _, _,
      hands_extend (by omega) paged grows rfl fullEnough swaEnough fullTook swaTook, rfl⟩

/-- The slots of a fresh sequence. -/
def freshSlots (pageSize len : ℕ) (pages : List ℕ) : List ℕ :=
  (List.range len).map fun position => pages.getD (position / pageSize) 0 * pageSize + position % pageSize

theorem allocFresh_eq_some (page : 0 < pageSize) {pool : KvPool} {slots : List ℕ}
    (is : (allocFresh pageSize len pool).1 = some slots) :
    ∃ free : List ℕ, slots = freshSlots pageSize len free ∧ numPages pageSize len ≤ free.length ∧
      pool.Took (allocFresh pageSize len pool).2 (free.take (numPages pageSize len)) := by
  unfold allocFresh at is ⊢
  split_ifs at is ⊢
  · obtain ⟨all, isAll, rfl⟩ := Option.map_eq_some_iff.mp is
    obtain ⟨free, same, enough, took⟩ := KvPool.alloc_eq_some page (Prod.ext isAll rfl)
    exact ⟨free, same.trans (allocExtendKernel_fresh page len), enough, took⟩
  · obtain ⟨free, same, enough, took⟩ := KvPool.allocExtend_eq_some (Prod.ext is rfl)
    rw [extendNumNewPages_fresh page] at enough took
    exact ⟨free, same.trans (allocExtendKernel_fresh page len), enough, took⟩

private theorem mem_freshSlots :
    slot ∈ freshSlots pageSize len pages ↔
      ∃ position < len, slot = pages.getD (position / pageSize) 0 * pageSize + position % pageSize := by
  simp [freshSlots, eq_comm]

variable (page : 0 < pageSize)
include page

/-- Every page has a slot. -/
theorem mem_pages_freshSlots (enough : numPages pageSize len ≤ pages.length) :
    number ∈ (freshSlots pageSize len pages).map (· / pageSize) ↔ number ∈ pages.take (numPages pageSize len) := by
  rw [mem_map]
  constructor
  · rintro ⟨slot, mem, rfl⟩
    obtain ⟨position, inside, rfl⟩ := mem_freshSlots.mp mem
    rw [(freshSlot_page page _ position).1]
    exact mem_of_getElem? (getElem?_take_numPages page enough inside)
  · intro mem
    obtain ⟨index, inside, rfl⟩ := mem_iff_getElem.mp mem
    rw [length_take, lt_min_iff] at inside
    have begins : index * pageSize < len := (lt_numPages_iff page).mp inside.1
    refine ⟨_, mem_freshSlots.mpr ⟨index * pageSize, begins, rfl⟩, ?_⟩
    rw [(freshSlot_page page _ _).1, Nat.mul_div_cancel _ page, getElem_take, getD_eq_getElem?_getD,
      getElem?_eq_getElem inside.2, Option.getD_some]

/-- Behind some whole pages a fresh sequence goes on like one with the other pages. -/
private theorem drop_freshSlots (before rest : ℕ) (pages : List ℕ) :
    (freshSlots pageSize (before * pageSize + rest) pages).drop (before * pageSize) =
      freshSlots pageSize rest (pages.drop before) := by
  rw [freshSlots, range_add, map_append, drop_left' (by simp), map_map, freshSlots]
  refine map_congr_left fun position _ => ?_
  rw [Function.comp_apply, Nat.add_comm (before * pageSize), Nat.add_mul_div_right _ _ page, Nat.add_mul_mod_self_right,
    getD_eq_getElem?_getD, getD_eq_getElem?_getD, getElem?_drop, Nat.add_comm before]

/-- A fresh sequence of whole pages in front of its window. -/
private theorem hands_windowed (paged : Paged pageSize server) {before rest : ℕ} {full swa : KvPool}
    {fullFree swaFree : List ℕ} (fullEnough : numPages pageSize (before * pageSize + rest) ≤ fullFree.length)
    (swaEnough : numPages pageSize rest ≤ swaFree.length)
    (fullTook : server.allocator.full.Took full (fullFree.take (numPages pageSize (before * pageSize + rest))))
    (swaTook : server.allocator.swa.Took swa (swaFree.take (numPages pageSize rest))) :
    Hands pageSize server (freshSlots pageSize (before * pageSize + rest) fullFree)
      (((freshSlots pageSize (before * pageSize + rest) fullFree).drop (before * pageSize)).zip
        (freshSlots pageSize rest swaFree)) full swa
      (fullFree.take (numPages pageSize (before * pageSize + rest))) (swaFree.take (numPages pageSize rest))
      (((fullFree.drop before).take (numPages pageSize rest)).zip (swaFree.take (numPages pageSize rest))) := by
  have pages := numPages_mul_add_rest page before rest
  have taken : fullFree.take (numPages pageSize (before * pageSize + rest)) =
      fullFree.take before ++ (fullFree.drop before).take (numPages pageSize rest) := by rw [pages, take_add]
  have fullRest : numPages pageSize rest ≤ (fullFree.drop before).length := by
    rw [length_drop]
    omega
  have lengths : ((fullFree.drop before).take (numPages pageSize rest)).length =
      (swaFree.take (numPages pageSize rest)).length := by
    rw [length_take, length_take, min_eq_left fullRest, min_eq_left swaEnough]
  refine ⟨fullTook, swaTook, ?_, ?_, fun slot mem => ?_, fun pair mem => ?_, fun pair mem => ?_⟩
  · have distinct := fullTook.nodup paged.full.1
    rw [taken] at distinct
    rw [map_fst_zip lengths.le, taken]
    exact ⟨(nodup_append.mp distinct).2.1, subset_append_right ..⟩
  · rw [map_snd_zip lengths.ge]
    exact ⟨swaTook.nodup paged.swa.1, List.Subset.refl _⟩
  · exact .inl ((mem_pages_freshSlots page fullEnough).mp (mem_map_of_mem mem))
  · exact drop_subset _ _ (of_mem_zip mem).1
  · rw [drop_freshSlots page, freshSlots, freshSlots, zip_map', mem_map] at mem
    obtain ⟨position, within, rfl⟩ := mem
    obtain ⟨fullPage, fullOffset⟩ := freshSlot_page page ((fullFree.drop before).getD (position / pageSize) 0) position
    obtain ⟨swaPage, swaOffset⟩ := freshSlot_page page (swaFree.getD (position / pageSize) 0) position
    refine ⟨swaOffset.trans fullOffset.symm, .inr ?_⟩
    rw [fullPage, swaPage]
    exact mem_zip_of_getElem? (getElem?_take_numPages page fullRest (mem_range.mp within))
      (getElem?_take_numPages page swaEnough (mem_range.mp within))

theorem ensures_allocExtendWindowedSwa (paged : Paged pageSize server) {fullSeqLen swaWinStart : ℕ}
    (aligned : pageSize ∣ swaWinStart) :
    Ensures (allocExtendWindowedSwa pageSize fullSeqLen swaWinStart) server.allocator
      (fun result allocator => ∀ slots ∈ result, ∃ fullFree pairs, slots = freshSlots pageSize fullSeqLen fullFree ∧
        swaWinStart < fullSeqLen ∧ numPages pageSize fullSeqLen ≤ fullFree.length ∧
        pairs.map Prod.fst = slots.drop swaWinStart ∧
        Allocates pageSize server slots pairs (fullFree.take (numPages pageSize fullSeqLen)) allocator)
      fun _ => True := by
  unfold allocExtendWindowedSwa
  rw [ensures_bind, ensures_get]
  refine ensures_ensure_bind (fun within => ?_) fun _ => trivial
  dsimp only
  split_ifs
  · exact fun _ none => nomatch none
  · exact fun _ none => nomatch none
  · split
    · exact fun _ none => nomatch none
    · rw [ensures_bind, ensures_set]
      apply ensures_compiled _ trivial
      split
      · exact fun _ none => nomatch none
      · refine ensures_mapped fun fullIndices swaIndices isFull isSwa => ?_
        obtain ⟨before, rfl⟩ := aligned
        rw [Nat.mul_comm] at within isSwa ⊢
        obtain ⟨rest, rfl⟩ := Nat.exists_eq_add_of_le within.le
        rw [Nat.add_sub_cancel_left] at isSwa ⊢
        obtain ⟨fullFree, rfl, fullEnough, fullTook⟩ := allocFresh_eq_some page isFull
        obtain ⟨swaFree, rfl, swaEnough, swaTook⟩ := KvPool.allocExtend_eq_some (Prod.ext isSwa rfl)
        rw [extendNumNewPages_fresh page] at swaEnough swaTook
        rw [allocExtendKernel_fresh page]
        intro slots is
        obtain rfl := Option.some.inj is
        refine ⟨fullFree, _, rfl, within, fullEnough, ?_, _, _,
          hands_windowed page paged fullEnough swaEnough fullTook swaTook, rfl⟩
        apply map_fst_zip
        simp [freshSlots]

end KvServer

end FlashMemory
