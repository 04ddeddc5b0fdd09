import FlashMemory.Model.HiSparse
import FlashMemory.Soundness.KvPages
import Mathlib.Data.List.GetD

/-! # Device buffers have distinct slots

The slots of a request are those of its pages, in order. A buffer that has room for all of them gets whole pages: the
last page is completed and new ones are added. A smaller buffer is cut out of them after the swap. When the swap happens
and the last page is completed afterwards, it is completed from the wrong slot, so two places of the buffer get the same
one. -/

namespace FlashMemory.HiSparseAllocator

open List
open KvServer (freshSlots)

variable {pageSize len : ℕ} {pages slots : List ℕ}

/-! ## The slots of whole pages -/

theorem getElem?_freshSlots {position : ℕ} (inside : position < len) :
    (freshSlots pageSize len pages)[position]? =
      some (pages.getD (position / pageSize) 0 * pageSize + position % pageSize) := by
  rw [freshSlots, getElem?_map, getElem?_range inside, Option.map_some]

theorem length_freshSlots : (freshSlots pageSize len pages).length = len := by
  rw [freshSlots, length_map, length_range]

private theorem freshSlots_add (more : ℕ) : freshSlots pageSize (len + more) pages = freshSlots pageSize len pages ++
    (List.range more).map fun offset =>
      pages.getD ((len + offset) / pageSize) 0 * pageSize + (len + offset) % pageSize := by
  rw [freshSlots, range_add, map_append, map_map]
  rfl

theorem nodup_freshSlots (page : 0 < pageSize) (enough : len ≤ pages.length * pageSize) (distinct : pages.Nodup) :
    (freshSlots pageSize len pages).Nodup := by
  apply List.Nodup.map_on _ nodup_range
  intro first inside second inside' same
  have place {position : ℕ} (inside : position ∈ List.range len) : position / pageSize < pages.length :=
    (Nat.div_lt_iff_lt_mul page).mpr ((mem_range.mp inside).trans_le enough)
  obtain ⟨firstPage, firstOffset⟩ := KvServer.freshSlot_page page (pages.getD (first / pageSize) 0) first
  obtain ⟨secondPage, secondOffset⟩ := KvServer.freshSlot_page page (pages.getD (second / pageSize) 0) second
  rw [same] at firstPage firstOffset
  have numbers := firstPage.symm.trans secondPage
  rw [getD_eq_getElem _ _ (place inside), getD_eq_getElem _ _ (place inside')] at numbers
  rw [← Nat.div_add_mod first pageSize, ← Nat.div_add_mod second pageSize, distinct.getElem_inj_iff.mp numbers,
    firstOffset.symm.trans secondOffset]

section

variable (page : 0 < pageSize) (count : pages.length = numPages pageSize len)
include page count

theorem mem_pages_freshSlots {number : ℕ} :
    number ∈ (freshSlots pageSize len pages).map (· / pageSize) ↔ number ∈ pages := by
  rw [KvServer.mem_pages_freshSlots page count.ge, take_of_length_le count.le]

/-- Unless the swap has happened, the last page is completed. -/
theorem completePage_freshSlots :
    completePage pageSize (freshSlots pageSize len pages) = freshSlots pageSize (pages.length * pageSize) pages := by
  have split := Nat.div_add_mod len pageSize
  have small := Nat.mod_lt len page
  rw [Nat.mul_comm] at split
  unfold completePage
  rw [length_freshSlots]
  split_ifs with whole
  · rw [whole, Nat.add_zero] at split
    rw [count, ← split, numPages_mul page]
  · have last := numPages_mul_add (len / pageSize) (Nat.pos_of_ne_zero whole) small.le
    rw [split, ← count] at last
    have total : pages.length * pageSize = len + (pageSize - len % pageSize) := by
      rw [last, Nat.succ_mul]
      omega
    have place {rest : ℕ} (fits : rest < pageSize) :
        pages.getD ((len / pageSize * pageSize + rest) / pageSize) 0 * pageSize +
          (len / pageSize * pageSize + rest) % pageSize = pages.getD (len / pageSize) 0 * pageSize + rest := by
      rw [Nat.add_comm (len / pageSize * pageSize), Nat.add_mul_div_right _ _ page, Nat.add_mul_mod_self_right,
        Nat.div_eq_of_lt fits, Nat.mod_eq_of_lt fits, Nat.zero_add]
    have before : len - 1 = len / pageSize * pageSize + (len % pageSize - 1) := by omega
    rw [total, freshSlots_add, getD_eq_getElem?_getD, getElem?_freshSlots (by omega), Option.getD_some, before,
      place (by omega), range'_eq_map_range]
    congr 1
    refine map_congr_left fun offset inside => ?_
    have inside := mem_range.mp inside
    rw [show len + offset = len / pageSize * pageSize + (len % pageSize + offset) by omega, place (by omega)]
    omega

end

/-! ## The swap -/

theorem perm_swapNewest (deviceBufferSize : ℕ) : (swapNewest deviceBufferSize slots).Perm slots := by
  unfold swapNewest
  split_ifs with long
  · rw [getD_eq_getElem _ _ (show slots.length - 1 < slots.length by omega),
      getD_eq_getElem _ _ (show deviceBufferSize < slots.length by omega)]
    exact set_set_perm _ _
  · exact .refl _

theorem swapNewest_newest {deviceBufferSize : ℕ} (long : deviceBufferSize < slots.length) :
    (swapNewest deviceBufferSize slots)[deviceBufferSize]? = slots.getLast? := by
  rw [getLast?_eq_getElem?]
  unfold swapNewest
  split_ifs with longer
  · rw [getElem?_set_ne (by omega), getElem?_set_self long, getD_eq_getElem?_getD,
      getElem?_eq_getElem (show slots.length - 1 < slots.length by omega), Option.getD_some]
  · rw [show slots.length - 1 = deviceBufferSize by omega]

/-- After the swap the last page is completed from its first slot, and the slot behind that one is in the list
already. -/
theorem not_nodup_completePage {blocks : ℕ} (swaps : pageSize * blocks + 1 < len)
    (short : len < pageSize * blocks + pageSize) :
    ¬(completePage pageSize (swapNewest (pageSize * blocks) (freshSlots pageSize len pages))).Nodup := by
  have size : (freshSlots pageSize len pages).length = len := length_freshSlots
  have offset (rest : ℕ) (fits : rest < pageSize) : (freshSlots pageSize len pages)[pageSize * blocks + rest]? =
      if pageSize * blocks + rest < len then some (pages.getD blocks 0 * pageSize + rest) else none := by
    split_ifs with inside
    · rw [getElem?_freshSlots inside, Nat.mul_add_div (by omega), Nat.mul_add_mod, Nat.div_eq_of_lt fits,
        Nat.mod_eq_of_lt fits, Nat.add_zero]
    · exact getElem?_eq_none (by omega)
  have partly : len % pageSize = len - pageSize * blocks := by
    rw [← Nat.sub_add_cancel (show pageSize * blocks ≤ len by omega), Nat.add_mul_mod_self_left, Nat.add_sub_cancel]
    exact Nat.mod_eq_of_lt (by omega)
  have first := offset 0 (by omega)
  have second := offset 1 (by omega)
  rw [if_pos (by omega), Nat.add_zero] at first
  rw [if_pos swaps] at second
  have last : (swapNewest (pageSize * blocks) (freshSlots pageSize len pages)).getD (len - 1) 0 =
      pages.getD blocks 0 * pageSize := by
    rw [swapNewest, if_pos (by omega), size, getD_eq_getElem?_getD, getElem?_set_self (by rw [length_set]; omega),
      Option.getD_some, getD_eq_getElem?_getD, first, Option.getD_some, Nat.add_zero]
  intro distinct
  rw [completePage, (perm_swapNewest _).length_eq, size, if_neg (by omega), last] at distinct
  exact (nodup_append.mp distinct).2.2 _ ((perm_swapNewest _).mem_iff.mpr (mem_of_getElem? second)) _
    (mem_range'_1.mpr ⟨le_rfl, by omega⟩) rfl

/-! ## Freed pages -/

theorem mem_uniquePages {number : ℕ} : number ∈ uniquePages pageSize slots ↔ number ∈ slots.map (· / pageSize) := by
  rw [uniquePages, mem_insertionSort, mem_dedup]

private theorem nodup_uniquePages : (uniquePages pageSize slots).Nodup :=
  (perm_insertionSort ..).nodup_iff.mpr (nodup_dedup _)

private theorem perm_freePages {pool : KvPool} :
    (freePages pageSize pool slots).pages.Perm (uniquePages pageSize slots ++ pool.pages) := by
  unfold freePages KvPool.pages
  split_ifs
  all_goals grind

/-- Exactly the pages without a slot in the buffer are freed. -/
private theorem perm_freeSurplus (page : 0 < pageSize) {pool : KvPool} {buffer surplus : List ℕ}
    (distinct : pages.Nodup) (all : ∀ number, number ∈ (buffer ++ surplus).map (· / pageSize) ↔ number ∈ pages) :
    (freeSurplus pageSize pool buffer surplus).pages.Perm
      (pages.filter (· ∉ buffer.map (· / pageSize)) ++ pool.pages) := by
  have same : ((uniquePages pageSize surplus).filter (· ∉ uniquePages pageSize buffer)).Perm
      (pages.filter (· ∉ buffer.map (· / pageSize))) := by
    apply (perm_ext_iff_of_nodup (nodup_uniquePages.filter _) (distinct.filter _)).mpr
    intro number
    have mem := all number
    rw [map_append, mem_append] at mem
    simp only [mem_filter, decide_eq_true_eq, mem_uniquePages, ← mem]
    tauto
  unfold freeSurplus
  dsimp only
  split_ifs with none
  · have empty : (uniquePages pageSize surplus).filter (· ∉ uniquePages pageSize buffer) = [] := by
      rcases none with rfl | empty
      · rfl
      · exact empty
    rw [empty] at same
    rw [same.nil_eq.symm, nil_append]
  · apply perm_freePages.trans (List.Perm.append_right _ (List.Perm.trans _ same))
    apply (perm_ext_iff_of_nodup nodup_uniquePages (nodup_uniquePages.filter _)).mpr
    intro number
    rw [mem_uniquePages, map_map]
    simp [Function.comp_def, Nat.mul_div_cancel _ page]

/-! ## The buffer -/

/-- A buffer of distinct slots, in pages of the request and in pages that were free. The pages that it does not use are
free. -/
structure Buffered (pageSize needSize : ℕ) (pages slots : List ℕ) (pool : KvPool) (buffer : List ℕ) (pool' : KvPool) :
    Prop where
  length : buffer.length = needSize
  distinct : buffer.Nodup
  inPages : ∀ slot ∈ buffer, slot / pageSize ∈ pages ++ pool.pages
  free : pool'.pages.Perm ((pages ++ pool.pages).filter (· ∉ buffer.map (· / pageSize)))
  newest : needSize - pageSize < slots.length → buffer[needSize - pageSize]? = slots.getLast?

section Buffer

variable {needSize : ℕ} {pool pool' : KvPool} (page : 0 < pageSize) (aligned : needSize % pageSize = 0)
  (count : pages.length = numPages pageSize len) (distinct : (pages ++ pool.pages).Nodup)

include page count distinct

private theorem buffered_cut (positive : 0 < needSize) (long : needSize ≤ len) {swapped : List ℕ}
    (perm : swapped.Perm (freshSlots pageSize len pages))
    (newest : needSize - pageSize < (freshSlots pageSize len pages).length →
      swapped[needSize - pageSize]? = (freshSlots pageSize len pages).getLast?) :
    Buffered pageSize needSize pages (freshSlots pageSize len pages) pool (swapped.take needSize)
      (freeSurplus pageSize pool (swapped.take needSize) (swapped.drop needSize)) := by
  obtain ⟨own, _, apart⟩ := nodup_append.mp distinct
  have all : ∀ number, number ∈ swapped.map (· / pageSize) ↔ number ∈ pages := fun number => by
    rw [← mem_pages_freshSlots page count, (perm.map _).mem_iff]
  have inside : ∀ slot ∈ swapped.take needSize, slot / pageSize ∈ pages := fun slot mem =>
    (all _).mp (mem_map_of_mem (mem_of_mem_take mem))
  constructor
  case length => rw [length_take, perm.length_eq, length_freshSlots, min_eq_left long]
  case distinct =>
    apply List.Nodup.sublist (take_sublist ..) (perm.nodup_iff.mpr (nodup_freshSlots page _ own))
    rw [count]
    exact le_numPages_mul page len
  case inPages => exact fun slot mem => mem_append_left _ (inside slot mem)
  case free =>
    have others : pool.pages.filter (· ∉ (swapped.take needSize).map (· / pageSize)) = pool.pages := by
      apply filter_eq_self.mpr
      intro number mem
      rw [decide_eq_true_eq, mem_map]
      rintro ⟨slot, among, rfl⟩
      exact apart _ (inside slot among) _ mem rfl
    rw [filter_append, others]
    apply perm_freeSurplus page own
    rwa [take_append_drop]
  case newest =>
    intro shorter
    rw [getElem?_take_of_lt (by omega), newest shorter]

include aligned

private theorem buffered_completed (short : len < needSize) (kept : len ≤ needSize - pageSize + 1) {extra : List ℕ}
    (returned : pool.alloc pageSize (needSize - pages.length * pageSize) = (some extra, pool')) :
    Buffered pageSize needSize pages (freshSlots pageSize len pages) pool
      (freshSlots pageSize (pages.length * pageSize) pages ++ extra) pool' := by
  obtain ⟨blocks, rfl⟩ := Nat.dvd_of_mod_eq_zero aligned
  have fits : pages.length ≤ blocks := by
    rw [count, numPages_le_iff page, Nat.mul_comm]
    exact short.le
  rw [Nat.mul_comm pageSize, ← Nat.sub_mul] at returned
  obtain ⟨is, enough, took⟩ := KvPool.take_eq_some returned
  rw [Nat.mul_div_cancel _ page] at is enough took
  generalize (pool.prepare _).freePages = free at is enough took
  have took := took.prepare
  have taken : (free.take (blocks - pages.length)).length = blocks - pages.length := by
    rw [length_take, min_eq_left enough]
  have whole : freshSlots pageSize (pages.length * pageSize) pages ++ extra =
      freshSlots pageSize ((pages ++ free.take (blocks - pages.length)).length * pageSize)
        (pages ++ free.take (blocks - pages.length)) := by
    rw [is, freshSlots, freshSlots, ← KvPool.flatMap_pages page, ← KvPool.flatMap_pages page, flatMap_append]
  have apart := (took.perm.append_left pages).nodup_iff.mp distinct
  rw [← append_assoc] at apart
  have members : ∀ number, number ∈ (freshSlots pageSize (pages.length * pageSize) pages ++ extra).map (· / pageSize) ↔
      number ∈ pages ++ free.take (blocks - pages.length) := by
    intro number
    rw [whole]
    exact mem_pages_freshSlots page (numPages_mul page _).symm
  constructor
  case length =>
    rw [whole, length_freshSlots, length_append, taken, Nat.add_sub_cancel' fits, Nat.mul_comm]
  case distinct =>
    rw [whole]
    exact nodup_freshSlots page le_rfl (nodup_append.mp apart).1
  case inPages =>
    intro slot mem
    have among := (members _).mp (mem_map_of_mem mem)
    rw [mem_append] at among ⊢
    exact among.imp_right fun new => took.perm.mem_iff.mpr (mem_append_left _ new)
  case free =>
    apply List.Perm.symm
    apply ((took.perm.append_left pages).filter _).trans
    rw [← append_assoc, filter_append, filter_eq_nil_iff.mpr, filter_eq_self.mpr, nil_append]
    · intro number mem
      rw [decide_eq_true_eq, members]
      exact fun among => (nodup_append.mp apart).2.2 _ among _ mem rfl
    · intro number mem
      rw [decide_eq_true_eq, members, not_not]
      exact mem
  case newest =>
    intro longer
    rw [length_freshSlots] at longer
    have last : pageSize * blocks - pageSize < pages.length * pageSize :=
      longer.trans_le (count ▸ le_numPages_mul page len)
    rw [getElem?_append_left (by rwa [length_freshSlots]), getElem?_freshSlots last, getLast?_eq_getElem?,
      length_freshSlots, show len - 1 = pageSize * blocks - pageSize by omega, getElem?_freshSlots longer]

end Buffer

/-- The slots of a returned buffer are distinct, the newest one is in its place, and the pages that are not needed are
freed, unless the newest slot lies behind the first one of the last page of a buffer that it does not fill: then a slot
is repeated. -/
theorem alloc_device_buffer_distinct (page : 0 < pageSize) {needSize : ℕ} (positive : 0 < needSize)
    (allocator : HiSparseAllocator)
    (allocatedIndices : List ℕ) (layout : allocatedIndices.map allocator.fullToHisparse = freshSlots pageSize len pages)
    (count : pages.length = numPages pageSize len) (distinct : (pages ++ allocator.pool.pages).Nodup) :
    Ensures (allocDeviceBuffer pageSize allocatedIndices needSize) allocator (fun buffer allocator' =>
      Buffered pageSize needSize pages (freshSlots pageSize len pages) allocator.pool buffer allocator'.pool ↔
        len ≤ needSize - pageSize + 1 ∨ needSize ≤ len) fun _ => True := by
  rw [allocDeviceBuffer, ensures_bind, ensures_ensure]
  split_ifs with aligned
  · rw [ensures_bind, ensures_get, layout]
    dsimp only
    rw [(perm_swapNewest _).length_eq, length_freshSlots]
    split_ifs with long
    · exact iff_of_true (buffered_cut page count distinct positive long (perm_swapNewest _) swapNewest_newest)
        (.inr long)
    · rw [ensures_bind, ensures_set, or_iff_left long]
      by_cases kept : len ≤ needSize - pageSize + 1
      · have same : swapNewest (needSize - pageSize) (freshSlots pageSize len pages) =
            freshSlots pageSize len pages := by
          rw [swapNewest, length_freshSlots, if_neg (by omega)]
        rw [same, completePage_freshSlots page count, length_freshSlots]
        cases returned : (allocator.pool.alloc pageSize (needSize - pages.length * pageSize)).1 with
        | none => trivial
        | some extra =>
          exact iff_of_true
            (buffered_completed page aligned count distinct (not_le.mp long) kept (Prod.ext returned rfl)) kept
      · obtain ⟨blocks, rfl⟩ := Nat.dvd_of_mod_eq_zero aligned
        obtain ⟨before, rfl⟩ := Nat.exists_eq_succ_of_ne_zero (Nat.pos_of_mul_pos_left positive).ne'
        rw [Nat.mul_succ, Nat.add_sub_cancel] at kept ⊢
        have repeats := @not_nodup_completePage _ _ pages _ (not_le.mp kept) (not_le.mp long)
        split
        next extra _ =>
          exact iff_of_false (fun buffered => repeats (nodup_append.mp buffered.distinct).1) kept
        next => trivial

/-- The buffer gets the newest slot and keeps its page, and the page in between is freed. -/
theorem alloc_device_buffer_distinct_on_four_pages :
    ∃ buffer allocator', allocDeviceBuffer 2 (List.range 7) 4 ⟨⟨8, false, [], []⟩, (· + 2)⟩ = .ok buffer allocator' ∧
      Buffered 2 4 [1, 2, 3, 4] (freshSlots 2 7 [1, 2, 3, 4]) ⟨8, false, [], []⟩ buffer allocator'.pool := by
  have ensured := alloc_device_buffer_distinct (by decide) (show 0 < 4 by decide) ⟨⟨8, false, [], []⟩, (· + 2)⟩
    (List.range 7) (show (List.range 7).map (· + 2) = freshSlots 2 7 [1, 2, 3, 4] by decide) (by decide) (by decide)
  exact ⟨_, _, rfl, ensured.mpr (.inr (by decide))⟩

/-- Slots 10 and 8 have changed places, so the page is completed with the slot behind 8, which the buffer has
already. -/
theorem completed_page_repeats_slot :
    (List.range 7).map (· + 4) = freshSlots 4 7 [1, 2] ∧ ∃ allocator',
      allocDeviceBuffer 4 (List.range 7) 8 ⟨⟨8, false, [], []⟩, (· + 4)⟩ = .ok [4, 5, 6, 7, 10, 9, 8, 9] allocator' :=
  ⟨by decide, _, rfl⟩

end FlashMemory.HiSparseAllocator
