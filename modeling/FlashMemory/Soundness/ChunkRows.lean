import FlashMemory.Model.ChunkRequests
import FlashMemory.Soundness.KvPageMap
import Mathlib.Data.Nat.ModEq

/-! # The rows of the requests

A request fills its pages in the order of its positions, and no two requests share a page.
-/

namespace FlashMemory

open List Function KvServer

namespace ChunkServer

variable {pageSize : ℕ} {reqs reqs' : ℕ → Option ChunkReq} {free free' : List ℕ} {entry : ChunkReq}

/-- The slot at a position of a request. -/
def Holds (reqs : ℕ → Option ChunkReq) (req position slot : ℕ) : Prop :=
  ∃ entry, reqs req = some entry ∧ entry.row[position]? = some slot

/-- Every slot has the offset of its position, two slots are in one page if they belong to the same page of the same
request, and no such page is free. -/
structure RowPages (pageSize : ℕ) (reqs : ℕ → Option ChunkReq) (free : List ℕ) : Prop where
  offset : ∀ {req position slot}, Holds reqs req position slot → slot % pageSize = position % pageSize
  pages : ∀ {req position slot other position' slot'}, Holds reqs req position slot → Holds reqs other position' slot' →
    (slot / pageSize = slot' / pageSize ↔ req = other ∧ position / pageSize = position' / pageSize)
  apart : ∀ {req position slot}, Holds reqs req position slot → slot / pageSize ∉ free

theorem holds_of_mem {req slot : ℕ} (is : reqs req = some entry) (mem : slot ∈ entry.row) :
    ∃ position, Holds reqs req position slot := by
  obtain ⟨position, at'⟩ := mem_iff_getElem?.mp mem
  exact ⟨position, entry, is, at'⟩

/-- One more slot at the end of a row. -/
def push (entry : ChunkReq) (slot : ℕ) : ChunkReq := { entry with row := entry.row ++ [slot] }

theorem holds_push {req slot : ℕ} (is : reqs req = some entry) {other position slot' : ℕ} :
    Holds (update reqs req (some (push entry slot))) other position slot' ↔
      Holds reqs other position slot' ∨ other = req ∧ position = entry.row.length ∧ slot' = slot := by
  by_cases same : other = req
  · subst same
    simp only [Holds, update_self, is, Option.some.injEq, exists_eq_left', push, true_and]
    rcases Nat.lt_trichotomy position entry.row.length with inside | rfl | beyond
    · rw [getElem?_append_left inside]
      exact ⟨.inl, fun held => held.elim id fun new => absurd new.1 inside.ne⟩
    · rw [getElem?_concat_length, getElem?_eq_none le_rfl]
      simp [eq_comm]
    · rw [getElem?_eq_none (by rw [length_append, length_singleton]; omega), getElem?_eq_none beyond.le]
      exact ⟨.inl, fun held => held.elim id fun new => absurd new.1 beyond.ne'⟩
  · simp only [Holds, update_of_ne same, same, false_and, or_false]

theorem holds_update {req : ℕ} {other position slot : ℕ} :
    Holds (update reqs req (some entry)) other position slot ↔
      other ≠ req ∧ Holds reqs other position slot ∨ other = req ∧ entry.row[position]? = some slot := by
  unfold Holds
  rcases eq_or_ne other req with rfl | different
  · simp [update_self]
  · simp [different]

theorem holds_update_none {req other position slot : ℕ} :
    Holds (update reqs req none) other position slot ↔ other ≠ req ∧ Holds reqs other position slot := by
  unfold Holds
  rcases eq_or_ne other req with rfl | different
  · simp [update_self]
  · simp [different]

namespace RowPages

variable (rows : RowPages pageSize reqs free)

include rows

/-- Slots may go, and pages may become free that hold none of the others. -/
theorem of_holds (held : ∀ {req position slot}, Holds reqs' req position slot → Holds reqs req position slot)
    (outside : ∀ {req position slot}, Holds reqs' req position slot → slot / pageSize ∉ free') :
    RowPages pageSize reqs' free' :=
  ⟨fun holds => rows.offset (held holds), fun holds holds' => rows.pages (held holds) (held holds'), outside⟩

theorem extend {req slot : ℕ} {entry : ChunkReq} (is : reqs req = some entry)
    (offset : slot % pageSize = entry.row.length % pageSize) (fewer : free' ⊆ free)
    (place : (∃ position last, Holds reqs req position last ∧ position / pageSize = entry.row.length / pageSize ∧
        last / pageSize = slot / pageSize) ∨
      slot / pageSize ∈ free ∧ slot / pageSize ∉ free' ∧ pageSize ∣ entry.row.length) :
    RowPages pageSize (update reqs req (some (push entry slot))) free' := by
  have new : ∀ {other position slot'}, Holds reqs other position slot' →
      (slot / pageSize = slot' / pageSize ↔ req = other ∧ entry.row.length / pageSize = position / pageSize) := by
    intro other position slot' holds
    rcases place with ⟨before, last, lastHolds, samePosition, samePage⟩ | ⟨wasFree, _, whole⟩
    · rw [← samePage, ← samePosition]
      exact rows.pages lastHolds holds
    · constructor
      · exact fun same => absurd (same ▸ wasFree) (rows.apart holds)
      · rintro ⟨rfl, same⟩
        obtain ⟨entry', is', at'⟩ := holds
        obtain rfl := Option.some.inj (is.symm.trans is')
        have inside : position < entry.row.length := (List.getElem?_eq_some_iff.mp at').1
        obtain ⟨count, length⟩ := whole
        have positive : 0 < pageSize := by
          rcases Nat.eq_zero_or_pos pageSize with zero | positive
          · rw [zero, Nat.zero_mul] at length
            omega
          · exact positive
        rw [length, Nat.mul_div_cancel_left _ positive] at same
        have := (Nat.le_div_iff_mul_le positive).mp same.le
        rw [Nat.mul_comm] at this
        omega
  refine ⟨fun holds => ?_, fun holds holds' => ?_, fun holds => ?_⟩
  · rcases (holds_push is).mp holds with old | ⟨rfl, rfl, rfl⟩
    · exact rows.offset old
    · exact offset
  · rcases (holds_push is).mp holds with old | ⟨rfl, rfl, rfl⟩
    · rcases (holds_push is).mp holds' with old' | ⟨rfl, rfl, rfl⟩
      · exact rows.pages old old'
      · rw [eq_comm, new old, eq_comm, @eq_comm _ (entry.row.length / pageSize)]
    · rcases (holds_push is).mp holds' with old' | ⟨rfl, rfl, rfl⟩
      · exact new old'
      · simp
  · rcases (holds_push is).mp holds with old | ⟨rfl, rfl, rfl⟩
    · exact fun mem => rows.apart old (fewer mem)
    · rcases place with ⟨_, last, lastHolds, _, samePage⟩ | ⟨_, outside, _⟩
      · exact fun mem => rows.apart lastHolds (samePage ▸ fewer mem)
      · exact outside

/-- A new request fills new pages. -/
theorem fresh (page : 0 < pageSize) {req len committed evicted : ℕ} (vacant : reqs req = none) {pages : List ℕ}
    (enough : numPages pageSize len ≤ pages.length) (distinct : (pages.take (numPages pageSize len) ++ free').Nodup)
    (were : ∀ number, number ∈ free ↔ number ∈ pages.take (numPages pageSize len) ++ free') :
    RowPages pageSize
      (update reqs req (some ⟨freshSlots pageSize len pages, committed, evicted⟩)) free' := by
  have old : ∀ {other position slot},
      Holds (update reqs req (some ⟨freshSlots pageSize len pages, committed, evicted⟩)) other position slot →
      other ≠ req ∧ Holds reqs other position slot ∨ other = req ∧ position < len ∧
        slot = pages.getD (position / pageSize) 0 * pageSize + position % pageSize := by
    intro other position slot holds
    rcases holds_update.mp holds with before | ⟨rfl, at'⟩
    · exact .inl before
    · simp only [freshSlots, getElem?_map, Option.map_eq_some_iff] at at'
      obtain ⟨index, isIndex, rfl⟩ := at'
      obtain ⟨inside, rfl⟩ := List.getElem?_eq_some_iff.mp isIndex
      rw [getElem_range, length_range] at *
      exact .inr ⟨rfl, inside, rfl⟩
  have entry : ∀ {position}, position < len →
      (pages.take (numPages pageSize len))[position / pageSize]? = some (pages.getD (position / pageSize) 0) :=
    getElem?_take_numPages page enough
  have taken : ∀ {position}, position < len → pages.getD (position / pageSize) 0 ∈ pages.take (numPages pageSize len) :=
    fun inside => mem_of_getElem? (entry inside)
  obtain ⟨distinctTaken, _, disjoint⟩ := nodup_append.mp distinct
  refine ⟨fun holds => ?_, fun holds holds' => ?_, fun holds => ?_⟩
  · rcases old holds with ⟨_, before⟩ | ⟨rfl, inside, rfl⟩
    · exact rows.offset before
    · exact (freshSlot_page page _ _).2
  · rcases old holds with ⟨other, before⟩ | ⟨rfl, inside, rfl⟩
    · rcases old holds' with ⟨_, before'⟩ | ⟨rfl, inside', rfl⟩
      · exact rows.pages before before'
      · rw [(freshSlot_page page _ _).1]
        refine ⟨fun same => absurd ((were _).mpr (mem_append_left _ (taken inside'))) ?_,
          fun same => absurd same.1 other⟩
        exact same ▸ rows.apart before
    · rcases old holds' with ⟨other, before'⟩ | ⟨rfl, inside', rfl⟩
      · rw [(freshSlot_page page _ _).1]
        refine ⟨fun same => absurd ((were _).mpr (mem_append_left _ (taken inside))) ?_,
          fun same => absurd same.1.symm other⟩
        exact same ▸ rows.apart before'
      · rw [(freshSlot_page page _ _).1, (freshSlot_page page _ _).1]
        refine ⟨fun same => ⟨rfl, ?_⟩, fun same => by rw [same.2]⟩
        have first := entry inside
        have second := entry inside'
        rw [← same] at second
        exact (getElem?_inj (List.getElem?_eq_some_iff.mp first).1 distinctTaken).mp (first.trans second.symm)
  · rcases old holds with ⟨_, before⟩ | ⟨rfl, inside, rfl⟩
    · exact fun mem => rows.apart before ((were _).mpr (mem_append_right _ mem))
    · rw [(freshSlot_page page _ _).1]
      exact fun mem => disjoint _ (taken inside) _ mem rfl

end RowPages

/-! ## A decode batch -/

/-- The next slot of a row is the next one in the last page or the first one of the next new page. -/
private theorem decodeSeq_slot (page : 1 < pageSize) {position last : ℕ} (same : last % pageSize = position % pageSize)
    (pages : List ℕ) :
    (⟨position + 1 + 1, last⟩ : DecodeSeq).numNewPages pageSize = 0 ∧
        (⟨position + 1 + 1, last⟩ : DecodeSeq).outIndex pageSize pages = last + 1 ∧
        (last + 1) / pageSize = last / pageSize ∧
        (last + 1) % pageSize = (position + 1) % pageSize ∧ position / pageSize = (position + 1) / pageSize ∨
      (⟨position + 1 + 1, last⟩ : DecodeSeq).numNewPages pageSize = 1 ∧ pageSize ∣ position + 1 ∧
        (⟨position + 1 + 1, last⟩ : DecodeSeq).outIndex pageSize pages = pages.getD 0 0 * pageSize := by
  have next : (last + 1) % pageSize = (position + 1) % pageSize := Nat.ModEq.add_right 1 same
  have count : (if (position + 1 + 1) % pageSize = 1 then 1 else 0) =
      (⟨position + 1 + 1, last⟩ : DecodeSeq).numNewPages pageSize :=
    DecodeSeq.newPage_iff page ⟨position + 1 + 1, last⟩ (Nat.succ_pos _)
  have first : (position + 1 + 1) % pageSize = 1 ↔ pageSize ∣ position + 1 := by
    rw [Nat.dvd_iff_mod_eq_zero]
    constructor
    · intro one
      have : Nat.ModEq pageSize (position + 1 + 1) (0 + 1) := by
        rw [Nat.ModEq, one, Nat.zero_add, Nat.mod_eq_of_lt page]
      exact this.add_right_cancel' 1
    · intro zero
      rw [Nat.add_mod, zero, Nat.zero_add, Nat.mod_mod, Nat.mod_eq_of_lt page]
  simp only [first] at count
  split_ifs at count with whole
  · refine .inr ⟨count.symm, whole, ?_⟩
    rw [DecodeSeq.outIndex, if_neg (by omega)]
  · refine .inl ⟨count.symm, ?_, ?_, next, ?_⟩
    · rw [DecodeSeq.outIndex, if_pos count.symm]
      exact Int.toNat_natCast (last + 1)
    · rw [Nat.succ_div_of_not_dvd]
      rwa [Nat.dvd_iff_mod_eq_zero, next, ← Nat.dvd_iff_mod_eq_zero]
    · rw [Nat.succ_div_of_not_dvd whole]

theorem writeRows_cons {req slot : ℕ} (is : reqs req = some entry) (batch slots : List ℕ) :
    writeRows (req :: batch) (slot :: slots) reqs =
      writeRows batch slots (update reqs req (some (push entry slot))) := by
  rw [writeRows, is]
  rfl

theorem getLastD_row (filled : entry.row ≠ []) :
    ∃ position, entry.row.length = position + 1 ∧ entry.row[position]? = some (entry.row.getLastD 0) := by
  obtain ⟨init, last, is⟩ := eq_nil_or_concat'  entry.row |>.resolve_left filled
  exact ⟨init.length, by rw [is, length_append, length_singleton], by simp [is]⟩

/-- The slots of a batch go to the rows, each in its last page or in a new one. -/
theorem RowPages.decode (page : 1 < pageSize) {batch pages : List ℕ} (distinct : batch.Nodup)
    (live : ∀ req ∈ batch, ∃ entry, reqs req = some entry ∧ entry.row ≠ [])
    (enough : decodeNumNewPages pageSize ((batch.filterMap reqs).map decodeSeq) ≤ pages.length)
    (apart : (pages.take (decodeNumNewPages pageSize ((batch.filterMap reqs).map decodeSeq)) ++ free').Nodup)
    (rows : RowPages pageSize reqs
      (pages.take (decodeNumNewPages pageSize ((batch.filterMap reqs).map decodeSeq)) ++ free')) :
    RowPages pageSize (writeRows batch (allocDecodeKernel pageSize ((batch.filterMap reqs).map decodeSeq) pages) reqs)
      free' := by
  induction batch generalizing reqs pages with
  | nil => exact rows
  | cons req batch ih =>
    obtain ⟨entry, is, filled⟩ := live req mem_cons_self
    obtain ⟨position, length, lastIs⟩ := getLastD_row filled
    obtain ⟨outside, distinct'⟩ := nodup_cons.mp distinct
    have other : ∀ {slot} {other}, other ∈ batch → update reqs req (some (push entry slot)) other = reqs other :=
      fun mem => update_of_ne (ne_of_mem_of_not_mem mem outside) _ _
    have unchanged : ∀ slot, batch.filterMap (update reqs req (some (push entry slot))) = batch.filterMap reqs :=
      fun slot => filterMap_congr fun _ mem => other mem
    have live' : ∀ slot, ∀ other ∈ batch,
        ∃ entry', update reqs req (some (push entry slot)) other = some entry' ∧ entry'.row ≠ [] := by
      intro slot other' mem
      rw [other mem]
      exact live other' (mem_cons_of_mem _ mem)
    have total : decodeNumNewPages pageSize (((req :: batch).filterMap reqs).map decodeSeq) =
        (decodeSeq entry).numNewPages pageSize + decodeNumNewPages pageSize ((batch.filterMap reqs).map decodeSeq) := by
      rw [filterMap_cons_some is, map_cons, decodeNumNewPages, foldr_cons,
        DecodeSeq.newPage_iff page (decodeSeq entry) (Nat.succ_pos _)]
      rfl
    rw [total] at enough apart rows
    rw [filterMap_cons_some is, map_cons, allocDecodeKernel, writeRows_cons is]
    have last : Holds reqs req position (entry.row.getLastD 0) := ⟨entry, is, lastIs⟩
    have next := decodeSeq_slot page (rows.offset last) pages
    rw [← length] at next
    change (decodeSeq entry).numNewPages pageSize = 0 ∧ (decodeSeq entry).outIndex pageSize pages = _ ∧ _ ∨
      (decodeSeq entry).numNewPages pageSize = 1 ∧ _ ∧ (decodeSeq entry).outIndex pageSize pages = _ at next
    rcases next with ⟨none, slot, samePage, offset, samePosition⟩ | ⟨one, whole, slot⟩
    · rw [none, Nat.zero_add] at enough apart rows
      rw [none, slot, drop_zero]
      have rows' := rows.extend is offset (List.Subset.refl _) (.inl ⟨position, _, last, samePosition, samePage.symm⟩)
      rw [← unchanged (entry.row.getLastD 0 + 1)] at enough apart rows' ⊢
      exact ih distinct' (live' _) enough apart rows'
    · rw [one] at enough apart rows
      obtain ⟨number, pages, rfl⟩ := exists_cons_of_length_pos (show 0 < pages.length by omega)
      rw [Nat.add_comm, take_succ_cons, cons_append] at apart rows
      obtain ⟨newOutside, apart'⟩ := nodup_cons.mp apart
      have slotPage : number * pageSize / pageSize = number := Nat.mul_div_cancel _ (by omega)
      rw [one, slot, drop_one, tail_cons, getD_cons_zero]
      have rows' := rows.extend is (by rw [Nat.mul_mod_left, Nat.mod_eq_zero_of_dvd whole])
        (subset_cons_self ..) (.inr ⟨slotPage.symm ▸ mem_cons_self, slotPage.symm ▸ newOutside, whole⟩)
      have enough' : decodeNumNewPages pageSize ((batch.filterMap reqs).map decodeSeq) ≤ pages.length := by
        rw [length_cons] at enough
        omega
      rw [← unchanged (number * pageSize)] at enough' apart' rows' ⊢
      exact ih distinct' (live' _) enough' apart' rows'

theorem length_allocDecodeKernel (seqs : List DecodeSeq) (pages : List ℕ) :
    (allocDecodeKernel pageSize seqs pages).length = seqs.length := by
  induction seqs generalizing pages with
  | nil => rfl
  | cons seq seqs ih => rw [allocDecodeKernel, length_cons, length_cons, ih]

theorem holds_writeRows {batch slots : List ℕ} (distinct : batch.Nodup) (live : ∀ req ∈ batch, reqs req ≠ none)
    (same : slots.length = batch.length) {req position slot : ℕ} :
    Holds (writeRows batch slots reqs) req position slot ↔ Holds reqs req position slot ∨
      ∃ entry, reqs req = some entry ∧ position = entry.row.length ∧ (req, slot) ∈ batch.zip slots := by
  induction batch generalizing reqs slots with
  | nil => simp [writeRows]
  | cons first batch ih =>
    obtain ⟨new, slots, rfl⟩ := exists_cons_of_length_eq_add_one same
    obtain ⟨entry, is⟩ := Option.ne_none_iff_exists'.mp (live first mem_cons_self)
    obtain ⟨outside, distinct'⟩ := nodup_cons.mp distinct
    have other : ∀ {other}, other ∈ batch → update reqs first (some (push entry new)) other = reqs other :=
      fun mem => update_of_ne (ne_of_mem_of_not_mem mem outside) _ _
    rw [writeRows_cons is, ih distinct' (fun req mem => ?_) (Nat.succ.inj same), holds_push is, zip_cons_cons, or_assoc]
    · refine or_congr_right ?_
      constructor
      · rintro (⟨rfl, rfl, rfl⟩ | ⟨entry', is', rfl, mem⟩)
        · exact ⟨entry, is, rfl, mem_cons_self⟩
        · rw [other (of_mem_zip mem).1] at is'
          exact ⟨entry', is', rfl, mem_cons_of_mem _ mem⟩
      · rintro ⟨entry', is', rfl, mem⟩
        rcases mem_cons.mp mem with same | later
        · obtain ⟨rfl, rfl⟩ := Prod.mk.inj same
          obtain rfl := Option.some.inj (is.symm.trans is')
          exact .inl ⟨rfl, rfl, rfl⟩
        · exact .inr ⟨entry', (other (of_mem_zip later).1).trans is', rfl, later⟩
    · rw [other mem]
      exact live req (mem_cons_of_mem _ mem)

/-- Writing a batch changes nothing but the rows, which grow. -/
theorem of_writeRows {batch slots : List ℕ} {req : ℕ} {entry' : ChunkReq}
    (is : writeRows batch slots reqs req = some entry') :
    ∃ entry, reqs req = some entry ∧ entry'.kvCommittedLen = entry.kvCommittedLen ∧
      entry'.swaEvictedSeqlen = entry.swaEvictedSeqlen ∧ entry.row.length ≤ entry'.row.length := by
  induction batch generalizing reqs slots with
  | nil => exact ⟨entry', by simpa [writeRows] using is, rfl, rfl, le_rfl⟩
  | cons first batch ih =>
    cases slots with
    | nil => exact ⟨entry', by simpa [writeRows] using is, rfl, rfl, le_rfl⟩
    | cons new slots =>
      obtain ⟨middle, isMiddle, committed, evicted, grows⟩ := ih is
      by_cases same : req = first
      · subst same
        rw [update_self, Option.map_eq_some_iff] at isMiddle
        obtain ⟨entry, is, rfl⟩ := isMiddle
        exact ⟨entry, is, committed, evicted, (length_append ▸ Nat.le_add_right ..).trans grows⟩
      · rw [update_of_ne same] at isMiddle
        exact ⟨middle, isMiddle, committed, evicted, grows⟩

end ChunkServer

end FlashMemory
