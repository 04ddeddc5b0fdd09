import FlashMemory.Model.KvAllocator
import Mathlib.Tactic.Ring
import Mathlib.Tactic.Linarith

/-! # What the allocation kernels write

A program of `alloc_extend_kernel` writes the slots of the positions from the end of the prefix to the end of the
sequence: up to the end of the old page they follow the last slot, and then they lie in the new pages, each at the
offset of its position. Two pools that run the same batch take pages at the same places of their free lists.
-/

namespace FlashMemory

open List ExtendSeq

variable {pageSize : ℕ}

section

variable (page : 0 < pageSize)

include page

theorem le_numPages_mul (len : ℕ) : len ≤ numPages pageSize len * pageSize := by
  have := Nat.div_add_mod (len + pageSize - 1) pageSize
  have := Nat.mod_lt (len + pageSize - 1) page
  rw [numPages, Nat.mul_comm]
  omega

theorem numPages_mul_lt (len : ℕ) : numPages pageSize len * pageSize < len + pageSize := by
  have := Nat.div_mul_le_self (len + pageSize - 1) pageSize
  rw [numPages]
  omega

theorem numPages_zero :
    numPages pageSize 0 = 0 := Nat.div_eq_of_lt (by omega)

theorem numPages_le_iff {len pages : ℕ} : numPages pageSize len ≤ pages ↔ len ≤ pages * pageSize := by
  constructor
  · intro few
    exact (le_numPages_mul page len).trans (Nat.mul_le_mul_right _ few)
  · intro short
    have := numPages_mul_lt page len
    by_contra many
    have : (pages + 1) * pageSize ≤ numPages pageSize len * pageSize := Nat.mul_le_mul_right _ (not_le.mp many)
    rw [Nat.succ_mul] at this
    omega

theorem lt_numPages_iff {len pages : ℕ} : pages < numPages pageSize len ↔ pages * pageSize < len := by
  rw [← not_le, numPages_le_iff page, not_le]

end

/-- A page that is begun counts whole. -/
theorem numPages_mul_add {rest : ℕ} (whole : ℕ) (begun : 0 < rest) (fits : rest ≤ pageSize) :
    numPages pageSize (whole * pageSize + rest) = whole + 1 := by
  have page : 0 < pageSize := by omega
  apply le_antisymm
  · rw [numPages_le_iff page, Nat.succ_mul]
    omega
  · rw [Nat.succ_le_iff, lt_numPages_iff page]
    omega

section

variable (page : 0 < pageSize)
include page

theorem numPages_mul (whole : ℕ) : numPages pageSize (whole * pageSize) = whole := by
  cases whole with
  | zero => rw [Nat.zero_mul, numPages_zero page]
  | succ whole => rw [Nat.succ_mul, numPages_mul_add whole page le_rfl]

theorem numPages_mul_add_rest (whole rest : ℕ) :
    numPages pageSize (whole * pageSize + rest) = whole + numPages pageSize rest := by
  rw [numPages, numPages, Nat.add_assoc, Nat.add_sub_assoc (by omega), Nat.mul_comm, Nat.mul_add_div page]

/-- A position lies in the pages of a length that is beyond it. -/
theorem div_lt_numPages {position len : ℕ} (inside : position < len) :
    position / pageSize < numPages pageSize len :=
  (lt_numPages_iff page).mpr ((Nat.div_mul_le_self ..).trans_lt inside)

theorem KvServer.freshSlot_page (number position : ℕ) :
    (number * pageSize + position % pageSize) / pageSize = number ∧
      (number * pageSize + position % pageSize) % pageSize = position % pageSize := by
  rw [Nat.add_comm]
  have small := Nat.mod_lt position page
  exact ⟨by rw [Nat.add_mul_div_right _ _ page, Nat.div_eq_of_lt small, Nat.zero_add],
    by rw [Nat.add_mul_mod_self_right, Nat.mod_mod]⟩

end

namespace ExtendSeq

variable (pageSize) in
/-- The slot of a position. -/
def slotAt (seq : ExtendSeq) (pages : List ℕ) (position : ℕ) : ℕ :=
  if position < numPages pageSize seq.prefixLen * pageSize then (seq.lastLoc + 1 + (position - seq.prefixLen : ℕ)).toNat
  else pages.getD (position / pageSize - numPages pageSize seq.prefixLen) 0 * pageSize + position % pageSize

/-- The positions of an extension. -/
def positions (seq : ExtendSeq) : List ℕ := List.range' seq.prefixLen (seq.seqLen - seq.prefixLen)

@[simp] theorem mem_positions {seq : ExtendSeq} {position : ℕ} :
    position ∈ seq.positions ↔ seq.prefixLen ≤ position ∧ position < seq.seqLen := by
  rw [positions, mem_range'_1]
  omega

private theorem map_range_eq {f g : ℕ → ℕ} {start len : ℕ} (same : ∀ offset < len, f offset = g (start + offset)) :
    (List.range len).map f = (List.range' start len).map g := by
  rw [range'_eq_map_range, map_map]
  refine map_congr_left fun offset inside => ?_
  exact same offset (mem_range.mp inside)

theorem outIndices_eq (page : 0 < pageSize) (seq : ExtendSeq) (grows : seq.prefixLen ≤ seq.seqLen) (pages : List ℕ) :
    seq.outIndices pageSize pages = seq.positions.map (seq.slotAt pageSize pages) := by
  have above := le_numPages_mul page seq.prefixLen
  generalize full : numPages pageSize seq.prefixLen = old at above
  unfold outIndices
  simp only [full]
  rcases le_or_gt seq.seqLen (old * pageSize) with short | long
  · -- the old page has room for all of them
    rw [min_eq_left short, if_pos (by omega), positions]
    refine map_range_eq fun offset inside => ?_
    rw [slotAt, full, if_pos (by omega), Nat.add_sub_cancel_left]
  · have pages' : old * pageSize ≤ seq.seqLen / pageSize * pageSize :=
      Nat.mul_le_mul_right _ ((Nat.le_div_iff_mul_le page).mpr long.le)
    have rest := Nat.div_add_mod seq.seqLen pageSize
    have small := Nat.mod_lt seq.seqLen page
    rw [Nat.mul_comm] at rest
    generalize seq.seqLen / pageSize = whole at pages' rest ⊢
    have first : (List.range (old * pageSize - seq.prefixLen)).map
        (fun offset : ℕ => (seq.lastLoc + 1 + offset).toNat) =
          (List.range' seq.prefixLen (old * pageSize - seq.prefixLen)).map (seq.slotAt pageSize pages) := by
      refine map_range_eq fun offset inside => ?_
      rw [slotAt, full, if_pos (by omega), Nat.add_sub_cancel_left]
    have second : (List.range (whole * pageSize - old * pageSize)).map
          (fun offset => pages.getD (offset / pageSize) 0 * pageSize + offset % pageSize) =
        (List.range' (old * pageSize) (whole * pageSize - old * pageSize)).map (seq.slotAt pageSize pages) := by
      refine map_range_eq fun offset inside => ?_
      rw [slotAt, full, if_neg (by omega), Nat.add_comm (old * pageSize), Nat.add_mul_mod_self_right,
        Nat.add_mul_div_right _ _ page, Nat.add_sub_cancel]
    rw [min_eq_right long.le, if_neg (by omega), first, second, positions]
    split_ifs with done
    · have split : seq.seqLen - seq.prefixLen =
          (old * pageSize - seq.prefixLen) + (whole * pageSize - old * pageSize) := by omega
      rw [split, ← range'_append_1, map_append]
      congr 3
      omega
    · have third : (List.range (seq.seqLen - whole * pageSize)).map
            (fun offset => pages.getD (seq.numNewPages pageSize - 1) 0 * pageSize + offset) =
          (List.range' (whole * pageSize) (seq.seqLen - whole * pageSize)).map (seq.slotAt pageSize pages) := by
        have last := numPages_mul_add whole (show 0 < seq.seqLen % pageSize by omega) small.le
        rw [rest] at last
        refine map_range_eq fun offset inside => ?_
        have fits : offset < pageSize := by omega
        rw [slotAt, full, if_neg (by omega), numNewPages, last, full, Nat.add_comm (whole * pageSize) offset,
          Nat.add_mul_div_right _ _ page, Nat.add_mul_mod_self_right, Nat.div_eq_of_lt fits, Nat.mod_eq_of_lt fits]
        congr 3
        omega
      have split : seq.seqLen - seq.prefixLen = (old * pageSize - seq.prefixLen) +
          (whole * pageSize - old * pageSize) + (seq.seqLen - whole * pageSize) := by omega
      rw [third, split, ← range'_append_1, ← range'_append_1, map_append, map_append]
      congr 3
      · congr 2
        omega
      · omega

section

variable (page : 0 < pageSize) {seq : ExtendSeq}

include page

/-- The prefix ends inside of the old page. -/
theorem old_page {position : ℕ} (start : seq.prefixLen ≤ position)
    (old : position < numPages pageSize seq.prefixLen * pageSize) :
    seq.prefixLen % pageSize ≠ 0 ∧ position - seq.prefixLen + seq.prefixLen % pageSize < pageSize := by
  have split := Nat.div_add_mod seq.prefixLen pageSize
  have small := Nat.mod_lt seq.prefixLen page
  rw [Nat.mul_comm] at split
  have partly : seq.prefixLen % pageSize ≠ 0 := by
    intro none
    rw [none, Nat.add_zero] at split
    rw [← split, numPages_mul page] at old
    omega
  have pages := numPages_mul_add (seq.prefixLen / pageSize) (Nat.pos_of_ne_zero partly) small.le
  rw [split] at pages
  rw [pages, Nat.succ_mul] at old
  exact ⟨partly, by omega⟩

/-- In the old page the slots follow the last one, at the offsets of their positions. -/
theorem slotAt_old {loc position : ℕ} {pages : List ℕ} (last : seq.lastLoc = loc)
    (fits : (loc + 1) % pageSize = seq.prefixLen % pageSize) (start : seq.prefixLen ≤ position)
    (old : position < numPages pageSize seq.prefixLen * pageSize) :
    seq.slotAt pageSize pages position / pageSize = loc / pageSize ∧
      seq.slotAt pageSize pages position % pageSize = position % pageSize ∧
      loc < seq.slotAt pageSize pages position := by
  -- both the prefix and the last slot end inside a page, at the same offset
  obtain ⟨partly, inside⟩ := old_page page start old
  obtain ⟨offset, rfl⟩ := Nat.exists_eq_add_of_le start
  have slot : seq.slotAt pageSize pages (seq.prefixLen + offset) = loc + 1 + offset := by
    rw [slotAt, if_pos old, last, Nat.add_sub_cancel_left]
    omega
  have here := Nat.div_add_mod (loc + 1) pageSize
  rw [slot]
  generalize (loc + 1) / pageSize = number at here
  refine ⟨?_, ?_, by omega⟩
  · rw [show loc + 1 + offset = pageSize * number + (seq.prefixLen % pageSize + offset) by omega,
      show loc = pageSize * number + (seq.prefixLen % pageSize - 1) by omega, Nat.mul_add_div page,
      Nat.mul_add_div page, Nat.div_eq_of_lt (by omega), Nat.div_eq_of_lt (by omega)]
  · rw [Nat.add_mod, fits, ← Nat.add_mod]

/-- In the new pages every position has its own page and offset. -/
theorem slotAt_new {position : ℕ} {pages : List ℕ} (new : numPages pageSize seq.prefixLen * pageSize ≤ position) :
    seq.slotAt pageSize pages position / pageSize =
        pages.getD (position / pageSize - numPages pageSize seq.prefixLen) 0 ∧
      seq.slotAt pageSize pages position % pageSize = position % pageSize := by
  rw [slotAt, if_neg (by omega)]
  exact KvServer.freshSlot_page page _ position

theorem newPage_lt {position : ℕ} (inside : position < seq.seqLen)
    (new : numPages pageSize seq.prefixLen * pageSize ≤ position) :
    position / pageSize - numPages pageSize seq.prefixLen < seq.numNewPages pageSize := by
  have := div_lt_numPages page inside
  have := (Nat.le_div_iff_mul_le page).mpr new
  rw [numNewPages]
  omega

end

end ExtendSeq

/-! ## A batch -/

section Batch

variable {seqs : List ExtendSeq} {pages : List ℕ}

section

variable (page : 0 < pageSize) (grows : ∀ seq ∈ seqs, seq.prefixLen ≤ seq.seqLen)

include page grows

private theorem length_allocExtendKernel : (allocExtendKernel pageSize seqs pages).length = extendNumTokens seqs := by
  induction seqs generalizing pages with
  | nil => rfl
  | cons seq seqs ih =>
    rw [allocExtendKernel, length_append, ih (forall_mem_cons.mp grows).2,
      seq.outIndices_eq page (grows seq (mem_cons_self ..)), length_map, positions, length_range']
    rfl

variable {translate : ℤ → ℤ} {swaPages : List ℕ}

/-- Two pools that run a batch with different last slots take pages at the same places. -/
theorem exists_of_mem_zip_kernel {pair : ℕ × ℕ}
    (mem : pair ∈ (allocExtendKernel pageSize seqs pages).zip
      (allocExtendKernel pageSize (seqs.map fun seq => { seq with lastLoc := translate seq.lastLoc }) swaPages)) :
    ∃ seq ∈ seqs, ∃ start, start + seq.numNewPages pageSize ≤ extendNumNewPages pageSize seqs ∧
      ∃ position ∈ seq.positions, pair = (seq.slotAt pageSize (pages.drop start) position,
        { seq with lastLoc := translate seq.lastLoc }.slotAt pageSize (swaPages.drop start) position) := by
  induction seqs generalizing pages swaPages with
  | nil => exact absurd mem not_mem_nil
  | cons seq seqs ih =>
    have total : extendNumNewPages pageSize (seq :: seqs) =
        seq.numNewPages pageSize + extendNumNewPages pageSize seqs := rfl
    have increasing := grows seq (mem_cons_self ..)
    rw [map_cons, allocExtendKernel, allocExtendKernel, seq.outIndices_eq page increasing,
      outIndices_eq page { seq with lastLoc := translate seq.lastLoc } increasing,
      zip_append (by rw [length_map, length_map]; rfl), mem_append] at mem
    rcases mem with mem | mem
    · change pair ∈ (seq.positions.map _).zip (seq.positions.map _) at mem
      rw [zip_map', mem_map] at mem
      obtain ⟨position, inside, rfl⟩ := mem
      exact ⟨seq, mem_cons_self .., 0, by omega, position, inside, rfl⟩
    · obtain ⟨other, among, start, share, position, inside, is⟩ :=
        ih (forall_mem_cons.mp grows).2 mem
      refine ⟨other, mem_cons_of_mem _ among, seq.numNewPages pageSize + start, by omega, position, inside, ?_⟩
      rw [is, drop_drop, drop_drop]
      rfl

/-- Every slot of the first pool is paired with one of the second. -/
theorem map_fst_zip_kernel :
    ((allocExtendKernel pageSize seqs pages).zip (allocExtendKernel pageSize
      (seqs.map fun seq => { seq with lastLoc := translate seq.lastLoc }) swaPages)).map Prod.fst =
      allocExtendKernel pageSize seqs pages := by
  apply map_fst_zip
  rw [length_allocExtendKernel page grows, length_allocExtendKernel page, extendNumTokens, extendNumTokens, foldr_map]
  intro seq mem
  obtain ⟨original, among, rfl⟩ := mem_map.mp mem
  exact grows original among

end

/-- A fresh sequence fills its pages in order. -/
theorem allocExtendKernel_fresh (page : 0 < pageSize) (len : ℕ) :
    allocExtendKernel pageSize [⟨0, len, -1⟩] pages = (List.range len).map fun position =>
      pages.getD (position / pageSize) 0 * pageSize + position % pageSize := by
  rw [allocExtendKernel, allocExtendKernel, append_nil, outIndices_eq page _ (Nat.zero_le _),
    positions, range_eq_range']
  refine map_congr_left fun position _ => ?_
  simp [slotAt, numPages_zero page]

/-- Every sequence takes at most one page more than its tokens fill. -/
theorem extendNumNewPages_le (page : 0 < pageSize) (grows : ∀ seq ∈ seqs, seq.prefixLen ≤ seq.seqLen) :
    extendNumNewPages pageSize seqs ≤ extendNumTokens seqs / pageSize + seqs.length := by
  have total : extendNumNewPages pageSize seqs * pageSize ≤ extendNumTokens seqs + seqs.length * (pageSize - 1) := by
    induction seqs with
    | nil => simp [extendNumNewPages]
    | cons seq seqs ih =>
      have rest := ih (forall_mem_cons.mp grows).2
      have increasing := grows seq (mem_cons_self ..)
      have after := numPages_mul_lt page seq.seqLen
      have before := le_numPages_mul page seq.prefixLen
      have here : seq.numNewPages pageSize * pageSize ≤ seq.seqLen - seq.prefixLen + (pageSize - 1) := by
        rw [numNewPages, Nat.sub_mul]
        omega
      change (seq.numNewPages pageSize + extendNumNewPages pageSize seqs) * pageSize ≤
        seq.seqLen - seq.prefixLen + extendNumTokens seqs + (seqs.length + 1) * (pageSize - 1)
      rw [Nat.add_mul, Nat.succ_mul]
      omega
  have fewer : seqs.length * (pageSize - 1) ≤ seqs.length * pageSize := Nat.mul_le_mul_left _ (Nat.sub_le ..)
  rw [← Nat.add_mul_div_right _ _ page, Nat.le_div_iff_mul_le page]
  omega

/-- The pages of a batch do not depend on its last slots. -/
theorem extendNumNewPages_map (translate : ℤ → ℤ) :
    extendNumNewPages pageSize (seqs.map fun seq => { seq with lastLoc := translate seq.lastLoc }) =
      extendNumNewPages pageSize seqs := by
  rw [extendNumNewPages, foldr_map]
  rfl

theorem extendNumNewPages_fresh (page : 0 < pageSize) (len : ℕ) :
    extendNumNewPages pageSize [⟨0, len, -1⟩] = numPages pageSize len := by
  simp [extendNumNewPages, numNewPages, numPages_zero page]

end Batch

/-! ## Decoding -/

namespace DecodeSeq

/-- A decode step extends its sequence by one token. -/
def toExtend (seq : DecodeSeq) : ExtendSeq := ⟨seq.seqLen - 1, seq.seqLen, seq.lastLoc⟩

private theorem outIndices_toExtend (page : 0 < pageSize) (seq : DecodeSeq) (positive : 0 < seq.seqLen)
    (pages : List ℕ) : seq.toExtend.outIndices pageSize pages = [seq.outIndex pageSize pages] := by
  rw [outIndices_eq page _ (Nat.sub_le ..), positions, toExtend]
  have one : seq.seqLen - (seq.seqLen - 1) = 1 := by omega
  simp only [one, range'_one, map_cons, map_nil, slotAt, outIndex, Nat.sub_self, Nat.cast_zero,
    add_zero]
  have above := le_numPages_mul page (seq.seqLen - 1)
  by_cases room : seq.seqLen - 1 < numPages pageSize (seq.seqLen - 1) * pageSize
  · have : numPages pageSize seq.seqLen ≤ numPages pageSize (seq.seqLen - 1) := (numPages_le_iff page).mpr (by omega)
    rw [if_pos room, if_pos (by rw [numNewPages]; omega)]
  · have full : seq.seqLen - 1 = numPages pageSize (seq.seqLen - 1) * pageSize := by omega
    have : numPages pageSize (seq.seqLen - 1) < numPages pageSize seq.seqLen := (lt_numPages_iff page).mpr (by omega)
    rw [if_neg room, if_neg (by rw [numNewPages]; omega)]
    generalize numPages pageSize (seq.seqLen - 1) = old at full
    rw [full, Nat.mul_mod_left, Nat.mul_div_cancel _ page, Nat.sub_self, Nat.add_zero]

theorem allocDecodeKernel_eq (page : 0 < pageSize) {seqs : List DecodeSeq} (positive : ∀ seq ∈ seqs, 0 < seq.seqLen)
    {pages : List ℕ} :
    allocDecodeKernel pageSize seqs pages = allocExtendKernel pageSize (seqs.map toExtend) pages := by
  induction seqs generalizing pages with
  | nil => rfl
  | cons seq seqs ih =>
    rw [allocDecodeKernel, map_cons, allocExtendKernel, seq.outIndices_toExtend page (positive seq (mem_cons_self ..)),
      singleton_append, ih (forall_mem_cons.mp positive).2]
    rfl

/-- A page is begun after a whole number of pages. -/
theorem newPage_iff (page : 1 < pageSize) (seq : DecodeSeq) (positive : 0 < seq.seqLen) :
    (if seq.seqLen % pageSize = 1 then 1 else 0) = seq.toExtend.numNewPages pageSize := by
  have some : 0 < pageSize := by omega
  obtain ⟨before, is⟩ := Nat.exists_eq_succ_of_ne_zero positive.ne'
  have split := Nat.div_add_mod before pageSize
  have small := Nat.mod_lt before some
  change _ = numPages pageSize seq.seqLen - numPages pageSize (seq.seqLen - 1)
  rw [is, Nat.succ_eq_add_one, Nat.add_sub_cancel, ← split, Nat.mul_comm, Nat.add_assoc, Nat.mul_add_mod_self_right,
    numPages_mul_add _ (Nat.succ_pos _) small]
  generalize before / pageSize = whole
  generalize before % pageSize = rest at small
  cases rest with
  | zero => rw [Nat.add_zero (whole * pageSize), numPages_mul some, if_pos (Nat.mod_eq_of_lt page),
    Nat.add_sub_cancel_left]
  | succ rest =>
    rw [numPages_mul_add _ (Nat.succ_pos _) small.le, Nat.sub_self, if_neg]
    rcases Nat.lt_or_ge (rest + 1 + 1) pageSize with fits | ends
    · rw [Nat.mod_eq_of_lt fits]
      omega
    · rw [show rest + 1 + 1 = pageSize by omega, Nat.mod_self]
      exact Nat.zero_ne_one

/-- Both ways of counting the new pages of a decode batch agree. -/
theorem decodeNumNewPages_eq (page : 1 < pageSize) {seqs : List DecodeSeq} (positive : ∀ seq ∈ seqs, 0 < seq.seqLen) :
    decodeNumNewPages pageSize seqs = extendNumNewPages pageSize (seqs.map toExtend) := by
  induction seqs with
  | nil => rfl
  | cons seq seqs ih =>
    have rest := ih (forall_mem_cons.mp positive).2
    have grows := positive seq (mem_cons_self ..)
    have here : (if seq.seqLen % pageSize = 1 then 1 else 0) = seq.toExtend.numNewPages pageSize :=
      seq.newPage_iff page grows
    unfold decodeNumNewPages extendNumNewPages at rest ⊢
    rw [map_cons, foldr_cons, foldr_cons, rest, here]

end DecodeSeq

end FlashMemory
