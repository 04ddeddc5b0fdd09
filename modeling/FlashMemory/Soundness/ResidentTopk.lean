import FlashMemory.Model.Indexer
import FlashMemory.Soundness.CapturerSteps
import Mathlib.Order.Interval.Finset.Nat
import Mathlib.Tactic.Linarith
import Mathlib.Tactic.NormNum

/-! # The selection among the resident chunks

The count that a row publishes covers whole pages, so the columns of a partial last page that lie beyond the
history compete with the real ones. Where they are chosen, the row buffer holds `-1`, and a real chunk less
is attended. With at most 512 columns all of them are chosen and nothing is lost. With more, the selection is
exact whatever the kernel does with ties if and only if every such column is outscored by 512 real ones.
-/

namespace FlashMemory

open List Capturer

/-! ## The columns of a row -/

/-- Different pages of the history. -/
structure PagesWithin (nBlk : ℕ) (topLogical : List ℕ) : Prop where
  distinct : topLogical.Nodup
  within : ∀ page ∈ topLogical, page < pagesOf nBlk

section

variable (kernel : TopkKernel (WithTop ℕ)) (window : KeepWindow) (thr : ℕ → Bool)

include kernel window thr

theorem isTopk_selectResidentPages (pageKmax nBlk : ℕ) : IsTopk (pageScore window thr nBlk) (pagesOf nBlk)
    (min pageKmax (pagesOf nBlk)) (selectResidentPages kernel window thr pageKmax nBlk) := by
  have topk := kernel.spec (pageScore window thr nBlk) (pagesOf nBlk) _ (min_le_right pageKmax _)
  refine ⟨(mergeSort_perm _ _).nodup_iff.mpr topk.distinct, ?_, (length_mergeSort _).trans topk.size, ?_⟩
  · exact fun page mem => topk.inRange page (mem_mergeSort.mp mem)
  · exact fun page mem other within left =>
      topk.top page (mem_mergeSort.mp mem) other within fun picked => left (mem_mergeSort.mpr picked)

theorem selectResidentPages_within (pageKmax nBlk : ℕ) :
    PagesWithin nBlk (selectResidentPages kernel window thr pageKmax nBlk) :=
  have topk := isTopk_selectResidentPages kernel window thr pageKmax nBlk
  ⟨topk.distinct, topk.inRange⟩

theorem selectResidentPages_length (pageKmax nBlk : ℕ) :
    (selectResidentPages kernel window thr pageKmax nBlk).length = min pageKmax (pagesOf nBlk) :=
  (isTopk_selectResidentPages kernel window thr pageKmax nBlk).size

/-- When there is room for all pages, all are chosen. -/
theorem selectResidentPages_all {pageKmax nBlk : ℕ} (room : pagesOf nBlk ≤ pageKmax) :
    selectResidentPages kernel window thr pageKmax nBlk = List.range (pagesOf nBlk) := by
  have pages := selectResidentPages_within kernel window thr pageKmax nBlk
  have size := selectResidentPages_length kernel window thr pageKmax nBlk
  have perm : (selectResidentPages kernel window thr pageKmax nBlk).Perm (List.range (pagesOf nBlk)) := by
    apply List.Subperm.perm_of_length_le
    · exact subperm_of_subset pages.distinct fun page mem => mem_range.mpr (pages.within page mem)
    · rw [length_range, size, Nat.min_eq_right room]
  have sorted : (selectResidentPages kernel window thr pageKmax nBlk).Pairwise (· ≤ ·) := by
    apply List.Pairwise.imp (fun {a b} le => of_decide_eq_true le)
    apply pairwise_mergeSort
    · intro a b c
      simpa using Nat.le_trans
    · intro a b
      simpa using Nat.le_total a b
  exact perm.eq_of_pairwise (fun a b _ _ => Nat.le_antisymm) sorted pairwise_le_range

end

section Columns

variable {topLogical : List ℕ} {nBlk col chunk : ℕ}

/-- The chunk of a column. -/
def chunkOf (topLogical : List ℕ) (col : ℕ) : ℕ :=
  topLogical.getD (col / c4PageSize) 0 * c4PageSize + col % c4PageSize

/-- The column of a chunk. -/
def colOf (topLogical : List ℕ) (chunk : ℕ) : ℕ :=
  topLogical.idxOf (chunk / c4PageSize) * c4PageSize + chunk % c4PageSize

/-- The columns of the history. -/
def realCols (topLogical : List ℕ) (nBlk : ℕ) : Finset ℕ :=
  (Finset.range (topLogical.length * c4PageSize)).filter (chunkOf topLogical · < nBlk)

/-- The real chunks of the chosen pages. -/
def residentChunks (topLogical : List ℕ) (nBlk : ℕ) : Finset ℕ :=
  (Finset.range nBlk).filter (· / c4PageSize ∈ topLogical)

theorem mem_realCols :
    col ∈ realCols topLogical nBlk ↔ col < topLogical.length * c4PageSize ∧ chunkOf topLogical col < nBlk := by
  rw [realCols, Finset.mem_filter, Finset.mem_range]

theorem mem_residentChunks :
    chunk ∈ residentChunks topLogical nBlk ↔ chunk < nBlk ∧ chunk / c4PageSize ∈ topLogical := by
  rw [residentChunks, Finset.mem_filter, Finset.mem_range]

theorem chunkOf_div : chunkOf topLogical col / c4PageSize = topLogical.getD (col / c4PageSize) 0 := by
  simp only [chunkOf, c4PageSize]
  omega

theorem chunkOf_mod : chunkOf topLogical col % c4PageSize = col % c4PageSize := by
  simp only [chunkOf, c4PageSize]
  omega

theorem block_lt (inRow : col < topLogical.length * c4PageSize) : col / c4PageSize < topLogical.length :=
  Nat.div_lt_of_lt_mul (Nat.mul_comm _ _ ▸ inRow)

theorem chunkOf_page_mem (inRow : col < topLogical.length * c4PageSize) :
    chunkOf topLogical col / c4PageSize ∈ topLogical := by
  rw [chunkOf_div, getD_eq_getElem _ _ (block_lt inRow)]
  exact getElem_mem _

theorem colOf_chunkOf (distinct : topLogical.Nodup) (inRow : col < topLogical.length * c4PageSize) :
    colOf topLogical (chunkOf topLogical col) = col := by
  rw [colOf, chunkOf_div, chunkOf_mod, getD_eq_getElem _ _ (block_lt inRow),
    distinct.idxOf_getElem _ (block_lt inRow)]
  exact Nat.div_add_mod' col c4PageSize

private theorem colOf_lt (mem : chunk / c4PageSize ∈ topLogical) :
    colOf topLogical chunk < topLogical.length * c4PageSize := by
  have block := idxOf_lt_length_iff.mpr mem
  have offset : chunk % c4PageSize < c4PageSize := Nat.mod_lt _ (by decide)
  simp only [colOf, c4PageSize] at *
  omega

theorem chunkOf_colOf (mem : chunk / c4PageSize ∈ topLogical) :
    chunkOf topLogical (colOf topLogical chunk) = chunk := by
  have block : colOf topLogical chunk / c4PageSize = topLogical.idxOf (chunk / c4PageSize) := by
    simp only [colOf, c4PageSize]
    omega
  have offset : colOf topLogical chunk % c4PageSize = chunk % c4PageSize := by
    simp only [colOf, c4PageSize]
    omega
  rw [chunkOf, block, offset, getD_eq_getElem _ _ (idxOf_lt_length_iff.mpr mem), getElem_idxOf]
  exact Nat.div_add_mod' chunk c4PageSize

theorem chunkOf_mem_residentChunks (real : col ∈ realCols topLogical nBlk) :
    chunkOf topLogical col ∈ residentChunks topLogical nBlk :=
  mem_residentChunks.mpr ⟨(mem_realCols.mp real).2, chunkOf_page_mem (mem_realCols.mp real).1⟩

theorem colOf_mem_realCols (resident : chunk ∈ residentChunks topLogical nBlk) :
    colOf topLogical chunk ∈ realCols topLogical nBlk := by
  obtain ⟨formed, mem⟩ := mem_residentChunks.mp resident
  exact mem_realCols.mpr ⟨colOf_lt mem, (chunkOf_colOf mem).symm ▸ formed⟩

theorem card_residentChunks (distinct : topLogical.Nodup) :
    (residentChunks topLogical nBlk).card = (realCols topLogical nBlk).card :=
  Finset.card_nbij' (colOf topLogical) (chunkOf topLogical) (fun _ => colOf_mem_realCols)
    (fun _ => chunkOf_mem_residentChunks) (fun _ resident => chunkOf_colOf (mem_residentChunks.mp resident).2)
    fun _ real => colOf_chunkOf distinct (mem_realCols.mp real).1

/-- Only the last page of the history can be partial, so a row has at most 63 columns beyond it. -/
theorem card_realCols (pages : PagesWithin nBlk topLogical) :
    topLogical.length * c4PageSize < (realCols topLogical nBlk).card + c4PageSize := by
  have phantoms : ((Finset.range (topLogical.length * c4PageSize)).filter (¬ chunkOf topLogical · < nBlk)).card ≤
      (Finset.Ico nBlk (pagesOf nBlk * c4PageSize)).card := by
    refine Finset.card_le_card_of_injOn (chunkOf topLogical) ?_ ?_
    · intro col mem
      obtain ⟨inRow, beyond⟩ := Finset.mem_filter.mp mem
      have page := pages.within _ (chunkOf_page_mem (Finset.mem_range.mp inRow))
      refine Finset.mem_coe.mpr (Finset.mem_Ico.mpr ⟨Nat.le_of_not_lt beyond, ?_⟩)
      exact (Nat.div_lt_iff_lt_mul (by decide)).mp page
    · intro col mem other mem' same
      have inRow := Finset.mem_range.mp (Finset.mem_filter.mp mem).1
      have inRow' := Finset.mem_range.mp (Finset.mem_filter.mp mem').1
      rw [← colOf_chunkOf pages.distinct inRow, ← colOf_chunkOf pages.distinct inRow', same]
  have split := Finset.card_filter_add_card_filter_not (s := Finset.range (topLogical.length * c4PageSize))
    (chunkOf topLogical · < nBlk)
  rw [Finset.card_range] at split
  rw [Nat.card_Ico] at phantoms
  rw [realCols]
  simp only [pagesOf, c4PageSize] at *
  omega

end Columns

/-! ## Exact selections -/

namespace Forward

variable {ccfg : CapturerConfig} {forward : Forward} {bi : ℕ} {topLogical : List ℕ} {logits : ℕ → ℚ}

/-- The location of a chunk, as `_select_resident_pages` computes it. -/
def chunkLoc (ccfg : CapturerConfig) (forward : Forward) (bi chunk : ℕ) : ℕ :=
  min (forward.physPage bi (chunk / c4PageSize)) (ccfg.c4LogicalSize / c4PageSize - 1) * c4PageSize +
    chunk % c4PageSize

/-- The pages of the history are different pages of the pool. -/
structure ValidPages (ccfg : CapturerConfig) (forward : Forward) (bi : ℕ) : Prop where
  distinct : ∀ page < pagesOf (forward.nBlk bi), ∀ other < pagesOf (forward.nBlk bi),
    forward.physPage bi page = forward.physPage bi other → page = other
  inPool : ∀ page < pagesOf (forward.nBlk bi), forward.physPage bi page < ccfg.c4LogicalSize / c4PageSize

/-- What is written are the 512 best real chunks, or all of them. -/
structure ExactTop (ccfg : CapturerConfig) (forward : Forward) (bi : ℕ) (topLogical : List ℕ) (logits : ℕ → ℚ)
    (written : List ℤ) : Prop where
  distinct : (written.filter (0 ≤ ·)).Nodup
  real : ∀ loc ∈ written, 0 ≤ loc →
    ∃ chunk ∈ residentChunks topLogical (forward.nBlk bi), loc = forward.chunkLoc ccfg bi chunk
  number : (written.filter (0 ≤ ·)).length = min sparseTopk (residentChunks topLogical (forward.nBlk bi)).card
  top : ∀ left ∈ residentChunks topLogical (forward.nBlk bi),
    ∀ chosen ∈ residentChunks topLogical (forward.nBlk bi), (forward.chunkLoc ccfg bi chosen : ℤ) ∈ written →
      (forward.chunkLoc ccfg bi left : ℤ) ∉ written →
      logits (colOf topLogical left) ≤ logits (colOf topLogical chosen)

theorem chunkLoc_inj (valid : forward.ValidPages ccfg bi) {chunk other : ℕ} (formed : chunk < forward.nBlk bi)
    (formed' : other < forward.nBlk bi) (same : forward.chunkLoc ccfg bi chunk = forward.chunkLoc ccfg bi other) :
    chunk = other := by
  have inHistory : ∀ {chunk}, chunk < forward.nBlk bi → chunk / c4PageSize < pagesOf (forward.nBlk bi) := by
    intro chunk formed
    simp only [pagesOf, c4PageSize]
    omega
  have page := valid.inPool _ (inHistory formed)
  have page' := valid.inPool _ (inHistory formed')
  have equal : forward.physPage bi (chunk / c4PageSize) = forward.physPage bi (other / c4PageSize) := by
    simp only [chunkLoc, c4PageSize] at same page page' ⊢
    omega
  have quotient := valid.distinct _ (inHistory formed) _ (inHistory formed') equal
  simp only [chunkLoc, c4PageSize] at same quotient
  omega

/-- The row buffer by column. -/
def rowLoc (ccfg : CapturerConfig) (forward : Forward) (bi : ℕ) (topLogical : List ℕ) (col : ℕ) : ℤ :=
  (forward.selectedLocs ccfg bi topLogical).getD col (-1)

theorem rowLoc_eq (col : ℕ) : forward.rowLoc ccfg bi topLogical col =
    if col ∈ realCols topLogical (forward.nBlk bi) then (forward.chunkLoc ccfg bi (chunkOf topLogical col) : ℤ)
    else -1 := by
  simp only [rowLoc, selectedLocs_getD, mem_realCols, chunkLoc, chunkOf_div, chunkOf_mod]
  rfl

theorem rowLoc_nonneg {col : ℕ} :
    0 ≤ forward.rowLoc ccfg bi topLogical col ↔ col ∈ realCols topLogical (forward.nBlk bi) := by
  rw [rowLoc_eq]
  split_ifs with real
  · simp [real]
  · simp [real]

private theorem rowLoc_inj (pages : PagesWithin (forward.nBlk bi) topLogical) (valid : forward.ValidPages ccfg bi)
    {col other : ℕ} (real : col ∈ realCols topLogical (forward.nBlk bi))
    (real' : other ∈ realCols topLogical (forward.nBlk bi))
    (same : forward.rowLoc ccfg bi topLogical col = forward.rowLoc ccfg bi topLogical other) : col = other := by
  rw [rowLoc_eq, rowLoc_eq, if_pos real, if_pos real'] at same
  obtain ⟨inRow, formed⟩ := mem_realCols.mp real
  obtain ⟨inRow', formed'⟩ := mem_realCols.mp real'
  rw [← colOf_chunkOf pages.distinct inRow, ← colOf_chunkOf pages.distinct inRow',
    chunkLoc_inj valid formed formed' (Int.ofNat_inj.mp same)]

theorem filter_written (cols : List ℕ) (pad : ℕ) :
    (cols.map (forward.rowLoc ccfg bi topLogical) ++ List.replicate pad (-1)).filter (0 ≤ ·) =
      (cols.filter (· ∈ realCols topLogical (forward.nBlk bi))).map (forward.rowLoc ccfg bi topLogical) := by
  have padding : (List.replicate pad (-1 : ℤ)).filter (0 ≤ ·) = [] := by
    rw [filter_eq_nil_iff]
    intro loc mem
    simp [eq_of_mem_replicate mem]
  rw [filter_append, padding, append_nil, filter_map]
  congr 1
  refine filter_congr fun col _ => ?_
  simp only [Function.comp_apply, rowLoc_nonneg]

/-- What a list of columns writes is exact when it has as many real columns as possible. -/
theorem exactTop_iff (pages : PagesWithin (forward.nBlk bi) topLogical) (valid : forward.ValidPages ccfg bi)
    {cols : List ℕ} (distinct : cols.Nodup) (pad : ℕ)
    (top : ∀ i ∈ cols, i ∈ realCols topLogical (forward.nBlk bi) →
      ∀ j ∈ realCols topLogical (forward.nBlk bi), j ∉ cols → logits j ≤ logits i) :
    forward.ExactTop ccfg bi topLogical logits
        (cols.map (forward.rowLoc ccfg bi topLogical) ++ List.replicate pad (-1)) ↔
      (cols.filter (· ∈ realCols topLogical (forward.nBlk bi))).length =
        min sparseTopk (realCols topLogical (forward.nBlk bi)).card := by
  have mem_written : ∀ chunk ∈ residentChunks topLogical (forward.nBlk bi),
      ((forward.chunkLoc ccfg bi chunk : ℤ) ∈ cols.map (forward.rowLoc ccfg bi topLogical) ++
        List.replicate pad (-1) ↔ colOf topLogical chunk ∈ cols) := by
    intro chunk resident
    have real := colOf_mem_realCols resident
    have loc : forward.rowLoc ccfg bi topLogical (colOf topLogical chunk) = forward.chunkLoc ccfg bi chunk := by
      rw [rowLoc_eq, if_pos real, chunkOf_colOf (mem_residentChunks.mp resident).2]
    constructor
    · intro mem
      rcases mem_append.mp mem with written | padding
      · obtain ⟨col, chosen, same⟩ := mem_map.mp written
        have real' : col ∈ realCols topLogical (forward.nBlk bi) :=
          rowLoc_nonneg.mp (by rw [same]; exact Int.natCast_nonneg _)
        exact rowLoc_inj pages valid real' real (same.trans loc.symm) ▸ chosen
      · exact absurd (eq_of_mem_replicate padding) (by omega)
    · intro chosen
      exact mem_append.mpr (Or.inl (mem_map.mpr ⟨_, chosen, loc⟩))
  constructor
  · intro exact
    have number := exact.number
    rwa [filter_written, length_map, card_residentChunks pages.distinct] at number
  · intro number
    refine ⟨?_, ?_, ?_, ?_⟩
    · rw [filter_written]
      refine (distinct.filter _).map_on fun col mem other mem' same => ?_
      exact rowLoc_inj pages valid (of_decide_eq_true (mem_filter.mp mem).2)
        (of_decide_eq_true (mem_filter.mp mem').2) same
    · intro loc mem nonneg
      rcases mem_append.mp mem with written | padding
      · obtain ⟨col, -, rfl⟩ := mem_map.mp written
        have real := rowLoc_nonneg.mp nonneg
        exact ⟨_, chunkOf_mem_residentChunks real, by rw [rowLoc_eq, if_pos real]⟩
      · exact absurd (eq_of_mem_replicate padding) (by omega)
    · rw [filter_written, length_map, card_residentChunks pages.distinct, number]
    · intro left resident chosen resident' written unwritten
      exact top _ ((mem_written chosen resident').mp written) (colOf_mem_realCols resident') _
        (colOf_mem_realCols resident) fun mem => unwritten ((mem_written left resident).mpr mem)

/-! ## What the indexer writes -/

section Written

variable {native : Bool} {kernel : TopkKernel (WithBot ℚ)} {buf : ℕ}

theorem negLogit_lt_negHalf : negLogit < negHalf := by
  rw [negLogit, negHalf, WithBot.coe_lt_coe]
  norm_num

/-- The score of a column beyond the count. -/
def maskedLogit (native : Bool) : WithBot ℚ := if native then ⊥ else negLogit

def maskedScores (native : Bool) (logits : ℕ → ℚ) (count col : ℕ) : WithBot ℚ :=
  if col < count then (logits col : WithBot ℚ) else maskedLogit native

/-- The columns that the indexer chooses. -/
def chosenCols (native : Bool) (kernel : TopkKernel (WithBot ℚ)) (logits : ℕ → ℚ) (buf count : ℕ) : List ℕ :=
  if native = true ∧ count ≤ sparseTopk then List.range sparseTopk
  else kernel.pick (maskedScores native logits count) buf (min sparseTopk buf)

/-- The custom path can tell the logits of the history from its sentinel. -/
def Visible (native : Bool) (topLogical : List ℕ) (nBlk : ℕ) (logits : ℕ → ℚ) : Prop :=
  native = false → ∀ col ∈ realCols topLogical nBlk, negHalf < (logits col : WithBot ℚ)

theorem maskedLogit_lt (visible : Visible native topLogical (forward.nBlk bi) logits) {col : ℕ}
    (real : col ∈ realCols topLogical (forward.nBlk bi)) : maskedLogit native < (logits col : WithBot ℚ) := by
  cases native with
  | true => exact WithBot.bot_lt_coe _
  | false => exact negLogit_lt_negHalf.trans (visible rfl col real)

theorem chosenCols_nodup (count : ℕ) : (chosenCols native kernel logits buf count).Nodup := by
  unfold chosenCols
  split_ifs
  · exact nodup_range
  · exact (kernel.spec _ _ _ (min_le_right sparseTopk buf)).distinct

theorem card_realCols_le (topLogical : List ℕ) (nBlk : ℕ) :
    (realCols topLogical nBlk).card ≤ topLogical.length * c4PageSize :=
  (Finset.card_filter_le _ _).trans_eq (Finset.card_range _)

/-- Every column beyond the history is outscored by 512 real ones, unless all columns are chosen. -/
def Outscored (topLogical : List ℕ) (nBlk : ℕ) (logits : ℕ → ℚ) : Prop :=
  topLogical.length * c4PageSize ≤ sparseTopk ∨
    ∀ col < topLogical.length * c4PageSize, col ∉ realCols topLogical nBlk →
      sparseTopk ≤ ((realCols topLogical nBlk).filter (logits col < logits ·)).card

section

variable (fits : topLogical.length * c4PageSize ≤ buf)

include fits

theorem residentIndices_eq (visible : Visible native topLogical (forward.nBlk bi) logits) :
    ∃ pad, residentIndices native kernel (fun col => (logits col : WithBot ℚ)) buf (topLogical.length * c4PageSize)
        (forward.rowLoc ccfg bi topLogical) =
      (chosenCols native kernel logits buf (topLogical.length * c4PageSize)).map
        (forward.rowLoc ccfg bi topLogical) ++ List.replicate pad (-1) := by
  have masked : ∀ col, col ∉ realCols topLogical (forward.nBlk bi) → forward.rowLoc ccfg bi topLogical col = -1 :=
    fun col phantom => by rw [rowLoc_eq, if_neg phantom]
  cases native with
  | true =>
    by_cases few : topLogical.length * c4PageSize ≤ sparseTopk
    · refine ⟨0, ?_⟩
      simp only [residentIndices, gatherNative, topkTransform512, chosenCols, few, and_self, if_true,
        map_map, replicate_zero, append_nil]
      apply map_congr_left
      intro col _
      by_cases inRow : col < topLogical.length * c4PageSize
      · simp only [Function.comp_apply, inRow, if_true, Int.natCast_nonneg, Int.toNat_natCast]
        rw [Nat.min_eq_left (by omega)]
      · rw [masked col fun real => inRow (mem_realCols.mp real).1]
        simp only [Function.comp_apply, inRow, if_false]
        rfl
    · refine ⟨sparseTopk - min sparseTopk buf, ?_⟩
      have topk := kernel.spec (maskedScores true logits (topLogical.length * c4PageSize)) buf _
        (min_le_right sparseTopk buf)
      simp only [residentIndices, gatherNative, topkTransform512, chosenCols, few, and_false, if_true, if_false,
        map_append, map_map, map_replicate, WithBot.coe_ne_bot]
      congr 1
      apply map_congr_left
      intro col mem
      have inRow := topk.inRange col mem
      simp only [Function.comp_apply, Int.natCast_nonneg, if_true, Int.toNat_natCast]
      rw [Nat.min_eq_left (by omega)]
  | false =>
    refine ⟨sparseTopk - min sparseTopk buf, ?_⟩
    simp only [residentIndices, rsCustomTopk, chosenCols, Bool.false_eq_true, false_and, if_false]
    congr 1
    apply map_congr_left
    intro col _
    split_ifs with inRow above above
    · rfl
    · exact (masked col fun real => above (visible rfl col real)).symm
    · exact absurd above negLogit_lt_negHalf.not_gt
    · exact (masked col fun real => inRow (mem_realCols.mp real).1).symm

/-- A chosen real column is at least as good as one that is left. -/
theorem chosenCols_top (i : ℕ) (chosen : i ∈ chosenCols native kernel logits buf (topLogical.length * c4PageSize))
    (real : i ∈ realCols topLogical (forward.nBlk bi)) (j : ℕ) (real' : j ∈ realCols topLogical (forward.nBlk bi))
    (left : j ∉ chosenCols native kernel logits buf (topLogical.length * c4PageSize)) : logits j ≤ logits i := by
  have inRow := (mem_realCols.mp real).1
  have inRow' := (mem_realCols.mp real').1
  unfold chosenCols at chosen left
  split_ifs at chosen left with all
  · exact absurd (mem_range.mpr (inRow'.trans_le all.2)) left
  · have topk := kernel.spec (maskedScores native logits (topLogical.length * c4PageSize)) buf _
      (min_le_right sparseTopk buf)
    have better := topk.top i chosen j (inRow'.trans_le fits) left
    rwa [maskedScores, maskedScores, if_pos inRow, if_pos inRow', WithBot.coe_le_coe] at better

/-- With few columns all real ones are chosen. -/
private theorem chosenCols_all (visible : Visible native topLogical (forward.nBlk bi) logits)
    (few : topLogical.length * c4PageSize ≤ sparseTopk) {col : ℕ} (real : col ∈ realCols topLogical (forward.nBlk bi)) :
    col ∈ chosenCols native kernel logits buf (topLogical.length * c4PageSize) := by
  have inRow := (mem_realCols.mp real).1
  unfold chosenCols
  split_ifs with all
  · exact mem_range.mpr (inRow.trans_le few)
  · have topk := kernel.spec (maskedScores native logits (topLogical.length * c4PageSize)) buf _
      (min_le_right sparseTopk buf)
    by_contra left
    -- Everything chosen scores at least as much as this column, so it lies below the count beside it.
    have below : (kernel.pick (maskedScores native logits (topLogical.length * c4PageSize)) buf
        (min sparseTopk buf)).toFinset ⊆ (Finset.range (topLogical.length * c4PageSize)).erase col := by
      intro i mem
      rw [mem_toFinset] at mem
      have better := topk.top i mem col (inRow.trans_le fits) left
      rw [maskedScores, maskedScores, if_pos inRow] at better
      apply Finset.mem_erase.mpr
      constructor
      · exact fun same => left (same ▸ mem)
      · by_contra beyond
        rw [if_neg (mt Finset.mem_range.mpr beyond)] at better
        exact absurd (maskedLogit_lt visible real) better.not_gt
    have fewer := Finset.card_le_card below
    rw [topk.card_toFinset, Finset.card_erase_of_mem (Finset.mem_range.mpr inRow), Finset.card_range] at fewer
    omega

/-- With many columns the selection is exact when nothing but real columns is chosen. -/
theorem exactTop_iff_only (pages : PagesWithin (forward.nBlk bi) topLogical) (valid : forward.ValidPages ccfg bi)
    (many : sparseTopk < topLogical.length * c4PageSize) (pad : ℕ) :
    forward.ExactTop ccfg bi topLogical logits
        ((chosenCols native kernel logits buf (topLogical.length * c4PageSize)).map
          (forward.rowLoc ccfg bi topLogical) ++ List.replicate pad (-1)) ↔
      ∀ i ∈ kernel.pick (maskedScores native logits (topLogical.length * c4PageSize)) buf sparseTopk,
        i ∈ realCols topLogical (forward.nBlk bi) := by
  have topk := kernel.spec (maskedScores native logits (topLogical.length * c4PageSize)) buf sparseTopk
    (many.le.trans fits)
  rw [exactTop_iff pages valid (chosenCols_nodup _) pad (chosenCols_top fits), chosenCols,
    if_neg fun all => absurd all.2 many.not_ge, Nat.min_eq_left (many.le.trans fits), topk.length_wanted_iff]
  have real := card_realCols pages
  apply or_iff_right
  intro all
  have fewer : (realCols topLogical (forward.nBlk bi)).card ≤ sparseTopk :=
    topk.card_toFinset ▸ Finset.card_le_card fun i mem => mem_toFinset.mpr (all i mem)
  simp only [c4PageSize, sparseTopk] at real many fewer
  omega

private theorem outscored_iff (visible : Visible native topLogical (forward.nBlk bi) logits)
    (pages : PagesWithin (forward.nBlk bi) topLogical) (many : sparseTopk < topLogical.length * c4PageSize) :
    (∀ col < buf, col ∉ realCols topLogical (forward.nBlk bi) → sparseTopk ≤
      ((realCols topLogical (forward.nBlk bi)).filter fun other =>
        maskedScores native logits (topLogical.length * c4PageSize) col <
          maskedScores native logits (topLogical.length * c4PageSize) other).card) ↔
      Outscored topLogical (forward.nBlk bi) logits := by
  have score : ∀ col ∈ realCols topLogical (forward.nBlk bi),
      maskedScores native logits (topLogical.length * c4PageSize) col = (logits col : WithBot ℚ) :=
    fun col real => if_pos (mem_realCols.mp real).1
  rw [Outscored, or_iff_right many.not_ge]
  constructor
  · intro outscored col inRow phantom
    apply (outscored col (inRow.trans_le fits) phantom).trans
    apply Finset.card_le_card
    intro other mem
    obtain ⟨real, above⟩ := Finset.mem_filter.mp mem
    rw [score other real, maskedScores, if_pos inRow, WithBot.coe_lt_coe] at above
    exact Finset.mem_filter.mpr ⟨real, above⟩
  · intro outscored col _ phantom
    by_cases inRow : col < topLogical.length * c4PageSize
    · apply (outscored col inRow phantom).trans
      apply Finset.card_le_card
      intro other mem
      obtain ⟨real, above⟩ := Finset.mem_filter.mp mem
      refine Finset.mem_filter.mpr ⟨real, ?_⟩
      rwa [score other real, maskedScores, if_pos inRow, WithBot.coe_lt_coe]
    · have all : (realCols topLogical (forward.nBlk bi)).filter (fun other =>
          maskedScores native logits (topLogical.length * c4PageSize) col <
            maskedScores native logits (topLogical.length * c4PageSize) other) =
          realCols topLogical (forward.nBlk bi) := by
        apply Finset.filter_true_of_mem
        intro other real
        rw [score other real, maskedScores, if_neg inRow]
        exact maskedLogit_lt visible real
      have real := card_realCols pages
      rw [all]
      simp only [c4PageSize, sparseTopk] at real many ⊢
      omega

end

end Written

/-- The indexer reads the row that `_select_resident_pages` wrote. -/
theorem forwardC4Indexer_selected (kernel : TopkKernel (WithBot ℚ)) (native : Bool) (rows : ℕ → List ℕ) (clid : ℕ)
    (scores : RowScores) :
    forwardC4Indexer ⟨true, true, native, false⟩ kernel (forward.selectedBuffers ccfg rows) clid bi scores =
      .ok (residentIndices native kernel scores.resident scores.buf ((rows bi).length * c4PageSize)
        (forward.rowLoc ccfg bi (rows bi))) := by
  simp only [forwardC4Indexer, Bool.and_false, Bool.false_eq_true, if_false]
  rfl

/-- Whatever the kernel does with ties, the selection is exact if and only if there are at most 512 columns or
every column beyond the history is outscored by 512 real ones. -/
theorem resident_selection_exact_iff (ccfg : CapturerConfig) (forward : Forward) (bi clid : ℕ)
    (pageKernel : TopkKernel (WithTop ℕ)) (window : KeepWindow) (thr : ℕ → ℕ → Bool) (native : Bool)
    (logits : ℕ → ℚ) (scores : RowScores) (valid : forward.ValidPages ccfg bi)
    (visible : Visible native (forward.selectedRows ccfg pageKernel window thr bi) (forward.nBlk bi) logits) :
    let rows := forward.selectedRows ccfg pageKernel window thr
    (∀ kernel, ∃ written, forwardC4Indexer ⟨true, true, native, false⟩ kernel (forward.selectedBuffers ccfg rows)
        clid bi { scores with
          resident := fun col => (logits col : WithBot ℚ)
          buf := ccfg.pageKmax * c4PageSize } = .ok written ∧
      forward.ExactTop ccfg bi (rows bi) logits written) ↔ Outscored (rows bi) (forward.nBlk bi) logits := by
  intro rows
  have pages : PagesWithin (forward.nBlk bi) (rows bi) := selectResidentPages_within ..
  have fits : (rows bi).length * c4PageSize ≤ ccfg.pageKmax * c4PageSize := by
    apply Nat.mul_le_mul_right
    exact (selectResidentPages_length ..).trans_le (min_le_left _ _)
  simp only [forwardC4Indexer_selected, Except.ok.injEq, exists_eq_left']
  rcases le_or_gt ((rows bi).length * c4PageSize) sparseTopk with few | many
  · apply iff_of_true _ (Or.inl few)
    intro kernel
    obtain ⟨pad, written⟩ := @residentIndices_eq ccfg _ _ _ _ _ kernel _ fits visible
    rw [written, exactTop_iff pages valid (chosenCols_nodup _) pad (chosenCols_top fits)]
    exact length_filter_all (chosenCols_nodup _) (fun _ => chosenCols_all fits visible few)
      ((card_realCols_le _ _).trans few)
  · rw [← outscored_iff fits visible pages many, ← pick_subset_iff (many.le.trans fits) fun j real =>
      (mem_realCols.mp real).1.trans_le fits]
    apply forall_congr'
    intro kernel
    obtain ⟨pad, written⟩ := @residentIndices_eq ccfg _ _ _ _ _ kernel _ fits visible
    rw [written, exactTop_iff_only fits pages valid many]

/-- A request of 513 chunks, so that its ninth page has one. -/
def partialPage : Forward where
  c4SeqLens := [513]
  pageTable := [List.range 9]
  topLogical _ := none

def ninePages : CapturerConfig := { ResidentServer.smallCapturer with c4LogicalSize := 576, pageKmax := 9 }

theorem partialPage_valid : partialPage.ValidPages ninePages 0 := by
  have page : ∀ page < 9, partialPage.physPage 0 page = page := by decide
  constructor
  · intro first inPages second inPages' same
    rwa [page first inPages, page second inPages'] at same
  · intro first inPages
    rw [page first inPages]
    exact inPages

theorem partialPage_rows (kernel : TopkKernel (WithTop ℕ)) (window : KeepWindow) (thr : ℕ → ℕ → Bool) :
    partialPage.selectedRows ninePages kernel window thr 0 = List.range 9 :=
  selectResidentPages_all kernel window (thr 0) (by decide)

theorem partialPage_realCols : realCols (List.range 9) (partialPage.nBlk 0) = Finset.range 513 := by
  ext col
  rw [mem_realCols, Finset.mem_range, length_range]
  show col < 9 * 64 ∧ chunkOf (List.range 9) col < 513 ↔ _
  have identity : col < 9 * 64 → chunkOf (List.range 9) col = col := by
    intro inRow
    have block : col / c4PageSize < (List.range 9).length := by
      rw [length_range]
      exact Nat.div_lt_of_lt_mul inRow
    rw [chunkOf, getD_eq_getElem _ _ block, getElem_range]
    exact Nat.div_add_mod' col c4PageSize
  constructor
  · rintro ⟨inRow, formed⟩
    rwa [identity inRow] at formed
  · intro formed
    rw [identity (by omega)]
    omega

/-- The decode step of this request with given logits. -/
def partialScores (logits : ℕ → ℚ) : RowScores where
  resident col := (logits col : WithBot ℚ)
  buf := 9 * c4PageSize
  history _ := ⊥
  width := 0
  c4SeqLen := 513
  pageTable := id

/-- The later a column, the lower its logit: the columns beyond the history lose. -/
theorem resident_selection_exact_on_falling :
    let logits : ℕ → ℚ := fun col => -col
    let rows := partialPage.selectedRows ninePages (.preferring fun _ => false) ⟨0, 0⟩ fun _ _ => false
    partialPage.ValidPages ninePages 0 ∧ Visible false (rows 0) 513 logits ∧ Outscored (rows 0) 513 logits ∧
      ∀ kernel, ∃ written, forwardC4Indexer ⟨true, true, false, false⟩ kernel
          (partialPage.selectedBuffers ninePages rows) 0 0 (partialScores logits) = .ok written ∧
        partialPage.ExactTop ninePages 0 (rows 0) logits written := by
  intro logits rows
  have all : rows 0 = List.range 9 := partialPage_rows ..
  have real : realCols (rows 0) 513 = Finset.range 513 := all ▸ partialPage_realCols
  have visible : Visible false (rows 0) 513 logits := by
    intro _ col member
    rw [real, Finset.mem_range] at member
    have bound : (col : ℚ) < 513 := by exact_mod_cast member
    rw [negHalf, WithBot.coe_lt_coe]
    show _ < -(col : ℚ)
    linarith
  have outscored : Outscored (rows 0) 513 logits := by
    right
    intro col _ phantom
    rw [real, Finset.mem_range, not_lt] at phantom
    have every : (realCols (rows 0) 513).filter (logits col < logits ·) = Finset.range 513 := by
      rw [real]
      apply Finset.filter_true_of_mem
      intro other member
      have less : other < col := (Finset.mem_range.mp member).trans_le phantom
      exact neg_lt_neg (by exact_mod_cast less)
    rw [every, Finset.card_range]
    decide
  refine ⟨partialPage_valid, visible, outscored, ?_⟩
  exact (resident_selection_exact_iff ninePages partialPage 0 0 (.preferring fun _ => false) ⟨0, 0⟩
    (fun _ _ => false) false logits (partialScores logits) partialPage_valid visible).mpr outscored

/-- The later a column, the higher its logit: 63 columns beyond the history are chosen, on either path and
whatever the kernels do. -/
theorem phantom_columns_are_chosen :
    let logits : ℕ → ℚ := fun col => col
    ∀ (native : Bool) (pageKernel : TopkKernel (WithTop ℕ)) (window : KeepWindow) (thr : ℕ → ℕ → Bool)
      (kernel : TopkKernel (WithBot ℚ)),
      let rows := partialPage.selectedRows ninePages pageKernel window thr
      ¬ ∃ written, forwardC4Indexer ⟨true, true, native, false⟩ kernel (partialPage.selectedBuffers ninePages rows) 0 0
          (partialScores logits) = .ok written ∧ partialPage.ExactTop ninePages 0 (rows 0) logits written := by
  intro logits native pageKernel window thr kernel rows
  have all : rows 0 = List.range 9 := partialPage_rows ..
  have pages : PagesWithin (partialPage.nBlk 0) (rows 0) := selectResidentPages_within ..
  have size : (rows 0).length * c4PageSize = 576 := by rw [all]; rfl
  have visible : Visible native (rows 0) (partialPage.nBlk 0) logits := by
    intro _ col _
    rw [negHalf, WithBot.coe_lt_coe]
    have nonneg : (0 : ℚ) ≤ col := Nat.cast_nonneg col
    show _ < (col : ℚ)
    linarith
  have fits : (rows 0).length * c4PageSize ≤ 9 * c4PageSize := by rw [all]; rfl
  simp only [forwardC4Indexer_selected, Except.ok.injEq, exists_eq_left', partialScores]
  obtain ⟨pad, written⟩ := @residentIndices_eq ninePages _ _ _ _ _ kernel _ fits visible
  rw [written, exactTop_iff_only fits pages partialPage_valid (by rw [size]; decide)]
  intro only
  have topk := kernel.spec (maskedScores native logits ((rows 0).length * c4PageSize)) (9 * c4PageSize) sparseTopk
    (by decide)
  -- The last column has the best logit and lies beyond the history, so what is chosen in its place is none.
  have last : 575 ∉ kernel.pick (maskedScores native logits ((rows 0).length * c4PageSize)) (9 * c4PageSize)
      sparseTopk := by
    intro member
    have real := only 575 member
    rw [all, partialPage_realCols, Finset.mem_range] at real
    omega
  obtain ⟨first, member⟩ := exists_mem_of_length_pos (Nat.lt_of_lt_of_eq (by decide) topk.size.symm)
  have real := only first member
  rw [all, partialPage_realCols, Finset.mem_range] at real
  have better := topk.top first member 575 (by decide) last
  rw [maskedScores, maskedScores, if_pos (by omega), if_pos (by omega), WithBot.coe_le_coe] at better
  have order : 575 ≤ first := Nat.cast_le.mp (show ((575 : ℕ) : ℚ) ≤ first from better)
  omega

end Forward

end FlashMemory
