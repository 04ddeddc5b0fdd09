import FlashMemory.Model.MaskMode
import Mathlib.Data.List.Forall2

/-! # The masked selection

Among more than 512 chunks the masked logits confine the selection to the resident chunks, except that columns beyond
the history keep their logits. They compete with the masked ones when fewer than 512 chunks are resident, and the
validity test reads their logit. A history of at most 512 chunks is selected as a whole, and the mask has no effect on
it. -/

namespace FlashMemory

open List

variable {kernel : TopkKernel (WithBot ℚ)} {scores : ℕ → WithBot ℚ} {mask : ResidentMask} {row : HistoryRow}
  {pageSize width seqLen k : ℕ}

/-! ## Locations -/

theorem pageBits_two_pow : pageBits (2 ^ k) = k := by
  have positive := Nat.two_pow_pos k
  apply Nat.le_antisymm
  · exact Nat.size_le.mpr (Nat.sub_one_lt positive.ne')
  · cases k with
    | zero => exact Nat.zero_le _
    | succ bits =>
      apply Nat.lt_size.mpr
      have := Nat.two_pow_pos bits
      omega

/-- For a power of two the shifts are a division. -/
theorem shiftedLoc_two_pow (pageTable : List ℕ) (col : ℕ) :
    shiftedLoc (2 ^ k) pageTable col = pageTable.getD (col / 2 ^ k) 0 * 2 ^ k + col % 2 ^ k := by
  rw [shiftedLoc, pageBits_two_pow, Nat.shiftRight_eq_div_pow, Nat.and_two_pow_sub_one_eq_mod,
    ← Nat.shiftLeft_add_eq_or_of_lt (Nat.mod_lt _ (Nat.two_pow_pos k)), Nat.shiftLeft_eq]

namespace HistoryRow

def location (row : HistoryRow) (pageSize chunk : ℕ) :
    ℕ := row.pageTable.getD (chunk / pageSize) 0 * pageSize + chunk % pageSize

def ResidentChunk (row : HistoryRow) (mask : ResidentMask) (pageSize chunk : ℕ) : Prop :=
  mask.residentChunkMask (min (row.location pageSize chunk) mask.c4LogicalSize) = true

instance (row : HistoryRow) (mask : ResidentMask) (pageSize chunk : ℕ) :
    Decidable (row.ResidentChunk mask pageSize chunk) :=
  inferInstanceAs (Decidable (_ = _))

def residents (row : HistoryRow) (mask : ResidentMask) (pageSize : ℕ) : Finset ℕ :=
  (Finset.range row.seqLen).filter (row.ResidentChunk mask pageSize)

theorem mem_residents {chunk : ℕ} :
    chunk ∈ row.residents mask pageSize ↔ chunk < row.seqLen ∧ row.ResidentChunk mask pageSize chunk := by
  rw [residents, Finset.mem_filter, Finset.mem_range]

/-- The chunks of the history have finite logits, and the page table covers all columns. -/
structure Readable (row : HistoryRow) (pageSize width : ℕ) : Prop where
  wide : 0 < width
  inside : row.seqLen ≤ width
  covered : width ≤ row.pageTable.length * pageSize
  finite : ∀ chunk < row.seqLen, row.logits chunk ≠ ⊥

/-- A short history is resident as a whole. In a long one enough chunks are resident, or the padding has no finite
logits. -/
def MaskApplies (row : HistoryRow) (mask : ResidentMask) (pageSize width : ℕ) : Prop :=
  if row.seqLen ≤ sparseTopk then ∀ chunk < row.seqLen, row.ResidentChunk mask pageSize chunk
  else sparseTopk ≤ (row.residents mask pageSize).card ∨ ∀ col < width, row.seqLen ≤ col → row.logits col = ⊥

/-- The selected columns are the best resident chunks, and as many as there can be. -/
structure Confined (mask : ResidentMask) (pageSize : ℕ) (row : HistoryRow) (out : List ℤ × List ℤ) : Prop where
  size : out.2.length = sparseTopk
  distinct : (out.2.filter (· ≠ -1)).Nodup
  resident : ∀ raw ∈ out.2, raw ≠ -1 → ∃ chunk < row.seqLen, raw = (chunk : ℕ) ∧ row.ResidentChunk mask pageSize chunk
  count : (out.2.filter (· ≠ -1)).length = min sparseTopk (row.residents mask pageSize).card
  best : ∀ chunk : ℕ, (chunk : ℤ) ∈ out.2 → ∀ other ∈ row.residents mask pageSize, (other : ℤ) ∉ out.2 →
    row.logits other ≤ row.logits chunk
  locations : out.1 = out.2.map fun raw => if raw = -1 then -1 else (row.location pageSize raw.toNat : ℤ)

theorem Readable.page_lt (readable : row.Readable pageSize width) {col : ℕ} (inside : col < width) :
    col / pageSize < row.pageTable.length :=
  Nat.div_lt_of_lt_mul (inside.trans_le (readable.covered.trans (Nat.mul_comm _ _).le))

theorem applyMaskInGraph_of_lt (readable : row.Readable pageSize width) {chunk : ℕ} (formed : chunk < row.seqLen) :
    row.applyMaskInGraph mask pageSize chunk =
      if row.ResidentChunk mask pageSize chunk then row.logits chunk else ⊥ := by
  have page := readable.page_lt (formed.trans_le readable.inside)
  simp only [applyMaskInGraph, Nat.min_eq_left (Nat.le_sub_one_of_lt page), formed, true_and,
    ← Bool.not_eq_true, ite_not]
  rfl

theorem applyMaskInGraph_of_le {col : ℕ} (padding : row.seqLen ≤ col) :
    row.applyMaskInGraph mask pageSize col = row.logits col := by
  simp only [applyMaskInGraph, padding.not_gt, false_and, if_false]

end HistoryRow

/-! ## The valid columns -/

/-- The columns of the valid entries. -/
def validCols (raw : List (ℤ × Bool)) :
    List ℕ := raw.filterMap fun entry => if entry.2 then some entry.1.toNat else none

/-- The columns of a short history are all valid. -/
theorem validCols_short (short : seqLen ≤ sparseTopk) :
    validCols (rawIndices kernel scores width seqLen) = (List.range sparseTopk).filter (· < seqLen) := by
  rw [validCols, rawIndices, if_pos short, filterMap_map, ← filterMap_eq_filter]
  congr 1
  funext col
  by_cases inside : col < seqLen <;> simp [inside, Option.guard]

private theorem rawIndices_long (long : sparseTopk < seqLen) (inside : seqLen ≤ width) :
    rawIndices kernel scores width seqLen =
      (kernel.pick (fun col => if col < seqLen then scores col else ⊥) width sparseTopk).map
        fun (col : ℕ) => ((col : ℤ), decide (scores col ≠ ⊥)) := by
  rw [rawIndices, if_neg long.not_ge]
  simp only [Nat.min_eq_left (long.le.trans inside), Nat.sub_self, replicate_zero, append_nil]

theorem validCols_long (long : sparseTopk < seqLen) (inside : seqLen ≤ width) :
    validCols (rawIndices kernel scores width seqLen) =
      (kernel.pick (fun col => if col < seqLen then scores col else ⊥) width sparseTopk).filter (scores · ≠ ⊥) := by
  rw [rawIndices_long long inside, validCols, filterMap_map, ← filterMap_eq_filter]
  rfl

theorem rawIndices_nonneg {entry : ℤ × Bool} (mem : entry ∈ rawIndices kernel scores width seqLen)
    (valid : entry.2 = true) : 0 ≤ entry.1 := by
  unfold rawIndices at mem
  split at mem
  · obtain ⟨col, -, rfl⟩ := mem_map.mp mem
    split at valid
    · simp [*]
    · cases valid
  · rcases mem_append.mp mem with picked | padding
    · obtain ⟨col, -, rfl⟩ := mem_map.mp picked
      exact Int.natCast_nonneg col
    · cases (mem_replicate.mp padding).2 ▸ valid

theorem rawIndices_length : (rawIndices kernel scores width seqLen).length = sparseTopk := by
  unfold rawIndices
  split
  · rw [length_map, length_range]
  · have size :=
      (kernel.spec (fun col => if col < seqLen then scores col else ⊥) width _ (min_le_right sparseTopk width)).size
    simp only [length_append, length_map, length_replicate, size]
    omega

/-- The columns whose pages are looked up are in the row. -/
theorem rawIndices_lt (wide : 0 < width) (inside : seqLen ≤ width) {entry : ℤ × Bool}
    (mem : entry ∈ rawIndices kernel scores width seqLen) : entry.1.toNat < width := by
  unfold rawIndices at mem
  split at mem
  · obtain ⟨col, -, rfl⟩ := mem_map.mp mem
    split
    · rename_i formed
      simpa using formed.trans_le inside
    · simpa using wide
  · have topk := kernel.spec (fun col => if col < seqLen then scores col else ⊥) width _ (min_le_right sparseTopk width)
    rcases mem_append.mp mem with picked | padding
    · obtain ⟨col, chosen, rfl⟩ := mem_map.mp picked
      simpa using topk.inRange col chosen
    · rw [(mem_replicate.mp padding).2]
      simpa using wide

/-- What a row writes has the valid columns, and `-1` elsewhere. -/
theorem filter_outRaw {raw : List (ℤ × Bool)} (nonneg : ∀ entry ∈ raw, entry.2 = true → 0 ≤ entry.1) :
    (raw.map fun entry => if entry.2 then entry.1 else -1).filter (· ≠ -1) = (validCols raw).map Nat.cast := by
  induction raw with
  | nil => rfl
  | cons entry rest ih =>
    have ih := ih (forall_mem_cons.mp nonneg).2
    obtain ⟨col, valid⟩ := entry
    cases valid with
    | false => simpa [validCols] using ih
    | true =>
      have natural : 0 ≤ col := nonneg _ mem_cons_self rfl
      have notPadding : col ≠ -1 := by omega
      simpa [validCols, notPadding, natural] using ih

/-! ## The columns are the best resident chunks -/

open HistoryRow

variable (readable : row.Readable pageSize width)

/-- The selected columns of a row. -/
def selectedCols (kernel : TopkKernel (WithBot ℚ)) (mask : ResidentMask) (pageSize width : ℕ) (row : HistoryRow) :
    List ℕ :=
  validCols (rawIndices kernel (row.applyMaskInGraph mask pageSize) width row.seqLen)

/-- The best wanted columns, and as many as there can be. -/
structure BestOf (wanted : Finset ℕ) (logits : ℕ → WithBot ℚ) (cols : List ℕ) : Prop where
  distinct : cols.Nodup
  subset : ∀ col ∈ cols, col ∈ wanted
  count : cols.length = min sparseTopk wanted.card
  best : ∀ col ∈ cols, ∀ other ∈ wanted, other ∉ cols → logits other ≤ logits col

/-- All chunks of a short history are selected. -/
private theorem selectedCols_short (short : row.seqLen ≤ sparseTopk)
    (all : ∀ chunk < row.seqLen, row.ResidentChunk mask pageSize chunk) :
    BestOf (row.residents mask pageSize) row.logits (selectedCols kernel mask pageSize width row) := by
  have cols : ∀ col, col ∈ selectedCols kernel mask pageSize width row ↔ col ∈ row.residents mask pageSize := by
    intro col
    rw [selectedCols, validCols_short short, mem_filter, mem_range, decide_eq_true_eq, mem_residents]
    exact ⟨fun both => ⟨both.2, all col both.2⟩, fun both => ⟨both.1.trans_le short, both.1⟩⟩
  have distinct : (selectedCols kernel mask pageSize width row).Nodup := by
    rw [selectedCols, validCols_short short]
    exact nodup_range.filter _
  have few : (row.residents mask pageSize).card ≤ sparseTopk :=
    ((Finset.card_filter_le _ _).trans_eq (Finset.card_range _)).trans short
  refine ⟨distinct, fun col => (cols col).mp, ?_, fun _ _ other mem left => absurd ((cols other).mpr mem) left⟩
  rw [Nat.min_eq_right few, ← toFinset_card_of_nodup distinct]
  congr 1
  ext col
  rw [mem_toFinset, cols]

include readable

/-- In a long history the logits that compete are those of the resident chunks. -/
theorem masked_eq : (fun col => if col < row.seqLen then row.applyMaskInGraph mask pageSize col else ⊥) =
    fun col => if col ∈ row.residents mask pageSize then row.logits col else ⊥ := by
  funext col
  by_cases formed : col < row.seqLen
  · rw [if_pos formed, applyMaskInGraph_of_lt readable formed]
    exact if_congr (by rw [mem_residents, and_iff_right formed]) rfl rfl
  · rw [if_neg formed, if_neg fun mem => formed (mem_residents.mp mem).1]

private theorem selectedCols_long (long : sparseTopk < row.seqLen)
    (applies : sparseTopk ≤ (row.residents mask pageSize).card ∨ ∀ col < width, row.seqLen ≤ col → row.logits col = ⊥) :
    BestOf (row.residents mask pageSize) row.logits (selectedCols kernel mask pageSize width row) := by
  have topk :=
    kernel.spec (fun col => if col < row.seqLen then row.applyMaskInGraph mask pageSize col else ⊥) width sparseTopk
      (long.le.trans readable.inside)
  have inRange : ∀ col ∈ row.residents mask pageSize, col < width :=
    fun col mem => (mem_residents.mp mem).1.trans_le readable.inside
  have better : ∀ col < width, col ∉ row.residents mask pageSize → ∀ chunk ∈ row.residents mask pageSize,
      (if col ∈ row.residents mask pageSize then row.logits col else ⊥) <
        if chunk ∈ row.residents mask pageSize then row.logits chunk else ⊥ := by
    intro col _ unwanted chunk mem
    rw [if_neg unwanted, if_pos mem]
    exact bot_lt_iff_ne_bot.mpr (readable.finite chunk (mem_residents.mp mem).1)
  rw [selectedCols, validCols_long long readable.inside]
  rw [masked_eq readable] at topk ⊢
  set chosen :=
    kernel.pick (fun col => if col ∈ row.residents mask pageSize then row.logits col else ⊥) width sparseTopk
  -- a column with a finite logit that is chosen is resident
  have valid : ∀ col ∈ chosen, row.applyMaskInGraph mask pageSize col ≠ ⊥ ↔ col ∈ row.residents mask pageSize := by
    intro col mem
    rcases Nat.lt_or_ge col row.seqLen with formed | padding
    · rw [applyMaskInGraph_of_lt readable formed, mem_residents, and_iff_right formed]
      by_cases resident : row.ResidentChunk mask pageSize col
      · simp [resident, readable.finite col formed]
      · simp [resident]
    · have unwanted : col ∉ row.residents mask pageSize := fun mem => (mem_residents.mp mem).1.not_ge padding
      rw [applyMaskInGraph_of_le padding, iff_false_right unwanted, not_not]
      rcases applies with enough | unscored
      · refine absurd mem (topk.not_mem_of_outscored inRange (enough.trans_eq ?_))
        rw [Finset.filter_true_of_mem fun chunk want => better col (topk.inRange col mem) unwanted chunk want]
      · exact unscored col (topk.inRange col mem) padding
  have cols : chosen.filter (row.applyMaskInGraph mask pageSize · ≠ ⊥) = chosen.filter
      (· ∈ row.residents mask pageSize) :=
    filter_congr fun col mem => decide_eq_decide.mpr (valid col mem)
  rw [cols]
  refine ⟨topk.distinct.filter _, fun col mem => of_decide_eq_true (mem_filter.mp mem).2,
    topk.length_wanted_of_better inRange better, ?_⟩
  intro col mem other want left
  obtain ⟨mem, isWanted⟩ := mem_filter.mp mem
  have score := topk.top col mem other (inRange other want) fun picked =>
    left (mem_filter.mpr ⟨picked, decide_eq_true want⟩)
  rwa [if_pos want, if_pos (of_decide_eq_true isWanted)] at score

theorem selectedCols_best (applies : row.MaskApplies mask pageSize width) :
    BestOf (row.residents mask pageSize) row.logits (selectedCols kernel mask pageSize width row) := by
  unfold MaskApplies at applies
  split_ifs at applies with short
  · exact selectedCols_short short applies
  · exact selectedCols_long readable (not_le.mp short) applies

/-- With too few resident chunks a padding column with a finite logit is selected if the kernel prefers it among equal
scores. -/
private theorem padding_selected (long : sparseTopk < row.seqLen)
    (few : (row.residents mask pageSize).card < sparseTopk)
    {col : ℕ} (inRow : col < width) (padding : row.seqLen ≤ col) (finite : row.logits col ≠ ⊥) :
    ∃ kernel, col ∈ selectedCols kernel mask pageSize width row := by
  let kernel : TopkKernel (WithBot ℚ) := .preferring (· = col)
  refine ⟨kernel, ?_⟩
  rw [selectedCols, validCols_long long readable.inside, mem_filter, decide_eq_true_eq, applyMaskInGraph_of_le padding,
    and_iff_left finite, masked_eq readable]
  set masked := fun col => if col ∈ row.residents mask pageSize then row.logits col else ⊥
  have topk := kernel.spec masked width sparseTopk (long.le.trans readable.inside)
  have unwanted : col ∉ row.residents mask pageSize := fun mem => (mem_residents.mp mem).1.not_ge padding
  by_contra left
  obtain ⟨other, chosen, nonResident⟩ : ∃ other ∈ kernel.pick masked width sparseTopk,
    other ∉ row.residents mask pageSize := by
    by_contra only
    push Not at only
    have fewer := Finset.card_le_card fun other mem => only other (mem_toFinset.mp mem)
    rw [topk.card_toFinset] at fewer
    exact few.not_ge fewer
  have before := rankedBefore_iff.mp (pickPreferred_before chosen inRow left)
  simp only [masked, if_neg unwanted, if_neg nonResident, lt_irrefl, decide_true, true_imp_iff, true_and, false_or,
    decide_eq_true_eq] at before
  exact left (before ▸ chosen)

omit readable

/-! ## The batch -/

/-- A row of which the page table covers all columns is written. -/
theorem topkTransformPages_returns (readable : row.Readable (2 ^ k) width) :
    topkTransformPages kernel (2 ^ k) row.pageTable scores width row.seqLen =
      some ((rawIndices kernel scores width row.seqLen).map fun entry =>
          if entry.2 then (row.location (2 ^ k) entry.1.toNat : ℤ) else -1,
        (rawIndices kernel scores width row.seqLen).map fun entry => if entry.2 then entry.1 else -1) := by
  have found : ∀ entry ∈ rawIndices kernel scores width row.seqLen,
      entry.1.toNat >>> pageBits (2 ^ k) < row.pageTable.length := by
    intro entry mem
    rw [pageBits_two_pow, Nat.shiftRight_eq_div_pow]
    exact readable.page_lt (rawIndices_lt readable.wide readable.inside mem)
  simp only [topkTransformPages, if_pos found, shiftedLoc_two_pow]
  rfl

/-- The entries of a row that are not `-1` are its valid columns. -/
theorem mem_outRaw {raw : List (ℤ × Bool)} (nonneg : ∀ entry ∈ raw, entry.2 = true → 0 ≤ entry.1) {entry : ℤ} :
    entry ∈ raw.map (fun entry => if entry.2 then entry.1 else -1) ∧ entry ≠ -1 ↔ ∃ col ∈ validCols raw,
    entry = (col : ℕ) := by
  have members := congrArg (entry ∈ ·) (filter_outRaw nonneg)
  simp only [mem_filter, mem_map, decide_eq_true_eq, eq_iff_iff] at members
  rw [mem_map, members]
  simp only [eq_comm]

private theorem confined_of_best (readable : row.Readable (2 ^ k) width)
    (best : BestOf (row.residents mask (2 ^ k)) row.logits (selectedCols kernel mask (2 ^ k) width row)) :
    ∃ out, topkTransformPages kernel (2 ^ k) row.pageTable (row.applyMaskInGraph mask (2 ^ k)) width row.seqLen =
      some out ∧ row.Confined mask (2 ^ k) out := by
  refine ⟨_, topkTransformPages_returns readable, ?_⟩
  set raw := rawIndices kernel (row.applyMaskInGraph mask (2 ^ k)) width row.seqLen with rawEq
  have nonneg : ∀ entry ∈ raw, entry.2 = true → 0 ≤ entry.1 := fun entry mem => rawIndices_nonneg mem
  have written : ∀ col : ℕ, (col : ℤ) ∈ raw.map (fun entry => if entry.2 then entry.1 else -1) ↔
      col ∈ selectedCols kernel mask (2 ^ k) width row := by
    intro col
    have natural : (col : ℤ) ≠ -1 := by omega
    rw [← and_iff_left natural (a := _ ∈ _), mem_outRaw nonneg]
    exact ⟨fun ⟨_, mem, same⟩ => Int.ofNat_inj.mp same ▸ mem, fun mem => ⟨col, mem, rfl⟩⟩
  constructor
  case size => rw [length_map, rawIndices_length]
  case distinct =>
    rw [filter_outRaw nonneg]
    exact best.distinct.map Nat.cast_injective
  case resident =>
    intro entry mem notPadding
    obtain ⟨col, selected, rfl⟩ := (mem_outRaw nonneg).mp ⟨mem, notPadding⟩
    obtain ⟨formed, resident⟩ := mem_residents.mp (best.subset col selected)
    exact ⟨col, formed, rfl, resident⟩
  case count =>
    rw [filter_outRaw nonneg, length_map]
    exact best.count
  case best =>
    intro col mem other want left
    exact best.best col ((written col).mp mem) other want fun selected => left ((written other).mpr selected)
  case locations =>
    rw [map_map]
    refine map_congr_left fun entry mem => ?_
    obtain ⟨col, valid⟩ := entry
    cases valid with
    | false => rfl
    | true =>
      have natural : 0 ≤ col := nonneg _ mem rfl
      have notPadding : col ≠ -1 := by omega
      simp [notPadding]

/-- Whatever a confined row selects is resident. -/
private theorem subset_of_confined (readable : row.Readable (2 ^ k) width) {out : List ℤ × List ℤ}
    (returns : topkTransformPages kernel (2 ^ k) row.pageTable (row.applyMaskInGraph mask (2 ^ k)) width row.seqLen =
      some out)
    (confined : row.Confined mask (2 ^ k) out) {col : ℕ} (selected : col ∈ selectedCols kernel mask (2 ^ k) width row) :
    col ∈ row.residents mask (2 ^ k) := by
  obtain rfl := Option.some.inj ((topkTransformPages_returns readable).symm.trans returns)
  obtain ⟨written, natural⟩ := (mem_outRaw fun _ mem => rawIndices_nonneg mem).mpr ⟨col, selected, rfl⟩
  obtain ⟨chunk, formed, same, resident⟩ := confined.resident _ written natural
  obtain rfl := Int.ofNat_inj.mp same
  exact mem_residents.mpr ⟨formed, resident⟩

/-- If no kernel selects anything else, the mask applies. -/
private theorem maskApplies_of_confined (readable : row.Readable (2 ^ k) width) (confined : ∀ kernel, ∃ out,
      topkTransformPages kernel (2 ^ k) row.pageTable (row.applyMaskInGraph mask (2 ^ k)) width row.seqLen = some out ∧
        row.Confined mask (2 ^ k) out) : row.MaskApplies mask (2 ^ k) width := by
  unfold MaskApplies
  split_ifs with short
  · intro chunk formed
    obtain ⟨out, returns, isConfined⟩ := confined (.preferring fun _ => false)
    refine (mem_residents.mp (subset_of_confined readable returns isConfined ?_)).2
    rw [selectedCols, validCols_short short, mem_filter, mem_range, decide_eq_true_eq]
    exact ⟨formed.trans_le short, formed⟩
  · by_contra! ⟨few, col, inRow, padding, finite⟩
    obtain ⟨kernel, selected⟩ := padding_selected readable (not_le.mp short) few inRow padding finite
    obtain ⟨out, returns, isConfined⟩ := confined kernel
    exact (mem_residents.mp (subset_of_confined readable returns isConfined selected)).1.not_ge padding

private theorem exists_mapM_iff {α β : Type} {f : α → Option β} {related : α → β → Prop} {items : List α} :
    (∃ outs, items.mapM f = some outs ∧ List.Forall₂ related items outs) ↔
      ∀ item ∈ items, ∃ out, f item = some out ∧ related item out := by
  induction items with
  | nil => simp
  | cons item items ih =>
    rw [forall_mem_cons, ← ih]
    constructor
    · rintro ⟨outs, returns, all⟩
      obtain _ | ⟨here, rest⟩ := all
      simp only [mapM_cons, Option.bind_eq_bind, Option.bind_eq_some_iff, Option.pure_def, Option.some.injEq,
        cons.injEq] at returns
      obtain ⟨_, isOut, _, isOuts, rfl, rfl⟩ := returns
      exact ⟨⟨_, isOut, here⟩, _, isOuts, rest⟩
    · rintro ⟨⟨out, isOut, here⟩, outs, isOuts, rest⟩
      exact ⟨out :: outs, by simp [mapM_cons, isOut, isOuts], .cons here rest⟩

/-- Each row of a batch selects its best resident chunks and writes their locations, whatever the kernel does with ties,
exactly if the mask applies to every row. -/
theorem maskedTopk_confined (mask : ResidentMask) (k width : ℕ) (batch : List HistoryRow)
    (readable : ∀ row ∈ batch, row.Readable (2 ^ k) width) :
    (∀ kernel, ∃ outs, maskedTopk kernel mask (2 ^ k) width batch = some outs ∧
        List.Forall₂ (Confined mask (2 ^ k)) batch outs) ↔ ∀ row ∈ batch, row.MaskApplies mask (2 ^ k) width := by
  unfold maskedTopk
  simp only [exists_mapM_iff]
  constructor
  · intro confined row mem
    exact maskApplies_of_confined (readable row mem) fun kernel => confined kernel row mem
  · intro applies kernel row mem
    exact confined_of_best (readable row mem) (selectedCols_best (readable row mem) (applies row mem))

/-- A history of two chunks in page three of a pool of four pages. -/
def twoChunks : HistoryRow := ⟨fun _ => (0 : ℚ), 2, [3]⟩

theorem maskedTopk_confined_on_twoChunks :
    ∃ outs, maskedTopk (.preferring fun _ => false) ⟨256, fun loc => 192 ≤ loc⟩ (2 ^ 6) 64 [twoChunks] = some outs ∧
      List.Forall₂ (Confined ⟨256, fun loc => 192 ≤ loc⟩ (2 ^ 6)) [twoChunks] outs := by
  apply (maskedTopk_confined ⟨256, fun loc => 192 ≤ loc⟩ 6 64 [twoChunks] _).mpr
  · rintro row (_ | ⟨_, ⟨⟩⟩)
    rw [MaskApplies, if_pos (by decide)]
    decide
  · rintro row (_ | ⟨_, ⟨⟩⟩)
    exact ⟨by decide, by decide, by decide, fun _ _ => WithBot.coe_ne_bot⟩

/-- A short history is selected although nothing of it is resident. -/
theorem short_history_unmasked :
    twoChunks.residents ⟨256, fun _ => false⟩ 64 = ∅ ∧ ∀ kernel : TopkKernel (WithBot ℚ),
      ∃ locations raw, maskedTopk kernel ⟨256, fun _ => false⟩ 64 64 [twoChunks] = some [(locations, raw)] ∧
        raw.take 3 = [0, 1, -1] ∧ locations.take 3 = [192, 193, -1] := by
  refine ⟨by decide, fun kernel => ?_⟩
  have readable : twoChunks.Readable (2 ^ 6) 64 := ⟨by decide, by decide, by decide, fun _ _ => WithBot.coe_ne_bot⟩
  have raw : ∀ scores, rawIndices kernel scores 64 twoChunks.seqLen = (List.range sparseTopk).map fun (col : ℕ) =>
      if col < 2 then ((col : ℤ), true) else (-1, false) := fun _ => if_pos (by decide)
  have batch : ∀ out, topkTransformPages kernel (2 ^ 6) twoChunks.pageTable
      (twoChunks.applyMaskInGraph ⟨256, fun _ => false⟩ (2 ^ 6)) 64 twoChunks.seqLen = some out →
      maskedTopk kernel ⟨256, fun _ => false⟩ (2 ^ 6) 64 [twoChunks] = some [out] := by
    intro out returns
    unfold maskedTopk
    rw [mapM_cons, returns]
    rfl
  have returns := batch _ (topkTransformPages_returns readable)
  rw [raw] at returns
  exact ⟨_, _, returns, by decide +kernel, by decide +kernel⟩

end FlashMemory
