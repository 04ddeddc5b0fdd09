import FlashMemory.Model.Indexer
import Mathlib.Data.Nat.Size

/-! # The mask mode

Without `SCORE_RESIDENT` the indexer scores the whole history. The logits of the chunks that are not resident become
minus infinity before the 512 best columns are chosen, and the page table turns the columns into locations.
-/

namespace FlashMemory

variable (kernel : TopkKernel (WithBot ℚ)) (pageSize : ℕ) (pageTable : List ℕ) (scores : ℕ → WithBot ℚ)

/-- What `apply_mask_in_graph` and `topk_transform_512_pytorch_vectorized` read of a row. -/
structure HistoryRow where
  logits : ℕ → WithBot ℚ
  seqLen : ℕ
  pageTable : List ℕ

/-- The capturer's mask, with one entry for each location of the pool and one that all other locations read. -/
structure ResidentMask where
  c4LogicalSize : ℕ
  residentChunkMask : ℕ → Bool

/-- `apply_mask_in_graph`. The page of a padding column may be outside the table, and it is clamped. -/
def HistoryRow.applyMaskInGraph (row : HistoryRow) (mask : ResidentMask) (pageSize j : ℕ) : WithBot ℚ :=
  let physPage := row.pageTable.getD (min (j / pageSize) (row.pageTable.length - 1)) 0
  let poolLoc := min (physPage * pageSize + j % pageSize) mask.c4LogicalSize
  if j < row.seqLen ∧ mask.residentChunkMask poolLoc = false then ⊥ else row.logits j

/-- `raw_indices` and `valid_topk` of a row before the locations are looked up. -/
def rawIndices (width seqLen : ℕ) : List (ℤ × Bool) :=
  if seqLen ≤ sparseTopk then
    (List.range sparseTopk).map fun (col : ℕ) => if col < seqLen then ((col : ℤ), true) else (-1, false)
  else
    let masked := fun col => if col < seqLen then scores col else ⊥
    let actualK := min sparseTopk width
    (kernel.pick masked width actualK).map (fun (col : ℕ) => ((col : ℤ), decide (scores col ≠ ⊥))) ++
      List.replicate (sparseTopk - actualK) (0, false)

/-- `(page_size - 1).bit_length()`, which is zero for pages of one chunk. -/
def pageBits : ℕ := Nat.size (pageSize - 1)

/-- The location of a column, by shifts and masks. -/
def shiftedLoc (col : ℕ) : ℕ :=
  (pageTable.getD (col >>> pageBits pageSize) 0) <<< pageBits pageSize ||| (col &&& (pageSize - 1))

/-- `out_page_indices` and `out_raw_indices` of a row of `topk_transform_512_pytorch_vectorized`. The page of every
entry is looked up, valid or not, and a page outside the table is an error. -/
def topkTransformPages
    (width seqLen : ℕ) : Option (List ℤ × List ℤ) :=
  let raw := rawIndices kernel scores width seqLen
  if ∀ entry ∈ raw, entry.1.toNat >>> pageBits pageSize < pageTable.length then
    some (raw.map fun entry => if entry.2 then (shiftedLoc pageSize pageTable entry.1.toNat : ℤ) else -1,
      raw.map fun entry => if entry.2 then entry.1 else -1)
  else none

/-- The masked selection for a batch of rows with logits of one width. -/
def maskedTopk (mask : ResidentMask) (pageSize width : ℕ) (batch : List HistoryRow) :
    Option (List (List ℤ × List ℤ)) :=
  batch.mapM fun row => topkTransformPages kernel pageSize row.pageTable
    (row.applyMaskInGraph mask pageSize) width row.seqLen

end FlashMemory
