import FlashMemory.Collections.TopK
import FlashMemory.Model.Capturer
import Mathlib.Data.Rat.Defs
import Mathlib.Algebra.Order.Ring.Rat
import Mathlib.Algebra.Order.Monoid.Unbundled.WithTop
import Mathlib.Order.WithBot

/-! # From page scores to the indices that attention reads

The side-band scores the pages of a request and makes the best ones resident. In every decode step the
captured indexer scores the columns of the resident rows, takes the 512 best of them and writes what the
row buffer holds at these columns, and the attention backend sends the written locations to cells. With
`FUSED_REMAP` the indexer writes cells directly, and the backend skips its part.

`torch.topk` is any kernel that returns the positions of the largest scores. A logit is a rational number
or minus infinity.
-/

namespace FlashMemory

variable (kernel : TopkKernel (WithBot ℚ)) (logits : ℕ → WithBot ℚ) (ccfg : CapturerConfig) (forward : Forward)

/-! ## The pages of a row -/

/-- What the hook fixes of the choice: the chunks that are kept at the end and at the beginning. -/
structure KeepWindow where
  lastKeep : ℕ
  firstKeep : ℕ

/-- Pages of a history. -/
def pagesOf (nBlk : ℕ) : ℕ := (nBlk + c4PageSize - 1) / c4PageSize

/-- The score of a page: its chunks above the threshold, and infinity in the windows. -/
def pageScore (window : KeepWindow) (thr : ℕ → Bool) (nBlk page : ℕ) : WithTop ℕ :=
  if (nBlk - window.lastKeep) / c4PageSize ≤ page ∨
      0 < window.firstKeep ∧ page < pagesOf (min window.firstKeep nBlk) then ⊤
  else (((List.range nBlk).filter fun chunk => chunk / c4PageSize = page ∧ thr chunk = true).length : ℕ)

/-- The choice of `_select_resident_pages`: the best pages in ascending order. -/
def selectResidentPages (kernel : TopkKernel (WithTop ℕ)) (window : KeepWindow) (thr : ℕ → Bool)
    (pageKmax nBlk : ℕ) : List ℕ :=
  (kernel.pick (pageScore window thr nBlk) (pagesOf nBlk) (min pageKmax (pagesOf nBlk))).mergeSort (· ≤ ·)

/-! ## The best columns -/

/-- The width of `c4_sparse_page_indices`. -/
def sparseTopk : ℕ := 512

def negLogit : WithBot ℚ := ((-10 ^ 30 : ℚ) : WithBot ℚ)

def negHalf : WithBot ℚ := ((-10 ^ 29 : ℚ) : WithBot ℚ)

/-- One row of `topk_transform_512_pytorch_vectorized`: the columns, padded with `-1`. -/
def topkTransform512 (scores : ℕ → WithBot ℚ) (width seqLen : ℕ) : List ℤ :=
  if seqLen ≤ sparseTopk then
    (List.range sparseTopk).map fun (col : ℕ) => if col < seqLen then (col : ℤ) else -1
  else
    let masked := fun col => if col < seqLen then scores col else ⊥
    let actualK := min sparseTopk width
    (kernel.pick masked width actualK).map (fun (col : ℕ) => if scores col = ⊥ then -1 else (col : ℤ)) ++
      List.replicate (sparseTopk - actualK) (-1)

/-- The locations of the columns in a page table. -/
def pageIndices (pageTable : ℕ → ℕ) (raw : List ℤ) : List ℤ :=
  raw.map fun col =>
    if 0 ≤ col then (pageTable (col.toNat / c4PageSize) * c4PageSize + col.toNat % c4PageSize : ℕ) else -1

/-- The native path: what a table of columns holds at the best ones. -/
def gatherNative (buf count : ℕ) (table : ℕ → ℤ) :
    List ℤ :=
  (topkTransform512 kernel logits buf count).map fun raw => if 0 ≤ raw then table (min raw.toNat (buf - 1)) else -1

/-- `_rs_custom_topk`. The mask of valid columns, if it exists, says which ones are below the count. -/
def rsCustomTopk (buf count : ℕ) (table : ℕ → ℤ) :
    List ℤ :=
  let masked := fun col => if col < count then logits col else negLogit
  let k := min sparseTopk buf
  (kernel.pick masked buf k).map (fun col => if negHalf < masked col then table col else -1) ++
    List.replicate (sparseTopk - k) (-1)

/-- What the score-resident branch writes without `FUSED_REMAP`. -/
def residentIndices (native : Bool) (kernel : TopkKernel (WithBot ℚ)) (logits : ℕ → WithBot ℚ)
    (buf count : ℕ) (table : ℕ → ℤ) : List ℤ :=
  if native then gatherNative kernel logits buf count table else rsCustomTopk kernel logits buf count table

/-! ## The gates -/

structure IndexerGates where
  scoreResident : Bool
  pageRecall : Bool
  rsNativeTopk : Bool
  fusedRemap : Bool

/-- The buffers of the capturer that the indexer and the backend look at. -/
structure ScoreBuffers where
  /-- The layers with a scratch. -/
  residentKvScratch : Option (List ℕ)
  residentCountBuf : ℕ → ℕ
  residentPoolLocBuf : Option (ℕ → ℕ → ℤ)
  /-- The attribute does not exist before `_ensure_resident_scratch` creates it. -/
  colToCellBuf : Option (ℕ → ℕ → ℤ)

namespace ScoreBuffers

variable {α : Type*} (gates : IndexerGates) (buffers : ScoreBuffers)

def none : ScoreBuffers := ⟨.none, fun _ => 0, .none, .none⟩

/-- `_ensure_page_recall_buffers`. -/
def ensurePageRecallBuffers : ScoreBuffers :=
  if buffers.residentPoolLocBuf.isSome then buffers
  else
    { buffers with
      residentCountBuf := fun _ => 0
      residentPoolLocBuf := some fun _ _ => -1 }

/-- `_ensure_resident_scratch`. -/
def ensureResidentScratch (clids : List ℕ) (buffers : ScoreBuffers) : ScoreBuffers :=
  if buffers.residentKvScratch.isSome then buffers
  else
    { residentKvScratch := some clids
      residentCountBuf := fun _ => 0
      residentPoolLocBuf := some fun _ _ => -1
      colToCellBuf := some fun _ _ => -1 }

/-- The buffers that the gates ask for. -/
def ensure (clids : List ℕ) (buffers : ScoreBuffers) : ScoreBuffers :=
  if gates.scoreResident then
    if gates.pageRecall then buffers.ensurePageRecallBuffers else buffers.ensureResidentScratch clids
  else buffers

/-- The side-band writes rows and counts. -/
def fill (count : ℕ → ℕ) (locs : ℕ → ℕ → ℤ) (buffers : ScoreBuffers) : ScoreBuffers :=
  { buffers with
    residentCountBuf := count
    residentPoolLocBuf := buffers.residentPoolLocBuf.map fun _ => locs }

/-- `_refresh_col_to_cell`, when the buffer exists. -/
def refreshColToCell (cfg : Config) (engine : Engine α) (buffers : ScoreBuffers) : ScoreBuffers :=
  { buffers with
    colToCellBuf := buffers.colToCellBuf.map fun cells => (buffers.residentPoolLocBuf.map fun locs =>
      fun bi col => engine.remapCompressedLoc cfg 0 (locs bi col)).getD cells }

/-- What happens to the buffers over time. -/
inductive Event (α : Type*) where
  | ensure
  | fill (count : ℕ → ℕ) (locs : ℕ → ℕ → ℤ)
  | refresh (engine : Engine α)

def step (cfg : Config) (gates : IndexerGates) (clids : List ℕ) (buffers : ScoreBuffers) :
    Event α → ScoreBuffers
  | .ensure => buffers.ensure gates clids
  | .fill count locs => buffers.fill count locs
  | .refresh engine => buffers.refreshColToCell cfg engine

/-- `_score_resident_active` in a decode step. -/
def active (clid : ℕ) : Bool :=
  gates.scoreResident &&
    (gates.pageRecall && buffers.residentPoolLocBuf.isSome ||
      !gates.pageRecall && (buffers.residentKvScratch.getD []).contains clid)

/-- The backend's condition for skipping the remap. -/
def fused (clid : ℕ) : Bool :=
  gates.fusedRemap && gates.scoreResident && (buffers.residentKvScratch.getD []).contains clid &&
    buffers.colToCellBuf.isSome

end ScoreBuffers

/-- The pages that `_select_resident_pages` chooses for every row. -/
def Forward.selectedRows (kernel : TopkKernel (WithTop ℕ))
    (window : KeepWindow) (thr : ℕ → ℕ → Bool) (bi : ℕ) : List ℕ :=
  selectResidentPages kernel window (thr bi) ccfg.pageKmax (forward.nBlk bi)

/-- The buffers after `_select_resident_pages` and the publication of its counts. -/
def Forward.selectedBuffers (topLogical : ℕ → List ℕ) :
    ScoreBuffers :=
  ScoreBuffers.none.ensurePageRecallBuffers.fill (fun bi => (topLogical bi).length * c4PageSize)
    fun bi col => (forward.selectedLocs ccfg bi (topLogical bi)).getD col (-1)

/-- What a decode step scores for one row: the resident columns and the whole history. -/
structure RowScores where
  resident : ℕ → WithBot ℚ
  buf : ℕ
  history : ℕ → WithBot ℚ
  width : ℕ
  c4SeqLen : ℕ
  pageTable : ℕ → ℕ

/-- One row of `c4_sparse_page_indices` after `forward_c4_indexer`. -/
def forwardC4Indexer (gates : IndexerGates) (kernel : TopkKernel (WithBot ℚ)) (buffers : ScoreBuffers)
    (clid bi : ℕ) (scores : RowScores) : Except PyError (List ℤ) :=
  if buffers.active gates clid then
    let count := buffers.residentCountBuf bi
    let locs := buffers.residentPoolLocBuf.getD (fun _ _ => -1) bi
    if gates.rsNativeTopk && gates.fusedRemap then
      match buffers.colToCellBuf with
      | none => .error .attributeError
      | some cells => .ok (gatherNative kernel scores.resident scores.buf count (cells bi))
    else .ok (residentIndices gates.rsNativeTopk kernel scores.resident scores.buf count locs)
  else .ok (pageIndices scores.pageTable (topkTransform512 kernel scores.history scores.width scores.c4SeqLen))

/-- The indices that attention reads: the written ones, after the backend's remap unless it is skipped. -/
def attendedIndices {α : Type*} (cfg : Config) (gates : IndexerGates) (kernel : TopkKernel (WithBot ℚ))
    (engine : Engine α) (buffers : ScoreBuffers) (clid bi : ℕ) (scores : RowScores) : Except PyError (List ℤ) :=
  (forwardC4Indexer gates kernel buffers clid bi scores).map fun written =>
    if buffers.fused gates clid then written else engine.remapCompressedLocs cfg clid written

end FlashMemory
