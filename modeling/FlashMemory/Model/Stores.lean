import FlashMemory.Model.Recall

/-! # Storing new chunks

Prefill chunks go to the mirror, and the entry of a rewritten chunk is dropped so that the next recall
copies the new bytes. Eager decoding does the same and recalls at once. Under graph capture a decode
chunk is written straight into the reserve, at a cell computed from the request's slot: every row of
the batch is stored, and a row that formed no chunk or cannot be placed goes to the sink cell and to
the sentinel column.
-/

namespace FlashMemory

/-- Length of the tables indexed by `req_pool_idx`. -/
def maxReqPool : ℕ := 4096

/-- One row of a decode batch. `c4OutLoc` is `0` when the step formed no chunk, and `seqLen` is absent
when the call passes no `seq_lens`. -/
structure DecodeRow (α : Type*) where
  reqPoolIdx : ℤ
  c4OutLoc : ℤ
  seqLen : Option ℤ
  pack : α

namespace Engine

variable {α : Type*} (cfg : Config) (engine : Engine α) (row : DecodeRow α)

/-- `store_prefill_to_mirror` on (location, pack) rows; of duplicate locations the last one is kept.
An empty batch raises inside torch before anything is written, and writes nothing here. -/
def storePrefillToMirror (layer : ℕ) (rows : List (ℕ × α)) :
    Engine α :=
  let kept := keepLast rows
  let touched := (kept.map Prod.fst).filter (· < cfg.lutCols)
  { engine with
    hostMirror := Function.update engine.hostMirror layer (scatter (engine.hostMirror layer) kept)
    chunkCellLut := Function.update engine.chunkCellLut layer
      (fun col => if col ∈ touched then -1 else engine.chunkCellLut layer col) }

/-- The transfer engine writes whole pages of the mirror, unknown to the swap engine. -/
def transferPages (content : ℕ → ℕ → α) (pages : List ℕ) : Engine α :=
  { engine with
    hostMirror := fun layer chunk =>
      if chunk / c4PageSize ∈ pages then content layer chunk else engine.hostMirror layer chunk }

/-- `store_decode`: mirror the new chunks, then recall exactly them. -/
def storeDecode (layer : ℕ) (rows : List (ℕ × α)) :
    Engine α × Except PyError Unit :=
  if rows = [] then (engine, .ok ())
  else
    let stored := engine.storePrefillToMirror cfg layer rows
    let (recalled, outcome) := stored.recallChunks cfg layer (rows.map fun row => (row.1 : ℤ))
    (recalled, outcome.map fun _ => ())

/-! ## The decode-resident region -/

/-- `register_decode_req`. The slot of a pool index is assigned once and never returned. With a zero
bound the modulus raises after the chunk count is recorded. -/
def registerDecodeReq (reqPoolIdx prefillChunks : ℤ) : Engine α :=
  if reqPoolIdx < 0 ∨ maxReqPool ≤ reqPoolIdx then engine
  else
    let ri := reqPoolIdx.toNat
    let engine :=
      { engine with prefillChunksT := Function.update engine.prefillChunksT ri prefillChunks }
    if engine.decodeSlotT ri < 0 ∧ cfg.decodeMaxConc ≠ 0 then
      { engine with
        decodeSlotT := Function.update engine.decodeSlotT ri
          ((engine.nextDecodeSlot % cfg.decodeMaxConc : ℕ) : ℤ)
        nextDecodeSlot := engine.nextDecodeSlot + 1 }
    else engine

/-- The row's index into the request tables, clamped. -/
def rowIndex : ℕ := (min (max row.reqPoolIdx 0) (maxReqPool - 1)).toNat

/-- Index of the chunk among the request's decode chunks: logical under `LOCALFIX`, else physical. -/
def decodeLocal : ℤ :=
  let pc := engine.prefillChunksT (rowIndex row)
  match cfg.localfix, row.seqLen with
  | true, some seqLen => seqLen / 4 - 1 - pc
  | _, _ => row.c4OutLoc - pc

/-- The row formed a chunk of a known request and fits in the request's span. -/
def DecodeValid : Prop :=
  0 < row.c4OutLoc ∧ 0 ≤ engine.prefillChunksT (rowIndex row) ∧
    0 ≤ engine.decodeSlotT (rowIndex row) ∧ 0 ≤ engine.decodeLocal cfg row ∧
    engine.decodeLocal cfg row < cfg.decodeResidentChunks

instance decidableDecodeValid :
    Decidable (engine.DecodeValid cfg row) :=
  inferInstanceAs (Decidable (_ ∧ _ ∧ _ ∧ _ ∧ _))

/-- The cell a row is stored at. -/
def decodeCell : ℤ :=
  let realCell := (cfg.decodeBase : ℤ) +
    engine.decodeSlotT (rowIndex row) * cfg.decodeResidentChunks + engine.decodeLocal cfg row
  let cell := if engine.DecodeValid cfg row then realCell else cfg.sinkCell
  min (max cell 0) ((cfg.cellCapacity : ℤ) - 1)

/-- The column a row's cell is recorded in. -/
def decodeCol : ℕ :=
  if engine.DecodeValid cfg row then min row.c4OutLoc.toNat cfg.lutSentinelCol
  else cfg.lutSentinelCol

/-- `store_decode_to_reserve`. -/
def storeDecodeToReserve (layer : ℕ) (rows : List (DecodeRow α)) :
    Engine α :=
  { engine with
    reserveBuf := Function.update engine.reserveBuf layer
      (scatter (engine.reserveBuf layer)
        (rows.map fun row => ((engine.decodeCell cfg row).toNat, row.pack)))
    chunkCellLut := Function.update engine.chunkCellLut layer
      (scatter (engine.chunkCellLut layer)
        (rows.map fun row => (engine.decodeCol cfg row, engine.decodeCell cfg row))) }

/-- The row as one layer sees it; the layers differ only in the bytes they store. -/
def atLayer (row : DecodeRow (ℕ → α)) (layer : ℕ) : DecodeRow α :=
  { row with pack := row.pack layer }

/-- One decode step: every layer, in order, stores the same rows with its own bytes. -/
def storeDecodeAllLayers (rows : List (DecodeRow (ℕ → α))) : Engine α :=
  (List.range cfg.c4LayerNum).foldl (fun engine layer =>
    engine.storeDecodeToReserve cfg layer (rows.map (atLayer · layer))) engine

end Engine

end FlashMemory
