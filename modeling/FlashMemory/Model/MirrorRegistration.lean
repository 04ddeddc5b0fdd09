import Mathlib.Data.List.Basic

/-! # Which transfer destinations are in host memory

The decode side lists the destination buffers of a transfer by group. With its own reserve the engine redirects the c4
buffers to host mirrors, and with index-K offload those of the indexer layers that are not kept on the GPU. A mask and
two counts say which positions these are. The decode side registers memory by them, and sends them to the prefill side,
which splits its transfers. -/

namespace FlashMemory

/-- A destination buffer. -/
inductive BufPtr where
  | c4 (layer : ℕ)
  | indexer (layer : ℕ)
  | c128 (layer : ℕ)
  | c4Mirror (layer : ℕ)
  | indexMirror (layer : ℕ)
deriving DecidableEq

def BufPtr.isMirror : BufPtr → Bool
  | .c4Mirror _ | .indexMirror _ => true
  | _ => false

/-- What the registration reads of `SwapEngineP`. -/
structure MirrorEngine where
  c4LayerNum : ℕ
  ownReserve : Bool
  indexKOffload : Bool
  /-- The layers whose index-K stays on the GPU. -/
  indexFullLayers : List ℕ

/-- A pool with an engine, if one is attached. A pool of another kind has only buffers of its own, like the last
group. -/
structure LayerPool where
  c4Layers : ℕ
  indexerLayers : ℕ
  c128Layers : ℕ
  swapEngineP : Option MirrorEngine

namespace LayerPool

variable (pool : LayerPool)

/-- `_b_mode`. -/
def bMode : Bool := pool.swapEngineP.any (·.ownReserve)

/-- `_idx_off`. -/
def idxOff : Bool := pool.swapEngineP.any (·.indexKOffload)

/-- The layer has a reserve, so it is offloaded. -/
def offloaded (layer : ℕ) : Bool :=
  pool.idxOff && pool.swapEngineP.any fun engine => !engine.indexFullLayers.contains layer

/-- `get_contiguous_buf_infos`: the pointers and the mask. A mirror or reserve of a layer that the engine does not have
is an error. -/
def getContiguousBufInfos : Option (List BufPtr × List Bool) :=
  let engineLayers := (pool.swapEngineP.map (·.c4LayerNum)).getD 0
  if pool.bMode = true ∧ engineLayers < pool.c4Layers ∨ pool.idxOff = true ∧ engineLayers < pool.indexerLayers then none
  else
    some ((List.range pool.c4Layers).map (fun layer => if pool.bMode then BufPtr.c4Mirror layer else .c4 layer) ++
        (List.range pool.indexerLayers).map
          (fun layer => if pool.offloaded layer then .indexMirror layer else .indexer layer) ++
        (List.range pool.c128Layers).map .c128,
      (List.range pool.c4Layers).map (fun _ => pool.bMode) ++ (List.range pool.indexerLayers).map pool.offloaded ++
        (List.range pool.c128Layers).map fun _ => false)

end LayerPool

/-- What `_init_kv_manager` writes. -/
structure KvArgs where
  kvDataPtrs : List BufPtr
  c4DramLayerNum : ℕ
  indexDramLayerNum : ℕ
  kvDramMask : List Bool
deriving DecidableEq

/-- The buffers of the draft model, if there is one. -/
def draftBufInfos : Option LayerPool → Option (List BufPtr × List Bool)
  | none => some ([], [])
  | some draft => draft.getContiguousBufInfos

/-- `_init_kv_manager` of the decode side. The buffers of the draft model come after those of the target model. -/
def initKvManager (pool : LayerPool) (draft : Option LayerPool) : Option KvArgs :=
  match pool.getContiguousBufInfos, draftBufInfos draft with
  | some (ptrs, mask), some (draftPtrs, _) =>
    let engineLayers := (pool.swapEngineP.map (·.c4LayerNum)).getD 0
    some {
      kvDataPtrs := ptrs ++ draftPtrs
      c4DramLayerNum := if pool.bMode then engineLayers else 0
      indexDramLayerNum := if pool.bMode && pool.idxOff then engineLayers else 0
      kvDramMask := if pool.bMode then mask else [] }
  | _, _ => none

/-- The mask decides if it has one entry per position, and otherwise the counts do. -/
def isDram (c4Dram indexDram : ℕ) (mask : List Bool) (positions i : ℕ) : Bool :=
  if mask ≠ [] ∧ mask.length = positions then mask.getD i false else i < c4Dram + indexDram

/-- `register_buffer_to_engine`: the buffers in the order of their positions, with the memory they are registered as. -/
def KvArgs.registerBufferToEngine (args : KvArgs) : List (BufPtr × Bool) :=
  args.kvDataPtrs.zipIdx.map fun (ptr, i) =>
    (ptr, isDram args.c4DramLayerNum args.indexDramLayerNum args.kvDramMask args.kvDataPtrs.length i)

/-- What the prefill side knows of the receiver. The mask has one byte for each position. -/
structure KvArgsRegisterInfo where
  dstKvPtrs : List BufPtr
  c4DramLayerNum : ℕ
  indexDramLayerNum : ℕ
  kvDramMask : List ℕ

/-- The registration message, and what `from_zmq` makes of it. -/
def KvArgs.registerInfo (args : KvArgs) : KvArgsRegisterInfo :=
  ⟨args.kvDataPtrs, args.c4DramLayerNum, args.indexDramLayerNum, args.kvDramMask.map fun dram => if dram then 1 else 0⟩

/-- `send_kvcache`: the destinations of the layers, with the transfer they are put in. There are as many as source
buffers. -/
def KvArgsRegisterInfo.sendKvcache (info : KvArgsRegisterInfo) (srcKvPtrs : ℕ) : List (BufPtr × Bool) :=
  (info.dstKvPtrs.take srcKvPtrs).zipIdx.map fun (ptr, i) =>
    (ptr, isDram info.c4DramLayerNum info.indexDramLayerNum (info.kvDramMask.map (· ≠ 0)) srcKvPtrs i)

end FlashMemory
