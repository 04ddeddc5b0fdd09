import Mathlib.Data.List.Basic

/-! # Transfers of blocks of pages

`send_kvcache` copies pages from the prefill server to the decode server. Pages that follow each other on both sides
are copied as one block, in every layer. The layers whose destination is host memory go into a transfer of their own.
-/

namespace FlashMemory

/-- Two lists of one length are cut where one of them stops being consecutive. -/
def groupConcurrentContiguous (srcIndices dstIndices : List ℕ) : List (List ℕ) × List (List ℕ) :=
  let groups := (srcIndices.zip dstIndices).splitBy fun (src, dst) (src', dst') => src' = src + 1 ∧ dst' = dst + 1
  (groups.map (List.map Prod.fst), groups.map (List.map Prod.snd))

/-- An entry of `layers_params`. -/
structure LayerParams where
  srcPtr : ℕ
  dstPtr : ℕ
  itemLen : ℕ

structure BlockCopy where
  srcAddr : ℕ
  dstAddr : ℕ
  length : ℕ

/-- The arguments of `send_kvcache` that say which destinations are in host memory. -/
structure DramArgs where
  c4DramLayerNum : ℕ
  indexDramLayerNum : ℕ
  kvDramMask : List Bool

/-- `is_c4_dram`. -/
def DramArgs.isC4Dram (args : DramArgs) (layers lpIdx : ℕ) : Bool :=
  if args.kvDramMask ≠ [] ∧ args.kvDramMask.length = layers then args.kvDramMask.getD lpIdx false
  else decide (lpIdx < args.c4DramLayerNum + args.indexDramLayerNum)

/-- The block copies of the two transfers. -/
structure KvXfers where
  vram : List BlockCopy
  dram : List BlockCopy

def LayerParams.blockCopies (layer : LayerParams) (prefillKvBlocks dstKvBlocks : List (List ℕ)) : List BlockCopy :=
  (prefillKvBlocks.zip dstKvBlocks).map fun (prefillIndex, decodeIndex) =>
    ⟨layer.srcPtr + prefillIndex.headD 0 * layer.itemLen, layer.dstPtr + decodeIndex.headD 0 * layer.itemLen,
      layer.itemLen * prefillIndex.length⟩

def sendKvcache (args : DramArgs) (layersParams : List LayerParams) (prefillKvIndices dstKvIndices : List ℕ) :
    KvXfers :=
  let blocks := groupConcurrentContiguous prefillKvIndices dstKvIndices
  let copies (dram : Bool) := (layersParams.zipIdx.filter fun entry =>
    args.isC4Dram layersParams.length entry.2 = dram).flatMap fun entry => entry.1.blockCopies blocks.1 blocks.2
  ⟨copies false, copies true⟩

end FlashMemory
