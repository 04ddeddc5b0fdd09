import FlashMemory.Model.Indexer

/-! # What the retriever keeps

The hook scores every chunk of a history in its target layers. The scores become one mask of chunks, which
`_finalize_resident` cuts down to the capacity, or one set of pages, which `_select_resident_pages` writes to the row
buffers. What `torch.sigmoid` returns is a rational number.
-/

namespace FlashMemory

/-- `InlineRetrieverHook`. -/
structure RetrieverHook where
  targetLayers : List ℕ
  /-- `ensemble_mode` is `or`. All other modes take the mean. -/
  orMode : Bool
  thresh : ℚ
  window : KeepWindow
  /-- Zero means no limit. -/
  maxResident : ℕ

namespace RetrieverHook

variable (hook : RetrieverHook) (sigs : ℕ → ℕ → ℚ) (nBlk : ℕ)

section

variable (chunk : ℕ)

def ensemble : ℚ :=
  let scores := hook.targetLayers.map fun layer => sigs layer chunk
  if hook.orMode then scores.tail.foldl max (scores.headD 0) else scores.foldl (· + ·) 0 / scores.length

def thr : Bool := hook.thresh < hook.ensemble sigs chunk

def recent : Bool := nBlk - hook.window.lastKeep ≤ chunk

def sink : Bool := chunk < min hook.window.firstKeep nBlk

def forced : Bool := hook.recent nBlk chunk || hook.sink nBlk chunk

/-- The chunks before the cut. -/
def uncapped : Bool := hook.thr sigs chunk || hook.recent nBlk chunk || hook.sink nBlk chunk

end

/-- `mask.sum()`. -/
def countMask (mask : ℕ → Bool) : ℕ := ((List.range nBlk).filter mask).length

/-- `_finalize_resident`. -/
def finalizeResident (kernel : TopkKernel ℚ) : ℕ → Bool :=
  let keep := hook.uncapped sigs nBlk
  if 0 < hook.maxResident ∧ hook.maxResident < countMask nBlk keep then
    let forced := hook.forced nBlk
    let budget := hook.maxResident - countMask nBlk forced
    let candIdx := (List.range nBlk).filter fun chunk => hook.thr sigs chunk && !forced chunk
    if budget < candIdx.length then
      let topb :=
        if 0 < budget then kernel.pick (fun i => hook.ensemble sigs (candIdx.getD i 0)) candIdx.length budget else []
      fun chunk => forced chunk || decide (chunk ∈ topb.map (candIdx.getD · 0))
    else keep
  else keep

/-- What `_select_resident_pages` writes for a row, and the mask it returns. -/
structure SelectedRow where
  topLogical : List ℕ
  residentIdPageTable : List ℕ
  residentPoolLocBuf : List ℤ
  pendingCount : ℕ
  keep : ℕ → Bool

/-- `_select_resident_pages`. The buffers have room for `_page_kmax` pages. -/
def selectResidentRow (ccfg : CapturerConfig) (forward : Forward) (kernel : TopkKernel (WithTop ℕ)) (bi : ℕ) :
    SelectedRow :=
  let nBlk := forward.nBlk bi
  let topLogical := selectResidentPages kernel hook.window (hook.thr sigs) ccfg.pageKmax nBlk
  let colLogical := fun col => topLogical.getD (col / c4PageSize) 0 * c4PageSize + col % c4PageSize
  let selLogical := ((List.range (topLogical.length * c4PageSize)).filter (colLogical · < nBlk)).map colLogical
  { topLogical := topLogical
    residentIdPageTable :=
      topLogical.map (fun page => min (forward.physPage bi page) (ccfg.c4LogicalSize / c4PageSize - 1)) ++
      List.replicate (ccfg.pageKmax - topLogical.length) 0
    residentPoolLocBuf := (List.range (ccfg.pageKmax * c4PageSize)).map fun col =>
      (forward.selectedLocs ccfg bi topLogical).getD col (-1)
    pendingCount := topLogical.length * c4PageSize
    keep := fun chunk => chunk ∈ selLogical.map (min · (nBlk - 1)) }

end RetrieverHook

end FlashMemory
