import FlashMemory.Model.PageTables

/-! # Offloading the index keys

The indexer scores a chunk by its index key. For the offloaded layers the keys of the prompts are kept in a
host mirror, and a reserve on the device holds the pages that are resident: page recall copies a page into
the block that its chunks get, and the indexer addresses the reserve by a table of blocks. A decode step
stores the key of a new chunk at its offset in the block of its page, or in a sink block at the end. The
block of a page is read off the entry of its first chunk in layer 0.

The layers that keep their full history on the device have neither mirror nor reserve. A key is stamped
with the chunk that it was computed for, as the content of the chunk itself is.
-/

namespace FlashMemory

namespace Engine

variable {α : Type*} (cfg : Config) (full : List ℕ) (engine : Engine α) (rows : List (DecodeRow (ℕ → α)))
  (state : Engine α × ℕ)

/-- The entry of the first chunk of a page. -/
def blockCell (page : ℕ) : ℤ :=
  engine.chunkCellLut 0 (cfg.clampCol (page * c4PageSize))

/-- Cells of the index reserve: the blocks of the recall region and one sink block. -/
def indexCells : ℕ := (cfg.maxBlocks + 1) * c4PageSize

/-- The cell of a decode row in `store_index_decode_to_reserve`. -/
def indexDecodeCell (loc : ℤ) : ℕ :=
  let blockCell := engine.blockCell cfg (loc.toNat / c4PageSize)
  let realCell := blockCell + (loc.toNat % c4PageSize : ℕ)
  if 0 < loc ∧ 0 ≤ blockCell ∧ realCell < indexCells cfg then realCell.toNat else indexCells cfg - 1

/-- `store_index_decode_to_reserve` for one layer. -/
def storeIndexDecodeToReserve (layer : ℕ)
    (rows : List (DecodeRow (ℕ → α))) (reserve : ℕ → ℕ → α) : ℕ → ℕ → α :=
  if layer ∈ full then reserve
  else
    Function.update reserve layer (scatter (reserve layer)
      (rows.map fun row => (engine.indexDecodeCell cfg row.c4OutLoc, row.pack layer)))

/-- What `store_index_decode_to_reserve` adds to `_index_decode_dropped`. -/
def indexDecodeDropped (layer : ℕ)
    (rows : List (DecodeRow (ℕ → α))) : ℕ :=
  if layer ∈ full then 0
  else rows.countP fun row => 0 < row.c4OutLoc ∧ engine.blockCell cfg (row.c4OutLoc.toNat / c4PageSize) < 0

/-- The stores of one layer, with the counter. -/
def countIndexLayer
    (layer : ℕ) : Engine α × ℕ :=
  (state.1.storeDecodeToReserve cfg layer (rows.map (atLayer · layer)),
    state.2 + state.1.indexDecodeDropped cfg full layer rows)

/-- A decode step, with the counter. -/
def countIndexAllLayers (rows : List (DecodeRow (ℕ → α))) :
    Engine α × ℕ :=
  (List.range cfg.c4LayerNum).foldl (countIndexLayer cfg full rows) state

/-- A decode step. In every layer the key is stored before the chunk. -/
def storeIndexAllLayers
    (reserve : ℕ → ℕ → α) : ℕ → ℕ → α :=
  ((List.range cfg.c4LayerNum).foldl (fun (state : Engine α × (ℕ → ℕ → α)) layer =>
    (state.1.storeDecodeToReserve cfg layer (rows.map (atLayer · layer)),
      state.1.storeIndexDecodeToReserve cfg full layer rows state.2)) (engine, reserve)).2

/-- The pages that `_recall_global_pages` hands to `_copy_index_pages`, with their blocks. -/
def newPages (locs : List ℤ) : List (ℕ × ℕ) :=
  let pages := uniquePages locs
  let placed := engine.gPages.serve cfg.maxBlocks pages (engine.pageMisses cfg pages)
  let cleared := engine.clearCols ((placed.evicted.flatMap pageSpan).map cfg.clampCol)
  if (placed.exhausted && engine.gFull.isNone) ∨ cleared.guardedPairs cfg (copiedPages cfg placed) = [] then []
  else (copiedPages cfg placed).map fun item => (item.key, item.slot)

/-- `_copy_index_pages`. -/
def copyIndexPages (mirror : ℕ → ℕ → α) (copies : List (ℕ × ℕ))
    (reserve : ℕ → ℕ → α) (layer : ℕ) : ℕ → α :=
  if layer ∈ full then reserve layer
  else
    scatter (reserve layer)
      ((copies.filter fun copy => copy.1 < cfg.nLogicalPages ∧ copy.2 < cfg.maxBlocks + 1).flatMap fun copy =>
        (List.range c4PageSize).map fun offset =>
          (copy.2 * c4PageSize + offset, mirror layer (copy.1 * c4PageSize + offset)))

/-- One entry of `_remap_index_page_table`. -/
def reserveBlock (page : ℕ) : ℕ :=
  let cell := engine.blockCell cfg page
  if 0 ≤ cell then cell.toNat / c4PageSize else 0

end Engine

structure IndexServer where
  paged : PagedServer
  indexHostMirror : ℕ → ℕ → Stamp
  indexReserveBuf : ℕ → ℕ → Stamp
  residentIdPageTableReserve : ℕ → ℕ → ℕ

namespace IndexServer

def init (prebuilt : Bool) : IndexServer :=
  ⟨PagedServer.init prebuilt, fun _ _ => .blank, fun _ _ => .blank, fun _ _ => 0⟩

def resident (state : IndexServer) : ResidentServer := state.paged.resident

def engine (state : IndexServer) : Engine Stamp := state.resident.server.engine

/-- The transfer lands the keys of the prompt in the mirror, beside its chunks. -/
def transferIndex (full : List ℕ) (req : Request) (mirror : ℕ → ℕ → Stamp) (layer chunk : ℕ) : Stamp :=
  if layer ∉ full ∧ chunk / c4PageSize ∈ req.promptPages then req.transferred layer chunk else mirror layer chunk

variable (cfg : Config) (ccfg : CapturerConfig)

/-- The copies of the side-band's recall, and whether the side-band gets past it. -/
def recallIndex (state : IndexServer) (forward : Forward) :
    List (ℕ × ℕ) × Bool :=
  let resolved := state.resident.capturer.resolveIds ccfg state.resident.reqIds
  let due := (state.resident.capturer.dueRows ccfg state.resident.reqIds).2
  let noted := Capturer.recordOwners cfg ccfg state.engine resolved forward due
  let union := Capturer.unionLocs cfg ccfg state.engine resolved forward due
  if due = [] then ([], false)
  else if union = [] then ([], true)
  else
    match noted.recallResidentGlobal cfg union with
    | (_, .error _) => ([], false)
    | (_, .ok _) => (noted.newPages cfg union, true)

def step (full : List ℕ) (state : IndexServer) (op : ResidentOp) :
    IndexServer :=
  let paged := state.paged.step cfg ccfg op
  match op with
  | .commit reqPoolIdx promptLen pages =>
    let req : Request := ⟨state.resident.server.nextId, reqPoolIdx, promptLen, pages, promptLen / 4⟩
    { state with
      paged := paged
      indexHostMirror := transferIndex full req state.indexHostMirror }
  | .decode rows =>
    { state with
      paged := paged
      indexReserveBuf := state.engine.storeIndexAllLayers cfg full (state.resident.server.rows rows)
        state.indexReserveBuf }
  | .forwardEnd topLogical =>
    let (copies, done) := state.recallIndex cfg ccfg (state.resident.forward topLogical)
    let due := (state.resident.capturer.dueRows ccfg state.resident.reqIds).2
    { paged := paged
      indexHostMirror := state.indexHostMirror
      indexReserveBuf := Engine.copyIndexPages cfg full state.indexHostMirror copies state.indexReserveBuf
      residentIdPageTableReserve := fun bi =>
        if done ∧ bi ∈ due then
          fun k => paged.resident.server.engine.reserveBlock cfg ((paged.residentIdPageTable bi).getD k 0)
        else state.residentIdPageTableReserve bi }
  | .takePage _ _ | .finish _ | .forwardBegin _ => { state with paged := paged }

end IndexServer

end FlashMemory
