import FlashMemory.Model.Engine

/-! # Swapping chunks into the reserve

The three recalls share one shape: the distinct selected chunks or pages whose table entry is
negative are given cells, the bytes are copied from the mirror, and the table is updated. They differ
in the allocator. The eager recall works on one layer, `_recall_global` gives a chunk the same cell
in every layer, and `_recall_global_pages` gives a page an aligned block of 64 cells.

An allocation loop never reads the table, so the entries that its evictions drop are cleared once,
after the loop. A call returns the engine it leaves behind even when it raises: the allocation is
kept, and nothing is copied.
-/

namespace FlashMemory.Engine

variable {α : Type*}

/-- The bounds guard of the copies, on a source chunk and a destination cell. -/
def copyInBounds (cfg : Config) (pair : ℕ × ℕ) : Bool :=
  pair.1 < cfg.mirrorChunks ∧ pair.2 < cfg.reservePages * c4PageSize

section

variable (cfg : Config) (engine : Engine α)

/-- `_copy_chunks_layer` on (chunk, cell) pairs. -/
def copyChunksLayer (layer : ℕ) (pairs : List (ℕ × ℕ)) : Engine α :=
  { engine with
    reserveBuf := Function.update engine.reserveBuf layer
      (scatter (engine.reserveBuf layer)
        ((pairs.filter (copyInBounds cfg)).map fun pair =>
          (pair.2, engine.hostMirror layer pair.1))) }

/-- `_copy_chunks_all_layers` on (chunk, cell) pairs. -/
def copyChunksAllLayers (pairs : List (ℕ × ℕ)) : Engine α :=
  { engine with
    reserveBuf := fun layer =>
      scatter (engine.reserveBuf layer)
        ((pairs.filter (copyInBounds cfg)).map fun pair =>
          (pair.2, engine.hostMirror layer pair.1)) }

/-- `chunk_cell_lut[:, clamp(chunks)] = cells`. -/
def writeLut (pairs : List (ℕ × ℕ)) : Engine α :=
  { engine with
    chunkCellLut := fun layer =>
      scatter (engine.chunkCellLut layer)
        (pairs.map fun pair => (cfg.clampCol pair.1, (pair.2 : ℤ))) }

/-! ## The eager recall of one layer -/

/-- Selected chunks that this layer's table does not map. -/
def layerMisses (layer : ℕ) (selected : List ℕ) : List ℕ :=
  selected.filter fun chunk => engine.chunkCellLut layer (cfg.clampCol chunk) < 0

end

/-- Cells for the missed chunks that own none: a contiguous run, or the evicting loop. -/
def placeLayer (cfg : Config) (pool : SlotPool ℕ) (selected new : List ℕ) : Serving ℕ :=
  if pool.free = [] ∧ pool.next + new.length ≤ cfg.recallCellCapacity then pool.bumpAll new
  else pool.serve cfg.recallCellCapacity selected new

/-- The per-layer branch of `recall_chunks`. A chunk that still owns a cell is only re-validated. -/
def recallChunksLayer (cfg : Config) (engine : Engine α) (layer : ℕ) (locs : List ℤ) :
    Engine α × ℕ :=
  let selected := uniqueChunks locs
  let todo := engine.layerMisses cfg layer selected
  if todo = [] then (engine, 0)
  else
    let pool := engine.cells layer
    let reuse := todo.filter (· ∈ pool.slots.keys)
    let new := todo.filter (· ∉ pool.slots.keys)
    let placed := placeLayer cfg pool selected new
    let row := scatter (engine.chunkCellLut layer)
      ((pool.hits reuse).map fun item => (cfg.clampCol item.key, (item.slot : ℤ)))
    let row := fun col => if col ∈ placed.evicted then -1 else row col
    let row := scatter row
      (placed.served.map fun item => (cfg.clampCol item.key, (item.slot : ℤ)))
    let copies := (placed.pool.hits todo).map fun item => (item.key, item.slot)
    let engine :=
      { engine with
        chunkCellLut := Function.update engine.chunkCellLut layer row
        cells := Function.update engine.cells layer placed.pool
        full := Function.update engine.full layer (engine.full layer || placed.exhausted)
        nEvictions := engine.nEvictions + placed.evicted.length }
    (engine.copyChunksLayer cfg layer copies, copies.length)

/-! ## Eviction from the shared chunk allocator -/

/-- `_evict_one_global`: the freed cell, or none if every mapped chunk is protected. -/
def evictOneGlobal (engine : Engine α) (guarded : List ℕ) : Engine α × Option ℕ :=
  match engine.gCells.evict? guarded with
  | none => (engine, none)
  | some (victim, pool) =>
    ({ engine with gCells := pool, nEvictions := engine.nEvictions + 1 }.clearCols [victim.1], some victim.2)

/-- `_evict_batch_global`: the scan stops once it has `n_needed` victims, and the entries in range are cleared at
once. -/
def evictBatchGlobal (cfg : Config) (engine : Engine α) (guarded : List ℕ) (needed : ℕ) : Engine α × List ℕ :=
  let (victims, pool) := engine.gCells.evictBatch guarded needed
  ({ engine with gCells := pool, nEvictions := engine.nEvictions + victims.length }.clearCols
    ((victims.map Prod.fst).filter (· < cfg.lutCols)), victims.map Prod.snd)

/-! ## The recalls of all layers -/

/-- Cells for the missed chunks in the shared allocator. -/
def placeChunks (cfg : Config) (engine : Engine α) (selected todo : List ℕ) : Serving ℕ :=
  let pool := engine.gCells
  let reuse := todo.filter (· ∈ pool.slots.keys)
  if reuse = [] ∧ pool.free = [] ∧ engine.gFull.getD false = false ∧
      pool.next + todo.length ≤ cfg.recallCellCapacity then
    pool.bumpAll todo
  else
    let new := todo.filter (· ∉ pool.slots.keys)
    let aged := reuse.foldl SlotPool.touch pool
    let placed :=
      if aged.free = [] ∧ aged.next + new.length ≤ cfg.recallCellCapacity then aged.bumpAll new
      else aged.serveBatch cfg.recallCellCapacity selected new none
    { placed with served := pool.hits reuse ++ placed.served }

/-- An exhausted allocator reads `_g_full` and then sets it; the read raises on a missing attribute. -/
def noteExhausted (engine : Engine α) (exhausted : Bool) : Except PyError (Engine α) :=
  if exhausted then
    match engine.gFull with
    | none => .error .attributeError
    | some _ => .ok { engine with gFull := some true }
  else .ok engine

/-- `_recall_global`. -/
def recallGlobal (cfg : Config) (engine : Engine α) (locs : List ℤ) : Engine α × Except PyError ℕ :=
  let selected := uniqueChunks locs
  let todo := engine.layerMisses cfg 0 selected
  if todo = [] then (engine, .ok 0)
  else
    let placed := engine.placeChunks cfg selected todo
    let engine :=
      { engine with
        gCells := placed.pool
        nEvictions := engine.nEvictions + placed.evicted.length }
    let engine := engine.clearCols (placed.evicted.filter (· < cfg.lutCols))
    match engine.noteExhausted placed.exhausted with
    | .error error => (engine, .error error)
    | .ok engine =>
      let safe := (placed.served.map fun item => (item.key, item.slot)).filter (copyInBounds cfg)
      ((engine.copyChunksAllLayers cfg safe).writeLut cfg safe, .ok safe.length)

/-- Selected pages whose first chunk layer 0 does not map. -/
def pageMisses (cfg : Config) (engine : Engine α) (pages : List ℕ) : List ℕ :=
  pages.filter fun page => engine.chunkCellLut 0 (cfg.clampCol (page * c4PageSize)) < 0

/-- The 64 (chunk, cell) pairs of a page placed in a block. -/
def pagePairs (page block : ℕ) : List (ℕ × ℕ) := (pageSpan page).zip (pageSpan block)

/-- A page is copied when it was given a block, or under `LUT_TRUTH` when it still owned one. -/
def copiedPages (cfg : Config) (placed : Serving ℕ) : List (Served ℕ) :=
  placed.served.filter fun item => cfg.lutTruth || !item.hit

variable (cfg : Config) (engine : Engine α)

/-- The decode-chunk guard: with an own reserve, chunks mapped into the decode region are dropped. -/
def guardedPairs (items : List (Served ℕ)) : List (ℕ × ℕ) :=
  (items.flatMap fun item => pagePairs item.key item.slot).filter fun pair =>
    !cfg.ownReserve || engine.chunkCellLut 0 (cfg.clampCol pair.1) < cfg.decodeBase

/-- `_recall_global_pages`. -/
def recallGlobalPages (locs : List ℤ) :
    Engine α × Except PyError ℕ :=
  let pages := uniquePages locs
  let todo := engine.pageMisses cfg pages
  if todo = [] then (engine, .ok 0)
  else
    let placed := engine.gPages.serve cfg.maxBlocks pages todo
    let engine :=
      { engine with
        gPages := placed.pool
        nEvictions := engine.nEvictions + placed.evicted.length }
    let engine := engine.clearCols ((placed.evicted.flatMap pageSpan).map cfg.clampCol)
    match engine.noteExhausted placed.exhausted with
    | .error error => (engine, .error error)
    | .ok engine =>
      let pairs := engine.guardedPairs cfg (copiedPages cfg placed)
      ((engine.copyChunksAllLayers cfg pairs).writeLut cfg pairs, .ok pairs.length)

/-- `recall_chunks`. In global mode the layer is only a routing hint. -/
def recallChunks (layer : ℕ) (locs : List ℤ) :
    Engine α × Except PyError ℕ :=
  if cfg.globalMode then engine.recallGlobal cfg locs
  else
    let (engine, copied) := engine.recallChunksLayer cfg layer locs
    (engine, .ok copied)

def recallResidentGlobal (locs : List ℤ) :
    Engine α × Except PyError ℕ :=
  if cfg.pageRecall then engine.recallGlobalPages cfg locs else engine.recallGlobal cfg locs

end FlashMemory.Engine
