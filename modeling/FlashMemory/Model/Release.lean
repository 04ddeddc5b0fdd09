import FlashMemory.Model.Recall

/-! # Giving chunks up

Four routes make chunks non-resident besides eviction. A fresh transfer into the mirror drops the
table entries of the written pages and leaves the allocators alone. A release returns the cells of
some locations, or the blocks of their pages, to the free lists. Owner release does so for the pages
recorded for a request, and the orphan sweep for the chunks that no request keeps.
-/

namespace FlashMemory.Engine

open List

variable {α : Type*} (cfg : Config) (engine : Engine α) (pool : SlotPool ℕ)

/-- The distinct pages of a request that the mirror has rows for. -/
def mirrorPages (pages : List ℤ) : List ℕ :=
  (uniqueChunks pages).filter (· < cfg.nLogicalPages)

theorem mirrorPages_lt {cfg : Config} {pages : List ℤ} {page : ℕ}
    (mem : page ∈ mirrorPages cfg pages) : page < cfg.nLogicalPages := by
  simpa using (mem_filter.mp mem).2

/-- Columns of the given pages that the table has. -/
def pageCols (pages : List ℕ) : List ℕ :=
  (pages.flatMap pageSpan).filter (· < cfg.lutCols)

/-- `discard_copied_pages`. -/
def discardCopiedPages (pages : List ℤ) : Engine α × ℕ :=
  let pages := mirrorPages cfg pages
  (engine.clearCols (pageCols cfg pages), pages.length)

/-- `ingest_transferred_history`, copying whole pages of the landing pool into the mirror. -/
def ingestTransferredHistory (source : ℕ → ℕ → α)
    (pages : List ℤ) : Engine α × ℕ :=
  let pages := mirrorPages cfg pages
  let engine :=
    { engine with
      hostMirror := fun layer chunk =>
        if chunk / c4PageSize ∈ pages then source layer chunk else engine.hostMirror layer chunk }
  (engine.clearCols (pageCols cfg pages), pages.length)

/-- The members of a set of locations that own a cell, in the order they are freed: the smaller of
the two collections is the one iterated. -/
def toFree (locs : List ℕ) : List ℕ :=
  if pool.slots.keys.length < locs.length then
    cfg.setOrder (pool.slots.keys.filter (· ∈ locs))
  else (cfg.setOrder locs).filter (· ∈ pool.slots.keys)

theorem toFree_subset {cfg : Config} {pool : SlotPool ℕ} {locs : List ℕ} {chunk : ℕ}
    (mem : chunk ∈ toFree cfg pool locs) : chunk ∈ locs := by
  unfold toFree at mem
  split_ifs at mem
  · have := (cfg.setOrder_perm _).mem_iff.mp mem
    simpa using (mem_filter.mp this).2
  · exact (cfg.setOrder_perm _).mem_iff.mp (mem_filter.mp mem).1

/-- The pages of a set of locations that own a block, in the order they are freed. -/
def pagesToFree (locs : List ℕ) : List ℕ :=
  (cfg.setOrder ((cfg.setOrder locs).map (· / c4PageSize)).dedup).filter (· ∈ pool.slots.keys)

theorem mem_pagesToFree {cfg : Config} {pool : SlotPool ℕ} {locs : List ℕ} {page : ℕ} :
    page ∈ pagesToFree cfg pool locs ↔
      (∃ chunk ∈ locs, chunk / c4PageSize = page) ∧ page ∈ pool.slots.keys := by
  simp only [pagesToFree, mem_filter, (cfg.setOrder_perm _).mem_iff, mem_dedup,
    mem_map, decide_eq_true_eq]

theorem mem_pageCols {cfg : Config} {pages : List ℕ} {chunk : ℕ} (bound : chunk < cfg.mirrorChunks) :
    chunk ∈ pageCols cfg pages ↔ chunk / c4PageSize ∈ pages := by
  simp only [pageCols, mem_filter, mem_flatMap, mem_pageSpan, decide_eq_true_eq,
    lt_lutCols bound, and_true, exists_eq_right']

/-- `release_req_pool_locs`. -/
def releaseReqPoolLocs (poolLocs : List ℤ) : Engine α × ℕ :=
  let locs := (uniqueChunks poolLocs).filter (· < cfg.lutCols)
  if locs = [] then (engine, 0)
  else if cfg.pageRecall then
    let pages := pagesToFree cfg engine.gPages locs
    let engine := { engine with gPages := engine.gPages.release pages }
    (engine.clearCols (pageCols cfg pages), pages.length)
  else if cfg.globalMode then
    let freed := toFree cfg engine.gCells locs
    let engine := { engine with gCells := engine.gCells.release freed }
    (engine.clearCols locs, freed.length)
  else
    let freed := fun layer => toFree cfg (engine.cells layer) locs
    let engine := { engine with cells := fun layer => (engine.cells layer).release (freed layer) }
    (engine.clearCols locs,
      (List.range cfg.c4LayerNum).foldl (fun total layer => total + (freed layer).length) 0)

/-- `record_owned_pages`: pages accumulate over the recalls of a request. -/
def recordOwnedPages (reqPoolIdx : ℤ) (keptLocs : List ℤ) :
    Engine α :=
  if !(cfg.ownerRelease && cfg.pageRecall) || reqPoolIdx < 0 || keptLocs.isEmpty then engine
  else
    let current := cfg.setOrder (uniquePages keptLocs)
    let owned := match engine.reqOwnedPages.get? reqPoolIdx with
      | none => current
      | some owned => cfg.setOrder (owned ++ current.filter (· ∉ owned))
    { engine with reqOwnedPages := engine.reqOwnedPages.set reqPoolIdx owned }

/-- `release_owned_pages`. The entries of an owned page are dropped even when its block is gone. -/
def releaseOwnedPages (reqPoolIdx : ℤ) : Engine α × ℕ :=
  if !(cfg.ownerRelease && cfg.pageRecall) then (engine, 0)
  else
    let pages := (engine.reqOwnedPages.get? reqPoolIdx).getD []
    let freed := pages.filter (· ∈ engine.gPages.slots.keys)
    let engine :=
      { engine with
        reqOwnedPages := engine.reqOwnedPages.pop reqPoolIdx
        gPages := engine.gPages.release pages }
    (engine.clearCols (pageCols cfg pages), freed.length)

/-- `reclaim_orphans_global`: free the cells of the chunks whose residency bit is off. -/
def reclaimOrphansGlobal (residentMask : List Bool) : Engine α × ℕ :=
  if !cfg.globalMode then (engine, 0)
  else
    let dead := engine.gCells.slots.keys.filter fun chunk =>
      !residentMask.getD (min chunk (residentMask.length - 1)) false
    let engine := { engine with gCells := engine.gCells.release dead }
    (engine.clearCols (dead.filter (· < cfg.lutCols)), dead.length)

end FlashMemory.Engine
