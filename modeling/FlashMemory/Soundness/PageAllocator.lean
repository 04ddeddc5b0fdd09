import FlashMemory.Soundness.PageCache
import FlashMemory.Soundness.ChunkAllocator

/-! # Page recall with `LUT_TRUTH` heals itself

The page recall judges a page by the entry of its first chunk in layer 0. That is sound as long as
layers agree and pages come and go as a whole, which `WholePages` states: if the first chunk of a page
is mapped, all of its chunks are. Recalls, evictions, releases and discards move whole pages, and a
decode store adds entries only inside a page, never at its first chunk.

Under `LUT_TRUTH` a missed page is copied even when the allocator still has a block for it, so after a
recall of pages that fit every chunk of every selected page is mapped.
-/

namespace FlashMemory

open Engine

variable {α : Type*}

inductive PageOp (α : Type*) where
  | recallResident (locs : List ℤ)
  | discard (pages : List ℤ)
  | release (locs : List ℤ)
  | recordOwned (reqPoolIdx : ℤ) (locs : List ℤ)
  | releaseOwned (reqPoolIdx : ℤ)
  | register (reqPoolIdx prefillChunks : ℤ)
  | storeDecode (rows : List (DecodeRow (ℕ → α)))
  /-- The transfer engine writes pages of the mirror. -/
  | transfer (content : ℕ → ℕ → α) (pages : List ℕ)

/-- Recalled locations are in range, and stored chunks are not the first of their page. -/
def PageOp.Allowed (cfg : Config) : PageOp α → Prop
  | .recallResident locs => Engine.LocsInRange cfg locs
  | .storeDecode rows => ∀ row ∈ rows, 0 < row.c4OutLoc → row.c4OutLoc % (c4PageSize : ℤ) ≠ 0
  | _ => True

instance PageOp.decidableAllowed (cfg : Config) (op : PageOp α) : Decidable (op.Allowed cfg) := by
  cases op <;> dsimp only [Allowed] <;> infer_instance

def pageStep (cfg : Config) (state : TrackedEngine α) : PageOp α → TrackedEngine α
  | .recallResident locs => { state with engine := (state.engine.recallResidentGlobal cfg locs).1 }
  | .discard pages =>
    { engine := (state.engine.discardCopiedPages cfg pages).1
      pending := state.pending.filter (· ∉ Engine.mirrorPages cfg pages) }
  | .release locs => { state with engine := (state.engine.releaseReqPoolLocs cfg locs).1 }
  | .recordOwned idx locs => { state with engine := state.engine.recordOwnedPages cfg idx locs }
  | .releaseOwned idx => { state with engine := (state.engine.releaseOwnedPages cfg idx).1 }
  | .register idx chunks => { state with engine := state.engine.registerDecodeReq cfg idx chunks }
  | .storeDecode rows => { state with engine := state.engine.storeDecodeAllLayers cfg rows }
  | .transfer content pages =>
    { engine := state.engine.transferPages content pages, pending := state.pending ++ pages }

namespace Engine

variable {cfg : Config} {engine after : Engine α} {locs : List ℤ}

/-- The layers' tables agree, and a page whose first chunk is mapped to a cell of the given kind is
mapped as a whole. -/
structure WholePages (cfg : Config) (front : ℤ → Prop) (engine : Engine α) : Prop where
  uniform : ∀ layer < cfg.c4LayerNum, engine.chunkCellLut layer = engine.chunkCellLut 0
  whole : ∀ page < cfg.nLogicalPages, 0 ≤ engine.chunkCellLut 0 (page * c4PageSize) →
    front (engine.chunkCellLut 0 (page * c4PageSize)) →
    ∀ chunk, chunk / c4PageSize = page → 0 ≤ engine.chunkCellLut 0 chunk

theorem firstChunk_page (page : ℕ) : page * c4PageSize / c4PageSize = page :=
  Nat.mul_div_cancel _ (by decide)

/-- A selected page is never dropped by the recall that selects it. -/
theorem not_mem_pageDrops (ranged : LocsInRange cfg locs) {chunk : ℕ}
    (selected : chunk / c4PageSize ∈ uniquePages locs) :
    chunk ∉ pageDrops cfg (engine.pageServing cfg locs).evicted := by
  intro gone
  rw [mem_pageDrops (chunk_lt_of_page (lt_of_mem_uniquePages ranged selected) rfl)] at gone
  exact pageServing_evicted gone selected

section

variable {pairs : List (ℕ × ℕ)} (spec : PageRecall cfg engine after locs pairs)

include spec

/-- A copied page is mapped as a whole: the guard only drops chunks mapped into the decode region. -/
theorem PageRecall.copied_whole (ranged : LocsInRange cfg locs) (all : pairs = engine.recalledPairs cfg locs)
    {item : Served ℕ} (served : item ∈ (engine.pageServing cfg locs).served)
    (copied : cfg.lutTruth = true ∨ item.hit = false) {chunk : ℕ} (inPage : chunk / c4PageSize = item.key) :
    0 ≤ after.chunkCellLut 0 chunk := by
  rcases spec.swap.lut_cases 0 chunk with ⟨cell, _, value⟩ | ⟨unwritten, value⟩
  · rw [value]
    exact Int.natCast_nonneg _
  have selected := inPage ▸ pageMisses_selected _ (pageServing_served served).1
  rw [value, if_neg (not_mem_pageDrops ranged selected)]
  by_contra negative
  refine unwritten (item.slot * c4PageSize + chunk % c4PageSize) ?_
  rw [all, mem_recalledPairs ranged]
  refine ⟨item, served, copied, inPage, rfl, fun _ => ?_⟩
  have := Int.natCast_nonneg cfg.decodeBase
  omega

/-- Entries of a page that is not evicted stay mapped. -/
theorem PageRecall.kept {chunk : ℕ} (spared : chunk ∉ pageDrops cfg (engine.pageServing cfg locs).evicted)
    (mapped : 0 ≤ engine.chunkCellLut 0 chunk) : 0 ≤ after.chunkCellLut 0 chunk := by
  rcases spec.swap.lut_cases 0 chunk with ⟨cell, _, value⟩ | ⟨_, value⟩
  · rw [value]
    exact Int.natCast_nonneg _
  · rw [value, if_neg spared]
    exact mapped

/-- A missed page is copied if the selection fits, unless the allocator still has a block for it and
`LUT_TRUTH` is off. -/
theorem PageRecall.missed_mapped (valid : engine.gPages.WellFormed cfg.maxBlocks) (ranged : LocsInRange cfg locs)
    (fits : (uniquePages locs).length ≤ cfg.maxBlocks) {page chunk : ℕ}
    (missed : page ∈ engine.pageMisses cfg (uniquePages locs))
    (copied : cfg.lutTruth = true ∨ page ∉ engine.gPages.slots.keys) (inPage : chunk / c4PageSize = page) :
    0 ≤ after.chunkCellLut 0 chunk := by
  have enough : (engine.pageServing cfg locs).exhausted = false :=
    SlotPool.serve_not_exhausted pageMisses_selected valid fits
  have all : pairs = engine.recalledPairs cfg locs :=
    spec.copied.resolve_right fun ⟨_, _, stuck⟩ => by simp [enough] at stuck
  have served : page ∈ (engine.pageServing cfg locs).keys := by
    rw [pageServing, SlotPool.serve_keys_eq enough]
    exact missed
  obtain ⟨item, present, rfl⟩ := List.mem_map.mp served
  refine spec.copied_whole ranged all present (copied.imp_right fun unowned => ?_) inPage
  rw [← Bool.not_eq_true, SlotPool.serve_hit_iff pageMisses_selected ((uniquePages_nodup locs).filter _) present]
  exact unowned

/-- Every chunk of a selected page is mapped when the selection fits: a missed page is copied, and any
other page was mapped as a whole. -/
theorem PageRecall.selected_mapped {front : ℤ → Prop}
    (valid : engine.gPages.WellFormed cfg.maxBlocks) (whole : WholePages cfg front engine)
    (ranged : LocsInRange cfg locs) (fits : (uniquePages locs).length ≤ cfg.maxBlocks) {page chunk : ℕ}
    (selected : page ∈ uniquePages locs)
    (copied : page ∈ engine.pageMisses cfg (uniquePages locs) →
      cfg.lutTruth = true ∨ page ∉ engine.gPages.slots.keys)
    (infront : front (engine.chunkCellLut 0 (page * c4PageSize)))
    (inPage : chunk / c4PageSize = page) : 0 ≤ after.chunkCellLut 0 chunk := by
  by_cases missed : page ∈ engine.pageMisses cfg (uniquePages locs)
  · exact spec.missed_mapped valid ranged fits missed (copied missed) inPage
  · have bound := lt_of_mem_uniquePages ranged selected
    refine spec.kept (not_mem_pageDrops ranged (inPage ▸ selected)) ?_
    refine whole.whole page bound ?_ infront chunk inPage
    by_contra negative
    refine missed (List.mem_filter.mpr ⟨selected, ?_⟩)
    rw [clampCol_of_lt (chunk_lt_of_page bound (firstChunk_page page))]
    exact decide_eq_true (not_le.mp negative)

end

namespace WholePages

variable {front : ℤ → Prop}

theorem init (cfg : Config) (front : ℤ → Prop) (zero : α) (gFull : Option Bool) :
    WholePages cfg front { Engine.init zero with gFull := gFull } :=
  ⟨fun _ _ => rfl, fun _ _ mapped => by simp [Engine.init] at mapped⟩

theorem afterRecall {pairs : List (ℕ × ℕ)} (whole : WholePages cfg front engine)
    (spec : PageRecall cfg engine after locs pairs) (ranged : LocsInRange cfg locs) :
    WholePages cfg front after := by
  constructor
  · intro layer below
    rw [spec.swap.lut layer, spec.swap.lut 0, whole.uniform layer below]
  · intro page bound mapped infront chunk inPage
    have chunkBound := chunk_lt_of_page bound inPage
    have firstBound := chunk_lt_of_page bound (firstChunk_page page)
    rcases spec.swap.lut_cases 0 (page * c4PageSize) with ⟨cell, mem, _⟩ | ⟨_, value⟩
    · have all : pairs = engine.recalledPairs cfg locs := by
        rcases spec.copied with all | ⟨rfl, _⟩
        · exact all
        · contradiction
      rw [all, mem_recalledPairs ranged] at mem
      obtain ⟨item, served, copied, first, _⟩ := mem
      rw [firstChunk_page] at first
      exact spec.copied_whole ranged all served copied (inPage.trans first)
    · rw [value] at mapped infront
      split_ifs at mapped infront with gone
      · omega
      rw [mem_pageDrops firstBound, firstChunk_page] at gone
      refine spec.kept ?_ (whole.whole page bound mapped infront chunk inPage)
      rw [mem_pageDrops chunkBound, inPage]
      exact gone

variable (whole : WholePages cfg front engine)
include whole

/-- Whole pages are dropped together. -/
theorem clearPages {pages : List ℕ}
    (cleared : after.chunkCellLut = (engine.clearCols (pageCols cfg pages)).chunkCellLut) :
    WholePages cfg front after := by
  constructor
  · intro layer below
    funext chunk
    simp only [cleared, clearCols_lut, whole.uniform layer below]
  · intro page bound mapped infront chunk inPage
    simp only [cleared, clearCols_lut, mem_pageCols (chunk_lt_of_page bound (firstChunk_page page)),
      firstChunk_page] at mapped infront
    simp only [cleared, clearCols_lut, mem_pageCols (chunk_lt_of_page bound inPage), inPage]
    split_ifs at mapped infront ⊢
    · omega
    · exact whole.whole page bound mapped infront chunk inPage

theorem congr (same : after.chunkCellLut = engine.chunkCellLut) : WholePages cfg front after :=
  ⟨fun layer below => by rw [same, whole.uniform layer below], by rw [same]; exact whole.whole⟩

/-- A decode step only adds entries. At the first chunk of a page they must not be of the given kind. -/
theorem storeDecode (own : cfg.ownReserve = true)
    {rows : List (DecodeRow (ℕ → α))}
    (outside : ∀ row ∈ rows, ∀ page < cfg.nLogicalPages, engine.stepCol cfg row = page * c4PageSize →
      ¬ front (engine.stepCell cfg row)) :
    WholePages cfg front (engine.storeDecodeAllLayers cfg rows) := by
  constructor
  · intro layer below
    have someLayer : 0 < cfg.c4LayerNum := Nat.lt_of_le_of_lt (Nat.zero_le _) below
    simp only [storeDecodeAllLayers_lut, below, someLayer, ↓reduceIte, whole.uniform layer below]
  · intro page bound mapped infront chunk inPage
    rcases storeDecodeAllLayers_lut_cases cfg engine rows 0 (page * c4PageSize) with
      ⟨_, row, mem, column, value⟩ | ⟨_, value⟩
    · rw [value] at infront
      exact absurd infront (outside row mem page bound column)
    rw [value] at mapped infront
    rcases storeDecodeAllLayers_lut_cases cfg engine rows 0 chunk with
      ⟨_, row, _, _, entry⟩ | ⟨_, entry⟩
    · rw [entry]
      exact decodeCell_nonneg own _
    · rw [entry]
      exact whole.whole page bound mapped infront chunk inPage

end WholePages

/-- A row stored inside a page does not enter the column of a first chunk. -/
private theorem stepCol_ne_firstChunk {row : DecodeRow (ℕ → α)}
    (inside : 0 < row.c4OutLoc → row.c4OutLoc % (c4PageSize : ℤ) ≠ 0) {page : ℕ}
    (bound : page < cfg.nLogicalPages) : engine.stepCol cfg row ≠ page * c4PageSize := by
  intro column
  have firstBound := chunk_lt_of_page bound (firstChunk_page page)
  obtain ⟨valid, atFirst⟩ := c4OutLoc_of_decodeCol firstBound column
  have formed : 0 < row.c4OutLoc := valid.1
  have offset := inside formed
  simp only [atLayer, c4PageSize] at atFirst offset
  omega

end Engine

/-- What the page allocator maintains along a history. -/
structure PageInv (cfg : Config) (state : TrackedEngine α) : Prop where
  cache : state.engine.PageCache cfg (fun chunk => chunk / c4PageSize ∈ state.pending)
  whole : state.engine.WholePages cfg fun _ => True

theorem PageInv.step {cfg : Config} {state : TrackedEngine α} (own : cfg.ownReserve = true)
    (paged : cfg.pageRecall = true) (inv : PageInv cfg state) {op : PageOp α} (allowed : op.Allowed cfg) :
    PageInv cfg (pageStep cfg state op) := by
  obtain ⟨cache, whole⟩ := inv
  cases op with
  | recallResident locs =>
    simp only [pageStep, recallResidentGlobal, paged, ↓reduceIte]
    obtain ⟨pairs, spec⟩ := recallGlobalPages_spec cache.pool allowed
    exact ⟨cache.afterRecall allowed, whole.afterRecall spec allowed⟩
  | discard pages =>
    refine ⟨cache.discard pages fun chunk outside current pending => current ?_, whole.clearPages rfl⟩
    exact List.mem_filter.mpr ⟨pending, decide_eq_true outside⟩
  | release locs =>
    refine ⟨cache.release paged locs, ?_⟩
    simp only [pageStep, releaseReqPoolLocs, paged, ↓reduceIte]
    split_ifs
    · exact whole
    · exact whole.clearPages rfl
  | recordOwned idx locs =>
    refine ⟨cache.recordOwned idx locs, whole.congr ?_⟩
    simp only [pageStep, recordOwnedPages]
    split_ifs <;> rfl
  | releaseOwned idx =>
    refine ⟨cache.releaseOwned idx, ?_⟩
    simp only [pageStep, releaseOwnedPages]
    split_ifs
    · exact whole
    · exact whole.clearPages rfl
  | register idx chunks =>
    refine ⟨cache.register idx chunks, whole.congr ?_⟩
    simp only [pageStep, registerDecodeReq]
    split_ifs <;> rfl
  | storeDecode rows =>
    refine ⟨cache.storeDecodeAllLayers rows, whole.storeDecode own fun row mem page bound column => ?_⟩
    exact absurd column (stepCol_ne_firstChunk (allowed row mem) bound)
  | transfer content pages =>
    exact ⟨⟨cache.pool, cache.inRange, cache.coherent.transfer content fun chunk current =>
      not_or.mp fun either => current (List.mem_append.mpr either)⟩, whole.congr rfl⟩

/-- After every history the blocks are partitioned, and a recall of pages that fit maps every chunk of
every selected page in every layer: into the decode region, or to its place in the page's block,
which holds the mirror's bytes unless the page was transferred and not yet discarded. -/
theorem page_recall_self_heals {cfg : Config} (own : cfg.ownReserve = true)
    (paged : cfg.pageRecall = true) (truth : cfg.lutTruth = true) (zero : α) (gFull : Option Bool)
    (history : List (PageOp α)) (allowed : ∀ op ∈ history, op.Allowed cfg) :
    let state := run (pageStep cfg) (freshTracked zero gFull) history
    (state.engine.gPages.slots.values ++ state.engine.gPages.free).Nodup ∧
    (∀ block, block ∈ state.engine.gPages.slots.values ++ state.engine.gPages.free ↔
      block < state.engine.gPages.next) ∧
    ∀ kept : List ℤ, Engine.LocsInRange cfg kept → (uniquePages kept).length ≤ cfg.maxBlocks →
      let after := (state.engine.recallResidentGlobal cfg kept).1
      ∀ layer < cfg.c4LayerNum, ∀ page ∈ uniquePages kept, ∀ offset < c4PageSize,
        let cell := after.chunkCellLut layer (page * c4PageSize + offset)
        0 ≤ cell ∧ (cell < cfg.decodeBase → ∃ block, after.gPages.slots.get? page = some block ∧
          cell = (block * c4PageSize + offset : ℕ) ∧ (page ∉ state.pending →
            after.reserveBuf layer (block * c4PageSize + offset) =
              after.hostMirror layer (page * c4PageSize + offset))) := by
  intro state
  have inv : PageInv cfg state := (along_of_forall allowed).invariant
    ⟨PageCache.init cfg _ zero gFull, WholePages.init cfg _ zero gFull⟩
    fun _ _ inv allowed => inv.step own paged allowed
  refine ⟨inv.cache.pool.nodup, fun block => inv.cache.pool.partition.mem_iff.trans List.mem_range, ?_⟩
  intro kept ranged fits after layer below page selected offset bound cell
  obtain ⟨pairs, spec⟩ : ∃ pairs, PageRecall cfg state.engine after kept pairs := by
    simp only [after, recallResidentGlobal, paged, ↓reduceIte]
    exact recallGlobalPages_spec inv.cache.pool ranged
  have next : PageInv cfg { state with engine := after } :=
    inv.step own paged (show (PageOp.recallResident kept : PageOp α).Allowed cfg from ranged)
  have inPage : (page * c4PageSize + offset) / c4PageSize = page := by
    simp only [c4PageSize] at bound ⊢
    omega
  have mapped := spec.selected_mapped inv.cache.pool inv.whole ranged fits selected
    (fun _ => Or.inl truth) trivial inPage
  have uniform : cell = after.chunkCellLut 0 (page * c4PageSize + offset) :=
    congrFun (next.whole.uniform layer below) _
  refine ⟨uniform ▸ mapped, fun recalled => ?_⟩
  obtain ⟨slot, points⟩ := Int.eq_ofNat_of_zero_le (uniform ▸ mapped : 0 ≤ cell)
  have inside : slot < cfg.decodeBase := by omega
  obtain ⟨block, found, place⟩ :=
    pageOwner_eq_some.mp ((next.cache.coherent layer).owned _ slot points inside)
  have offsetEq : (page * c4PageSize + offset) % c4PageSize = offset := by
    simp only [c4PageSize] at bound ⊢
    omega
  rw [inPage] at found
  rw [offsetEq] at place
  refine ⟨block, found, points.trans (congrArg _ place.symm), fun current => ?_⟩
  rw [place]
  exact (next.cache.coherent layer).fresh _ slot points inside (inPage.symm ▸ current)

/-- One block: a page is recalled, rewritten by a transfer, and gains a decode chunk. -/
def pageHistory : List (PageOp ℕ) :=
  [.transfer (fun layer chunk => 1000 * layer + chunk) [1], .discard [1], .recallResident [64], .recallResident [130],
    .transfer (fun layer chunk => 2000 * layer + chunk) [1], .discard [1], .register 0 68,
    .storeDecode [⟨0, 70, none, fun _ => 5⟩]]

theorem page_recall_self_heals_on_history :
    let cfg := { Config.small 2 10 1 with globalMode := true, pageRecall := true, lutTruth := true }
    let state := run (pageStep cfg) (freshTracked 0 none) pageHistory
    let cell := (state.engine.recallResidentGlobal cfg [65]).1.chunkCellLut 1 (1 * c4PageSize + 3)
    0 ≤ cell :=
  ((page_recall_self_heals rfl rfl rfl 0 none pageHistory (by decide)).2.2 [65] (by decide) (by decide)
    1 (by decide) 1 (by decide) 3 (by decide)).1

end FlashMemory
