import FlashMemory.Soundness.PageAllocator
import FlashMemory.Soundness.Requests

/-! # Calls that keep pages mapped

The page recall looks at the first chunk of a page only. If that chunk is mapped into the recall
region, a recall put it there together with the rest of the page, and the whole page is still mapped:
`PagesSettled` says so, and every call keeps it, a decode store at the first chunk of a page included. For
each call the pages are named whose chunks it may unmap; on all others `Spares` holds.
-/

namespace FlashMemory.Engine

variable {α : Type*} {cfg : Config} {before middle after engine : Engine α} {safe : ℕ → Prop}

structure PagesSettled (cfg : Config) (engine : Engine α) : Prop where
  pool : engine.gPages.WellFormed cfg.maxBlocks
  pages : engine.WholePages cfg (· < cfg.decodeBase)

/-- The call keeps the tables settled, and the entries of the safe pages as they are, in every layer. -/
structure Untouched (cfg : Config) (safe : ℕ → Prop) (before after : Engine α) : Prop where
  settled : PagesSettled cfg before → PagesSettled cfg after
  entries : ∀ layer, ∀ chunk < cfg.mirrorChunks, safe (chunk / c4PageSize) →
    after.chunkCellLut layer chunk = before.chunkCellLut layer chunk

/-- The call keeps the tables settled and the chunks of the safe pages mapped. -/
structure Spares (cfg : Config) (safe : ℕ → Prop) (before after : Engine α) : Prop where
  settled : PagesSettled cfg before → PagesSettled cfg after
  mapped : ∀ chunk < cfg.mirrorChunks, safe (chunk / c4PageSize) →
    0 ≤ before.chunkCellLut 0 chunk → 0 ≤ after.chunkCellLut 0 chunk

namespace Untouched

theorem trans (first : Untouched cfg safe before middle) (second : Untouched cfg safe middle after) :
    Untouched cfg safe before after :=
  ⟨second.settled ∘ first.settled, fun layer chunk bound kept =>
    (second.entries layer chunk bound kept).trans (first.entries layer chunk bound kept)⟩

theorem spares (untouched : Untouched cfg safe before after) : Spares cfg safe before after :=
  ⟨untouched.settled, fun chunk bound kept mapped => by rwa [untouched.entries 0 chunk bound kept]⟩

/-- A call that moves no entry and no block. -/
theorem congr (lut : after.chunkCellLut = before.chunkCellLut) (pool : after.gPages = before.gPages) :
    Untouched cfg safe before after :=
  ⟨fun settled => ⟨pool ▸ settled.pool, settled.pages.congr lut⟩, fun _ _ _ _ => by rw [lut]⟩

theorem refl (cfg : Config) (safe : ℕ → Prop) (engine : Engine α) : Untouched cfg safe engine engine :=
  congr rfl rfl

/-- Dropping the entries of some pages leaves the others alone. -/
theorem clearPages {freed pages : List ℕ} (blocks : after.gPages = before.gPages.release freed)
    (cleared : after.chunkCellLut = (before.clearCols (pageCols cfg pages)).chunkCellLut)
    (outside : ∀ page, safe page → page ∉ pages) : Untouched cfg safe before after := by
  refine ⟨fun settled => ⟨?_, settled.pages.clearPages cleared⟩, fun layer chunk bound kept => ?_⟩
  · rw [blocks]
    exact SlotPool.release_wellFormed settled.pool freed
  · rw [cleared, clearCols_lut, if_neg]
    rw [mem_pageCols bound]
    exact outside _ kept

theorem release (paged : cfg.pageRecall = true) {locs : List ℤ}
    (outside : ∀ chunk : ℕ, (chunk : ℤ) ∈ locs → ¬ safe (chunk / c4PageSize)) :
    Untouched cfg safe engine (engine.releaseReqPoolLocs cfg locs).1 := by
  simp only [releaseReqPoolLocs, paged, ↓reduceIte]
  split_ifs
  · exact refl ..
  · refine clearPages rfl rfl fun page kept freed => ?_
    obtain ⟨⟨chunk, mem, rfl⟩, _⟩ := mem_pagesToFree.mp freed
    exact outside chunk (mem_uniqueChunks.mp (List.mem_filter.mp mem).1) kept

theorem releaseOwned {idx : ℤ}
    (outside : ∀ page ∈ (engine.reqOwnedPages.get? idx).getD [], ¬ safe page) :
    Untouched cfg safe engine (engine.releaseOwnedPages cfg idx).1 := by
  simp only [releaseOwnedPages]
  split_ifs
  · exact refl ..
  · exact clearPages rfl rfl fun page kept owned => outside page owned kept

/-- Admission unmaps the pages of the prompt only. -/
theorem commit {before : Engine Stamp} {req : Request} (outside : ∀ page ∈ req.pages, ¬ safe page) :
    Untouched cfg safe before (Server.commitEngine cfg before req) := by
  have pool : (Server.commitEngine cfg before req).gPages = before.gPages.release [] := by
    simp only [Server.commitEngine, registerDecodeReq]
    split_ifs <;> rfl
  refine clearPages pool Server.commitEngine_lut fun page kept mem => ?_
  have bound := mirrorPages_lt mem
  exact outside page (List.mem_of_mem_take ((Server.mem_mirrorPages bound).mp mem)) kept

end Untouched

namespace Spares

theorem trans (first : Spares cfg safe before middle) (second : Spares cfg safe middle after) :
    Spares cfg safe before after :=
  ⟨second.settled ∘ first.settled, fun chunk bound kept mapped =>
    second.mapped chunk bound kept (first.mapped chunk bound kept mapped)⟩

/-- A decode step unmaps nothing, and a first chunk it maps is in the decode region. -/
theorem storeDecode (own : cfg.ownReserve = true) (rows : List (DecodeRow (ℕ → α))) :
    Spares cfg safe engine (engine.storeDecodeAllLayers cfg rows) := by
  refine ⟨fun settled => ⟨?_, settled.pages.storeDecode own ?_⟩, ?_⟩
  · rw [storeDecodeAllLayers_gPages]
    exact settled.pool
  · intro row _ page _ _ below
    have above := decodeBase_le_decodeCell cfg engine (atLayer row 0)
    have nonneg : 0 ≤ engine.decodeCell cfg (atLayer row 0) := decodeCell_nonneg own _
    simp only [stepCell] at below
    omega
  · intro chunk _ _ mapped
    rcases storeDecodeAllLayers_lut_cases cfg engine rows 0 chunk with ⟨_, row, _, _, entry⟩ | ⟨_, entry⟩
    · rw [entry]
      exact decodeCell_nonneg own _
    · rwa [entry]

/-- A recall unmaps the pages it evicts. -/
theorem afterRecall {locs : List ℤ} {pairs : List (ℕ × ℕ)} (spec : PageRecall cfg before after locs pairs)
    (ranged : LocsInRange cfg locs)
    (outside : ∀ page ∈ before.gPages.victims cfg.maxBlocks (uniquePages locs)
      (before.pageMisses cfg (uniquePages locs)), ¬ safe page) : Spares cfg safe before after := by
  refine ⟨fun settled => ⟨?_, settled.pages.afterRecall spec ranged⟩, fun chunk bound kept mapped => ?_⟩
  · rw [spec.gPages]
    exact SlotPool.serve_wellFormed settled.pool
  · refine spec.kept (fun gone => ?_) mapped
    rw [mem_pageDrops bound, pageServing_evicted_eq] at gone
    exact outside _ gone kept

end Spares

end FlashMemory.Engine
