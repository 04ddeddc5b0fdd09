import FlashMemory.Soundness.GlobalCache

/-! # The page allocator keeps a coherent cache

Under page recall a chunk owns the cell at its own offset in the block of its page. `PageCache`
collects what holds of the page allocator under every gate: blocks and free blocks partition the
blocks below the high-water mark, pages are pages of the mirror, and entries below `decode_base`
agree with the ownership. It says nothing about pages being resident as a whole.
-/

namespace FlashMemory.Engine

open SlotPool

variable {α : Type*} {cfg : Config} {engine after : Engine α} {locs : List ℤ} {stale stale' : ℕ → Prop}

/-- The cell a chunk owns through the block of its page. -/
def pageOwner (pool : SlotPool ℕ) (chunk : ℕ) : Option ℕ :=
  (pool.slots.get? (chunk / c4PageSize)).map fun block => block * c4PageSize + chunk % c4PageSize

theorem pageOwner_eq_some {pool : SlotPool ℕ} {chunk cell : ℕ} :
    pageOwner pool chunk = some cell ↔ ∃ block, pool.slots.get? (chunk / c4PageSize) = some block ∧
      block * c4PageSize + chunk % c4PageSize = cell := by
  simp only [pageOwner, Option.map_eq_some_iff]

theorem pageOwner_exclusive {cap : ℕ} {pool : SlotPool ℕ} (valid : pool.WellFormed cap) :
    Exclusive (pageOwner pool) := by
  intro first second cell left right
  obtain ⟨block, found, rfl⟩ := pageOwner_eq_some.mp left
  obtain ⟨block', found', same⟩ := pageOwner_eq_some.mp right
  simp only [c4PageSize] at found found' same
  have blocks : block' = block := by omega
  subst blocks
  have pages := valid.injective found found'
  omega

structure PageCache (cfg : Config) (stale : ℕ → Prop) (engine : Engine α) : Prop where
  pool : engine.gPages.WellFormed cfg.maxBlocks
  inRange : ∀ page ∈ engine.gPages.slots.keys, page < cfg.nLogicalPages
  coherent : engine.GlobalCoherent cfg (pageOwner engine.gPages) stale

namespace PageCache

theorem init (cfg : Config) (stale : ℕ → Prop) (zero : α) (gFull : Option Bool) :
    PageCache cfg stale { Engine.init zero with gFull := gFull } :=
  ⟨fresh_wellFormed _, fun _ mem => by simp [Engine.init, fresh] at mem,
    GlobalCoherent.init _ _ zero⟩

section

variable (cache : PageCache cfg stale engine)

include cache

/-- A chunk that owns a cell is a chunk of the mirror. -/
theorem owned_lt {chunk cell : ℕ} (owned : pageOwner engine.gPages chunk = some cell) : chunk < cfg.mirrorChunks := by
  obtain ⟨block, found, _⟩ := pageOwner_eq_some.mp owned
  exact chunk_lt_of_page (cache.inRange _ (OrderedDict.mem_keys_of_get? found)) rfl

theorem afterRecall (ranged : LocsInRange cfg locs) : PageCache cfg stale (engine.recallGlobalPages cfg locs).1 := by
  obtain ⟨pairs, spec⟩ := recallGlobalPages_spec cache.pool ranged
  have valid : (engine.pageServing cfg locs).pool.WellFormed cfg.maxBlocks :=
    serve_wellFormed cache.pool
  refine ⟨spec.gPages ▸ valid, ?_, ?_⟩
  · rw [spec.gPages]
    exact forall_mem_keys_serve cache.inRange fun page requested =>
      lt_of_mem_uniquePages ranged (pageMisses_selected page requested)
  · rw [spec.gPages]
    refine cache.coherent.swap spec.swap (pageOwner_exclusive valid) ?_ ?_
    · rintro ⟨chunk, cell⟩ mem
      rcases spec.copied with rfl | ⟨rfl, _⟩
      · obtain ⟨item, served, _, inPage, place, _⟩ := (mem_recalledPairs ranged).mp mem
        exact pageOwner_eq_some.mpr ⟨item.slot, inPage ▸ (pageServing_served served).2, place.symm⟩
      · contradiction
    · intro layer chunk cell _ _ kept _ owned
      obtain ⟨block, found, place⟩ := pageOwner_eq_some.mp owned
      refine pageOwner_eq_some.mpr ⟨block, ?_, place⟩
      refine serve_get?_of_spared pageMisses_selected found fun evicted => kept ?_
      exact (mem_pageDrops (cache.owned_lt owned)).mpr evicted

/-- Blocks return to the free list only for pages whose entries are dropped. -/
theorem releasePages {freed pages : List ℕ} (covered : ∀ page ∈ freed, page ∈ pages)
    (blocks : after.gPages = engine.gPages.release freed)
    (cleared : after.chunkCellLut = (engine.clearCols (pageCols cfg pages)).chunkCellLut)
    (reserve : after.reserveBuf = engine.reserveBuf) (mirror : after.hostMirror = engine.hostMirror) :
    PageCache cfg stale after := by
  refine ⟨blocks ▸ release_wellFormed cache.pool freed, ?_, ?_⟩
  · exact fun page mem => cache.inRange page (keys_release_subset _ freed (blocks ▸ mem))
  · refine cache.coherent.drop cleared reserve (fun _ _ _ current => ⟨current, by rw [mirror]⟩) ?_
    intro chunk cell kept owned
    obtain ⟨block, found, place⟩ := pageOwner_eq_some.mp owned
    refine pageOwner_eq_some.mpr ⟨block, ?_, place⟩
    have outside : chunk / c4PageSize ∉ freed := fun mem =>
      kept ((mem_pageCols (cache.owned_lt owned)).mpr (covered _ mem))
    rw [blocks, get?_release, if_neg outside]
    exact found

theorem release (paged : cfg.pageRecall = true) (locs : List ℤ) :
    PageCache cfg stale (engine.releaseReqPoolLocs cfg locs).1 := by
  simp only [releaseReqPoolLocs, paged, ↓reduceIte]
  split_ifs
  · exact cache
  · exact cache.releasePages (fun _ => id) rfl rfl rfl rfl

theorem releaseOwned (reqPoolIdx : ℤ) : PageCache cfg stale (engine.releaseOwnedPages cfg reqPoolIdx).1 := by
  simp only [releaseOwnedPages]
  split_ifs
  · exact cache
  · exact cache.releasePages (fun _ => id) rfl rfl rfl rfl

theorem discard (pages : List ℤ)
    (still : ∀ chunk, chunk / c4PageSize ∉ mirrorPages cfg pages → ¬ stale' chunk → ¬ stale chunk) :
    PageCache cfg stale' (engine.discardCopiedPages cfg pages).1 :=
  ⟨cache.pool, cache.inRange, cache.coherent.clearPages rfl rfl (fun _ => mirrorPages_lt)
    fun _ chunk outside current => ⟨still chunk outside current, rfl⟩⟩

theorem storePrefill (layer : ℕ) {rows : List (ℕ × α)} (ranged : ∀ row ∈ rows, row.1 < cfg.mirrorChunks) :
    PageCache cfg stale (engine.storePrefillToMirror cfg layer rows) :=
  ⟨cache.pool, cache.inRange, cache.coherent.storePrefill ranged⟩

theorem storeDecode (layer : ℕ) (rows : List (DecodeRow α)) :
    PageCache cfg stale (engine.storeDecodeToReserve cfg layer rows) :=
  ⟨cache.pool, cache.inRange, cache.coherent.storeDecode layer rows⟩

theorem storeDecodeAllLayers (rows : List (DecodeRow (ℕ → α))) :
    PageCache cfg stale (engine.storeDecodeAllLayers cfg rows) :=
  storeDecodeAllLayers_rule (PageCache cfg stale) rows cache fun _ layer rows cache =>
    cache.storeDecode layer rows

theorem register (reqPoolIdx prefillChunks : ℤ) :
    PageCache cfg stale (engine.registerDecodeReq cfg reqPoolIdx prefillChunks) := by
  simp only [registerDecodeReq]
  split_ifs <;> exact ⟨cache.pool, cache.inRange, cache.coherent⟩

theorem recordOwned (reqPoolIdx : ℤ) (locs : List ℤ) :
    PageCache cfg stale (engine.recordOwnedPages cfg reqPoolIdx locs) := by
  simp only [recordOwnedPages]
  split_ifs <;> exact ⟨cache.pool, cache.inRange, cache.coherent⟩

end

end PageCache

end FlashMemory.Engine
