import FlashMemory.Soundness.GlobalCache

/-! # The chunk allocator keeps a coherent cache

With chunk granularity the owner map is the allocator's own: cells and free cells partition the cells
below the high-water mark, owned chunks are chunks of the mirror, and every entry below `decode_base`
names the cell its chunk owns.
-/

namespace FlashMemory.Engine

open SlotPool

variable {α : Type*} {cfg : Config} {engine after : Engine α} {locs : List ℤ} {stale stale' : ℕ → Prop}

structure ChunkCache (cfg : Config) (stale : ℕ → Prop) (engine : Engine α) : Prop where
  pool : engine.gCells.WellFormed cfg.recallCellCapacity
  inRange : ∀ chunk ∈ engine.gCells.slots.keys, chunk < cfg.mirrorChunks
  coherent : engine.GlobalCoherent cfg engine.gCells.slots.get? stale

namespace ChunkCache

theorem init (cfg : Config) (stale : ℕ → Prop) (zero : α) (gFull : Option Bool) :
    ChunkCache cfg stale { Engine.init zero with gFull := gFull } :=
  ⟨fresh_wellFormed _, fun _ mem => by simp [Engine.init, fresh] at mem,
    GlobalCoherent.init _ _ zero⟩

section

variable (cache : ChunkCache cfg stale engine)

include cache

theorem afterRecall (ranged : LocsInRange cfg locs) : ChunkCache cfg stale (engine.recallGlobal cfg locs).1 := by
  obtain ⟨pairs, spec⟩ := recallGlobal_spec cache.pool ranged
  have valid : (engine.chunkServing cfg locs).pool.WellFormed cfg.recallCellCapacity :=
    serve_wellFormed cache.pool
  refine ⟨spec.gCells ▸ valid, ?_, ?_⟩
  · rw [spec.gCells]
    exact forall_mem_keys_serve cache.inRange fun chunk requested =>
      lt_of_mem_uniqueChunks ranged (chunkOrder_selected chunk requested)
  · rw [spec.gCells]
    refine cache.coherent.swap spec.swap (fun _ _ _ left right => valid.injective left right) ?_ ?_
    · rintro ⟨chunk, cell⟩ mem
      rcases spec.copied with rfl | ⟨rfl, _⟩
      · exact (mem_chunkPairs mem).2
      · contradiction
    · intro layer chunk cell _ _ kept _ owned
      refine serve_get?_of_spared chunkOrder_selected owned fun evicted =>
        kept (List.mem_filter.mpr ⟨evicted, ?_⟩)
      exact decide_eq_true (lt_lutCols (cache.inRange chunk (OrderedDict.mem_keys_of_get? owned)))

/-- Cells go back to the free list only for chunks whose entries are dropped. -/
theorem releaseCells {freed cols : List ℕ} (covered : ∀ chunk ∈ freed, chunk < cfg.mirrorChunks → chunk ∈ cols)
    (cells : after.gCells = engine.gCells.release freed)
    (cleared : after.chunkCellLut = (engine.clearCols cols).chunkCellLut)
    (reserve : after.reserveBuf = engine.reserveBuf)
    (mirror : after.hostMirror = engine.hostMirror) : ChunkCache cfg stale after := by
  refine ⟨cells ▸ release_wellFormed cache.pool freed, ?_, ?_⟩
  · exact fun chunk mem => cache.inRange chunk (keys_release_subset _ freed (cells ▸ mem))
  · refine cache.coherent.drop cleared reserve (fun _ _ _ current => ⟨current, by rw [mirror]⟩) ?_
    intro chunk cell kept owned
    have inside := cache.inRange chunk (OrderedDict.mem_keys_of_get? owned)
    rw [cells, get?_release, if_neg fun gone => kept (covered chunk gone inside)]
    exact owned

theorem discard (pages : List ℤ)
    (still : ∀ chunk, chunk / c4PageSize ∉ mirrorPages cfg pages → ¬ stale' chunk → ¬ stale chunk) :
    ChunkCache cfg stale' (engine.discardCopiedPages cfg pages).1 :=
  ⟨cache.pool, cache.inRange, cache.coherent.clearPages rfl rfl (fun _ => mirrorPages_lt)
    fun _ chunk outside current => ⟨still chunk outside current, rfl⟩⟩

theorem ingest (source : ℕ → ℕ → α) (pages : List ℤ) :
    ChunkCache cfg stale (engine.ingestTransferredHistory cfg source pages).1 :=
  ⟨cache.pool, cache.inRange, cache.coherent.clearPages rfl rfl (fun _ => mirrorPages_lt)
    fun _ _ outside current => ⟨current, if_neg outside⟩⟩

theorem reclaim (mask : List Bool) : ChunkCache cfg stale (engine.reclaimOrphansGlobal cfg mask).1 := by
  simp only [reclaimOrphansGlobal]
  split_ifs
  · exact cache
  · refine cache.releaseCells (fun chunk mem inside => ?_) rfl rfl rfl rfl
    exact List.mem_filter.mpr ⟨mem, decide_eq_true (lt_lutCols inside)⟩

theorem release (global : cfg.globalMode = true) (chunkGranular : cfg.pageRecall = false) (locs : List ℤ) :
    ChunkCache cfg stale (engine.releaseReqPoolLocs cfg locs).1 := by
  simp only [releaseReqPoolLocs, global, chunkGranular, Bool.false_eq_true, ↓reduceIte]
  split_ifs
  · exact cache
  · exact cache.releaseCells (fun _ mem _ => toFree_subset mem) rfl rfl rfl rfl

theorem storePrefill (layer : ℕ) {rows : List (ℕ × α)} (ranged : ∀ row ∈ rows, row.1 < cfg.mirrorChunks) :
    ChunkCache cfg stale (engine.storePrefillToMirror cfg layer rows) :=
  ⟨cache.pool, cache.inRange, cache.coherent.storePrefill ranged⟩

theorem storeDecode (layer : ℕ) (rows : List (DecodeRow α)) :
    ChunkCache cfg stale (engine.storeDecodeToReserve cfg layer rows) :=
  ⟨cache.pool, cache.inRange, cache.coherent.storeDecode layer rows⟩

theorem register (reqPoolIdx prefillChunks : ℤ) :
    ChunkCache cfg stale (engine.registerDecodeReq cfg reqPoolIdx prefillChunks) := by
  simp only [registerDecodeReq]
  split_ifs <;> exact ⟨cache.pool, cache.inRange, cache.coherent⟩

end

end ChunkCache

end FlashMemory.Engine
