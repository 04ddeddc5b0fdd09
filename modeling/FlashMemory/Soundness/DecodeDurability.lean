import FlashMemory.Soundness.Swap
import FlashMemory.Soundness.DecodeStep
import FlashMemory.Model.Release
import FlashMemory.Collections.Run

/-! # How long a decode chunk stays where it was stored

A decode chunk lives in the reserve only, so dropping its table entry loses it. The calls that other
requests cause can drop it in four ways. An eviction or an orphan sweep works on the keys of an
allocator, and a key can be a page that a prefill chunk shares with the decode chunk, or a location
that was recalled before it was reused. A recall copies over a chunk that layer 0 does not map into
the decode region. And a store to another location can aim at the same cell.

When no call of a run does any of these, the entry and the bytes stay.
-/

namespace FlashMemory

open List SlotPool

variable {α : Type*}

inductive EngineCall (α : Type*) where
  | recallChunks (layer : ℕ) (locs : List ℤ)
  | recallResidentGlobal (locs : List ℤ)
  | storePrefill (layer : ℕ) (rows : List (ℕ × α))
  | storeDecode (layer : ℕ) (rows : List (DecodeRow α))
  | register (reqPoolIdx prefillChunks : ℤ)
  | discard (pages : List ℤ)
  | ingest (source : ℕ → ℕ → α) (pages : List ℤ)
  | release (locs : List ℤ)
  | recordOwned (reqPoolIdx : ℤ) (keptLocs : List ℤ)
  | releaseOwned (reqPoolIdx : ℤ)
  | reclaim (residentMask : List Bool)

namespace EngineCall

variable (cfg : Config) (engine : Engine α)

def InRange : EngineCall α → Prop
  | .recallChunks _ locs | .recallResidentGlobal locs => Engine.LocsInRange cfg locs
  | _ => True

/-- The call neither stores the location again in this layer nor gives up its page. -/
def LeavesAlone (layer chunk : ℕ) : EngineCall α → Prop
  | .storePrefill target rows => target = layer → chunk ∉ rows.map Prod.fst
  | .storeDecode target rows => target = layer → ∀ row ∈ rows, row.c4OutLoc ≠ chunk
  | .discard pages | .ingest _ pages => ((chunk / c4PageSize : ℕ) : ℤ) ∉ pages
  | .release locs => ∀ loc ∈ locs, 0 ≤ loc → loc.toNat / c4PageSize ≠ chunk / c4PageSize
  | .releaseOwned reqPoolIdx =>
    chunk / c4PageSize ∉ (engine.reqOwnedPages.get? reqPoolIdx).getD []
  | .recallChunks _ _ | .recallResidentGlobal _ | .register _ _ | .recordOwned _ _ | .reclaim _ => True

/-- A recall of single chunks neither evicts the chunk nor copies over it. -/
def ChunksSpare (chunk : ℕ) (locs : List ℤ) : Prop :=
  chunk ∉ engine.gCells.victims cfg.recallCellCapacity (uniqueChunks locs)
    (engine.layerMisses cfg 0 (uniqueChunks locs)) ∧
  ((chunk : ℤ) ∈ locs → 0 ≤ engine.chunkCellLut 0 chunk)

/-- A recall of pages neither evicts the chunk's page nor copies over the chunk. -/
def PagesSpare (chunk : ℕ) (locs : List ℤ) : Prop :=
  chunk / c4PageSize ∉ engine.gPages.victims cfg.maxBlocks (uniquePages locs)
    (engine.pageMisses cfg (uniquePages locs)) ∧
  (chunk / c4PageSize ∈ engine.pageMisses cfg (uniquePages locs) →
    cfg.lutTruth = true ∨ chunk / c4PageSize ∉ engine.gPages.slots.keys →
    cfg.ownReserve = true ∧ cfg.decodeBase ≤ engine.chunkCellLut 0 chunk)

/-- The call keeps away from a decode chunk and its cell. -/
def Spares (layer chunk cell : ℕ) : EngineCall α → Prop
  | .recallChunks _ locs => ChunksSpare cfg engine chunk locs
  | .recallResidentGlobal locs =>
    if cfg.pageRecall then PagesSpare cfg engine chunk locs else ChunksSpare cfg engine chunk locs
  | .storeDecode target rows =>
    target = layer → ∀ row ∈ rows, (engine.decodeCell cfg row).toNat ≠ cell
  | .reclaim residentMask => chunk ∈ engine.gCells.slots.keys →
    residentMask.getD (min chunk (residentMask.length - 1)) false = true
  | .storePrefill _ _ | .register _ _ | .discard _ | .ingest _ _ | .release _ | .recordOwned _ _
  | .releaseOwned _ => True

instance decidableChunksSpare (chunk : ℕ) (locs : List ℤ) :
    Decidable (ChunksSpare cfg engine chunk locs) := inferInstanceAs (Decidable (_ ∧ (_ → _)))

instance decidablePagesSpare (chunk : ℕ) (locs : List ℤ) :
    Decidable (PagesSpare cfg engine chunk locs) := inferInstanceAs (Decidable (_ ∧ (_ → _ → _)))

instance decidableAllowed (layer chunk cell : ℕ) (call : EngineCall α) :
    Decidable (call.InRange cfg ∧ call.LeavesAlone engine layer chunk ∧ call.Spares cfg engine layer chunk cell) := by
  cases call <;> dsimp only [InRange, LeavesAlone, Spares] <;> infer_instance

end EngineCall

/-- One call. A call that raises leaves the state in which it stopped. -/
def engineStep (cfg : Config) (engine : Engine α) : EngineCall α → Engine α
  | .recallChunks layer locs => (engine.recallChunks cfg layer locs).1
  | .recallResidentGlobal locs => (engine.recallResidentGlobal cfg locs).1
  | .storePrefill layer rows => engine.storePrefillToMirror cfg layer rows
  | .storeDecode layer rows => engine.storeDecodeToReserve cfg layer rows
  | .register reqPoolIdx prefillChunks => engine.registerDecodeReq cfg reqPoolIdx prefillChunks
  | .discard pages => (engine.discardCopiedPages cfg pages).1
  | .ingest source pages => (engine.ingestTransferredHistory cfg source pages).1
  | .release locs => (engine.releaseReqPoolLocs cfg locs).1
  | .recordOwned reqPoolIdx keptLocs => engine.recordOwnedPages cfg reqPoolIdx keptLocs
  | .releaseOwned reqPoolIdx => (engine.releaseOwnedPages cfg reqPoolIdx).1
  | .reclaim residentMask => (engine.reclaimOrphansGlobal cfg residentMask).1

namespace Engine

variable {cfg : Config} {engine after : Engine α} {locs : List ℤ}

/-! ## Both allocators stay well formed -/

structure PoolsValid (cfg : Config) (engine : Engine α) : Prop where
  cells : engine.gCells.WellFormed cfg.recallCellCapacity
  blocks : engine.gPages.WellFormed cfg.maxBlocks

theorem PoolsValid.init (cfg : Config) (zero : α) : PoolsValid cfg (Engine.init zero) :=
  ⟨fresh_wellFormed _, fresh_wellFormed _⟩

theorem PoolsValid.recallGlobal (valid : PoolsValid cfg engine) (ranged : LocsInRange cfg locs) :
    PoolsValid cfg (engine.recallGlobal cfg locs).1 := by
  obtain ⟨pairs, spec⟩ := recallGlobal_spec valid.cells ranged
  exact ⟨spec.gCells ▸ serve_wellFormed valid.cells, spec.gPages ▸ valid.blocks⟩

theorem PoolsValid.recallGlobalPages (valid : PoolsValid cfg engine) (ranged : LocsInRange cfg locs) :
    PoolsValid cfg (engine.recallGlobalPages cfg locs).1 := by
  obtain ⟨pairs, spec⟩ := recallGlobalPages_spec valid.blocks ranged
  exact ⟨spec.gCells ▸ valid.cells, spec.gPages ▸ serve_wellFormed valid.blocks⟩

theorem PoolsValid.step (global : cfg.globalMode = true) (valid : PoolsValid cfg engine)
    {call : EngineCall α} (ranged : call.InRange cfg) : PoolsValid cfg (engineStep cfg engine call) := by
  cases call with
  | recallChunks layer locs =>
    simpa only [engineStep, recallChunks, global, ↓reduceIte] using valid.recallGlobal ranged
  | recallResidentGlobal locs =>
    simp only [engineStep, recallResidentGlobal]
    split_ifs
    · exact valid.recallGlobalPages ranged
    · exact valid.recallGlobal ranged
  | register reqPoolIdx prefillChunks =>
    simp only [engineStep, registerDecodeReq]
    split_ifs <;> exact ⟨valid.cells, valid.blocks⟩
  | release locs =>
    simp only [engineStep, releaseReqPoolLocs]
    split_ifs
    · exact valid
    · exact ⟨valid.cells, release_wellFormed valid.blocks _⟩
    · exact ⟨release_wellFormed valid.cells _, valid.blocks⟩
  | recordOwned reqPoolIdx keptLocs =>
    simp only [engineStep, recordOwnedPages]
    split_ifs <;> exact ⟨valid.cells, valid.blocks⟩
  | releaseOwned reqPoolIdx =>
    simp only [engineStep, releaseOwnedPages]
    split_ifs
    · exact valid
    · exact ⟨valid.cells, release_wellFormed valid.blocks _⟩
  | reclaim residentMask =>
    simp only [engineStep, reclaimOrphansGlobal]
    split_ifs
    · exact valid
    · exact ⟨release_wellFormed valid.cells _, valid.blocks⟩
  | storePrefill _ _ | storeDecode _ _ | discard _ | ingest _ _ =>
    exact ⟨valid.cells, valid.blocks⟩

/-! ## The victims and the copies of a recall -/

private theorem chunkServing_evicted : (engine.chunkServing cfg locs).evicted =
    engine.gCells.victims cfg.recallCellCapacity (uniqueChunks locs)
      (engine.layerMisses cfg 0 (uniqueChunks locs)) := by
  have count : engine.gCells.missing (engine.chunkOrder cfg locs) =
      engine.gCells.missing (engine.layerMisses cfg 0 (uniqueChunks locs)) := by
    simp [missing, chunkOrder, filter_filter]
  rw [chunkServing, serve_evicted_eq chunkOrder_selected chunkOrder_nodup, victims,
    count, victims]

/-! ## A placed decode chunk -/

/-- The chunk is mapped to a cell of the decode region or above, which holds the given bytes. -/
structure Placed (cfg : Config) (layer chunk : ℕ) (cell : ℤ) (bytes : α) (engine : Engine α) : Prop where
  entry : engine.chunkCellLut layer chunk = cell
  held : engine.reserveBuf layer cell.toNat = bytes
  above : cfg.decodeBase ≤ cell.toNat

variable {layer chunk : ℕ} {cell : ℤ} {bytes : α} {dropped : List ℕ} {pairs : List (ℕ × ℕ)}

section

variable (placed : Placed cfg layer chunk cell bytes engine)

include placed

theorem Placed.frame (lut : after.chunkCellLut layer chunk = engine.chunkCellLut layer chunk)
    (reserve : after.reserveBuf layer cell.toNat = engine.reserveBuf layer cell.toNat) :
    Placed cfg layer chunk cell bytes after :=
  ⟨lut.trans placed.entry, reserve.trans placed.held, placed.above⟩

theorem Placed.swap (swap : Swap engine after dropped pairs) (below : ∀ pair ∈ pairs, pair.2 < cfg.decodeBase)
    (kept : chunk ∉ dropped) (uncopied : ∀ place, (chunk, place) ∉ pairs) :
    Placed cfg layer chunk cell bytes after := by
  apply placed.frame
  · rcases swap.lut_cases layer chunk with ⟨place, mem, _⟩ | ⟨_, value⟩
    · exact absurd mem (uncopied place)
    · rw [value, if_neg kept]
  · rcases swap.reserve_cases layer cell.toNat with ⟨pair, mem, same, _⟩ | ⟨_, value⟩
    · have := below pair mem
      have := placed.above
      omega
    · exact value

theorem Placed.recallGlobal (valid : PoolsValid cfg engine) (ranged : LocsInRange cfg locs)
    (spare : EngineCall.ChunksSpare cfg engine chunk locs) :
    Placed cfg layer chunk cell bytes (engine.recallGlobal cfg locs).1 := by
  obtain ⟨pairs, spec⟩ := recallGlobal_spec valid.cells ranged
  refine placed.swap spec.swap (spec.below valid.cells) (fun gone => ?_) (fun place mem => ?_)
  · rw [chunkServing_evicted] at gone
    exact spare.1 (mem_filter.mp gone).1
  · obtain ⟨selected, unmapped⟩ := mem_filter.mp (spec.missed mem)
    rw [clampCol_of_lt (lt_of_mem_uniqueChunks ranged selected), decide_eq_true_eq] at unmapped
    have := spare.2 (mem_uniqueChunks.mp selected)
    omega

theorem Placed.recallGlobalPages (valid : PoolsValid cfg engine) (ranged : LocsInRange cfg locs)
    (inMirror : chunk < cfg.mirrorChunks) (spare : EngineCall.PagesSpare cfg engine chunk locs) :
    Placed cfg layer chunk cell bytes (engine.recallGlobalPages cfg locs).1 := by
  obtain ⟨pairs, spec⟩ := recallGlobalPages_spec valid.blocks ranged
  refine placed.swap spec.swap (spec.below valid.blocks ranged) (fun gone => ?_) (fun place mem => ?_)
  · rw [mem_pageDrops inMirror, pageServing_evicted_eq] at gone
    exact spare.1 gone
  · exact spec.uncopied ranged spare.2 place mem

theorem Placed.clearCols {cols : List ℕ} (kept : chunk ∉ cols)
    (lut : after.chunkCellLut = (engine.clearCols cols).chunkCellLut) (reserve : after.reserveBuf = engine.reserveBuf) :
    Placed cfg layer chunk cell bytes after := by
  apply placed.frame
  · rw [lut, clearCols_lut, if_neg kept]
  · rw [reserve]

theorem Placed.storeDecode (inMirror : chunk < cfg.mirrorChunks) {target : ℕ} {rows : List (DecodeRow α)}
    (elsewhere : target = layer → ∀ row ∈ rows, row.c4OutLoc ≠ chunk)
    (apart : target = layer → ∀ row ∈ rows, (engine.decodeCell cfg row).toNat ≠ cell.toNat) :
    Placed cfg layer chunk cell bytes (engine.storeDecodeToReserve cfg target rows) := by
  apply placed.frame
  · rcases engine.storeDecodeToReserve_lut cfg rows target layer chunk with
      ⟨same, row, mem, column, _⟩ | ⟨_, value⟩
    · exact absurd (c4OutLoc_of_decodeCol inMirror column).2 (elsewhere same.symm row mem)
    · exact value
  · rcases engine.storeDecodeToReserve_reserve cfg rows target layer cell.toNat with
      ⟨same, row, mem, place, _⟩ | ⟨_, value⟩
    · exact absurd place (apart same.symm row mem)
    · exact value

theorem Placed.release (inMirror : chunk < cfg.mirrorChunks)
    (foreign : ∀ loc ∈ locs, 0 ≤ loc → loc.toNat / c4PageSize ≠ chunk / c4PageSize) :
    Placed cfg layer chunk cell bytes (engine.releaseReqPoolLocs cfg locs).1 := by
  have spared : ∀ loc ∈ (uniqueChunks locs).filter (· < cfg.lutCols),
      loc / c4PageSize ≠ chunk / c4PageSize := fun loc mem =>
    foreign loc (mem_uniqueChunks.mp (mem_filter.mp mem).1) (Int.natCast_nonneg loc)
  simp only [releaseReqPoolLocs]
  split_ifs
  · exact placed
  · refine placed.clearCols (fun gone => ?_) rfl rfl
    obtain ⟨⟨loc, mem, same⟩, _⟩ := mem_pagesToFree.mp ((mem_pageCols inMirror).mp gone)
    exact spared loc mem same
  all_goals exact placed.clearCols (fun gone => spared chunk gone rfl) rfl rfl

end

theorem Placed.step (global : cfg.globalMode = true) (valid : PoolsValid cfg engine)
    (placed : Placed cfg layer chunk cell bytes engine) (inMirror : chunk < cfg.mirrorChunks)
    {call : EngineCall α} (ranged : call.InRange cfg) (aside : call.LeavesAlone engine layer chunk)
    (spares : call.Spares cfg engine layer chunk cell.toNat) :
    Placed cfg layer chunk cell bytes (engineStep cfg engine call) := by
  have notListed : ∀ {pages : List ℤ}, ((chunk / c4PageSize : ℕ) : ℤ) ∉ pages →
      chunk ∉ pageCols cfg (mirrorPages cfg pages) := fun absent mem =>
    absent (mem_uniqueChunks.mp (mem_filter.mp ((mem_pageCols inMirror).mp mem)).1)
  cases call with
  | recallChunks hint locs =>
    simpa only [engineStep, recallChunks, global, ↓reduceIte] using placed.recallGlobal valid ranged spares
  | recallResidentGlobal locs =>
    simp only [engineStep, recallResidentGlobal]
    simp only [EngineCall.Spares] at spares
    split_ifs at spares ⊢
    · exact placed.recallGlobalPages valid ranged inMirror spares
    · exact placed.recallGlobal valid ranged spares
  | storePrefill target rows =>
    refine placed.frame ?_ rfl
    by_cases same : target = layer
    · subst same
      have unwritten := aside rfl
      simp only [engineStep, storePrefillToMirror, Function.update_self]
      refine if_neg fun mem => unwritten ?_
      exact mem_keys_keepLast.mp (mem_filter.mp mem).1
    · simp only [engineStep, storePrefillToMirror, Function.update_of_ne (Ne.symm same)]
  | storeDecode target rows => exact placed.storeDecode inMirror aside spares
  | register reqPoolIdx prefillChunks =>
    simp only [engineStep, registerDecodeReq]
    split_ifs <;> exact placed.frame rfl rfl
  | discard pages => exact placed.clearCols (notListed aside) rfl rfl
  | ingest source pages => exact placed.clearCols (notListed aside) rfl rfl
  | release locs => exact placed.release inMirror aside
  | recordOwned reqPoolIdx keptLocs =>
    simp only [engineStep, recordOwnedPages]
    split_ifs <;> exact placed.frame rfl rfl
  | releaseOwned reqPoolIdx =>
    simp only [engineStep, releaseOwnedPages]
    split_ifs
    · exact placed
    · exact placed.clearCols (fun gone => aside ((mem_pageCols inMirror).mp gone)) rfl rfl
  | reclaim residentMask =>
    simp only [engineStep, reclaimOrphansGlobal]
    split_ifs
    · exact placed
    · refine placed.clearCols (fun gone => ?_) rfl rfl
      obtain ⟨owned, dead⟩ := mem_filter.mp (mem_filter.mp gone).1
      rw [spares owned] at dead
      contradiction

/-- A stored row whose location no other row of the batch shares is entered at its cell. -/
theorem Placed.stored (layer : ℕ) {rows : List (DecodeRow α)} {row : DecodeRow α} (mem : row ∈ rows)
    (valid : engine.DecodeValid cfg row) (inMirror : chunk < cfg.mirrorChunks)
    (atChunk : row.c4OutLoc = chunk) (alone : ∀ other ∈ rows, other.c4OutLoc = chunk → other = row) :
    Placed cfg layer chunk (engine.decodeCell cfg row)
      ((engine.storeDecodeToReserve cfg layer rows).reserveBuf layer (engine.decodeCell cfg row).toNat)
      (engine.storeDecodeToReserve cfg layer rows) := by
  refine ⟨?_, rfl, decodeBase_le_decodeCell cfg engine row⟩
  rcases engine.storeDecodeToReserve_lut cfg rows layer layer chunk with
    ⟨_, other, present, column, value⟩ | ⟨unwritten, _⟩
  · rw [value, alone other present (c4OutLoc_of_decodeCol inMirror column).2]
  · exact absurd (decodeCol_of_valid inMirror valid atChunk) (unwritten rfl row mem)

end Engine

/-- Every state that in-range calls reach from a fresh engine. -/
def Reachable (cfg : Config) (zero : α) (engine : Engine α) : Prop :=
  ∃ history : List (EngineCall α), (∀ call ∈ history, call.InRange cfg) ∧
    run (engineStep cfg) (Engine.init zero) history = engine

/-- A decode chunk that was stored validly keeps its cell and the bytes there along every run whose
calls neither evict, sweep, copy over nor store over it. -/
theorem decode_chunk_durable {cfg : Config} (global : cfg.globalMode = true) {zero : α}
    {before : Engine α} (reachable : Reachable cfg zero before) (layer : ℕ)
    {rows : List (DecodeRow α)} {row : DecodeRow α} {chunk : ℕ} (inMirror : chunk < cfg.mirrorChunks)
    (member : row ∈ rows) (valid : before.DecodeValid cfg row) (atChunk : row.c4OutLoc = chunk)
    (alone : ∀ other ∈ rows, other.c4OutLoc = chunk → other = row) (later : List (EngineCall α))
    (allowed : Along (engineStep cfg) (fun engine call => call.InRange cfg ∧
      call.LeavesAlone engine layer chunk ∧
        call.Spares cfg engine layer chunk (before.decodeCell cfg row).toNat)
      (before.storeDecodeToReserve cfg layer rows) later) :
    let stored := before.storeDecodeToReserve cfg layer rows
    let final := run (engineStep cfg) stored later
    let cell := before.decodeCell cfg row
    final.chunkCellLut layer chunk = cell ∧
      final.reserveBuf layer cell.toNat = stored.reserveBuf layer cell.toNat := by
  obtain ⟨history, ranged, rfl⟩ := reachable
  intro stored final cell
  have pools := (along_of_forall ranged).invariant (Engine.PoolsValid.init cfg zero)
    fun _ _ valid => valid.step global
  have placed := Engine.Placed.stored layer member valid inMirror atChunk alone
  have start := pools.step global (show EngineCall.InRange cfg (.storeDecode layer rows) from trivial)
  -- well-formed allocators beside the placed chunk
  obtain ⟨-, placed⟩ := @Along.invariant _ _ _ _ (fun engine => Engine.PoolsValid cfg engine ∧
      Engine.Placed cfg layer chunk cell (stored.reserveBuf layer cell.toNat) engine) _ _ allowed ⟨start, placed⟩
    fun _ _ inv ok => ⟨inv.1.step global ok.1, inv.2.step global inv.1 inMirror ok.1 ok.2.1 ok.2.2⟩
  exact ⟨placed.entry, placed.held⟩

/-- Chunk 68 follows 68 prefill chunks, so it shares page 1 with the last four of them. -/
def boundaryRow : DecodeRow ℕ := ⟨0, 68, none, 7⟩

theorem decode_chunk_durable_on_boundary_page :
    let stored := (Engine.init 0 |>.registerDecodeReq .smallPaged 0 68).storeDecodeToReserve .smallPaged 0
      [boundaryRow]
    let final := run (engineStep .smallPaged) stored
      [.storeDecode 1 [boundaryRow], .recallResidentGlobal [65], .discard [2], .reclaim [true], .release [130],
        .storeDecode 0 [⟨0, 69, none, 8⟩]]
    final.chunkCellLut 0 68 = 117 ∧ final.reserveBuf 0 117 = 7 :=
  decode_chunk_durable (show Config.smallPaged.globalMode = true from rfl)
    ⟨[.register 0 68], forall_mem_singleton.mpr trivial, rfl⟩ 0 (by decide)
    (mem_singleton_self boundaryRow) (by decide) rfl (forall_mem_singleton.mpr fun _ => rfl) _
    (by decide)

/-- A recall of another page evicts page 1, and the decode chunk that shares it is lost. -/
theorem boundary_page_eviction_drops_decode_chunk :
    let before := (Engine.init 0).registerDecodeReq .smallPaged 0 68
    let stored := before.storeDecodeToReserve .smallPaged 0 [boundaryRow]
    let final := run (engineStep .smallPaged) stored [.recallResidentGlobal [65], .recallResidentGlobal [128]]
    before.DecodeValid .smallPaged boundaryRow ∧
      stored.chunkCellLut 0 68 = before.decodeCell .smallPaged boundaryRow ∧
      final.chunkCellLut 0 68 = -1 := by
  decide

end FlashMemory
