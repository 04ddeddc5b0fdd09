import FlashMemory.Model.Stores

/-! # What a decode store writes

A row of a decode batch writes one cell of the reserve and one column of the table, both computed from
the request tables alone. The cell is never below `decode_base`. A whole decode step runs the store
for every layer; since a store changes none of the tables it reads, all layers write the same cells
and columns.
-/

namespace FlashMemory.Engine

open List Function

variable {α : Type*} {cfg : Config} {engine : Engine α} (rows : List (DecodeRow (ℕ → α)))

/-- A decode store never aims below `decode_base`. -/
theorem decodeBase_le_decodeCell (cfg : Config) (engine : Engine α) (row : DecodeRow α) :
    cfg.decodeBase ≤ (engine.decodeCell cfg row).toNat := by
  have slack : cfg.decodeBase ≤ cfg.cellCapacity - 1 := by
    simp only [Config.decodeBase]
    omega
  have real : engine.DecodeValid cfg row → (cfg.decodeBase : ℤ) ≤ cfg.decodeBase +
      engine.decodeSlotT (rowIndex row) * cfg.decodeResidentChunks + engine.decodeLocal cfg row := by
    rintro ⟨_, _, slot, step, _⟩
    have := Int.mul_nonneg slot (Int.natCast_nonneg cfg.decodeResidentChunks)
    omega
  simp only [decodeCell, Config.sinkCell]
  split_ifs with valid
  · have := real valid
    omega
  · omega

theorem decodeCell_nonneg (own : cfg.ownReserve = true) (row : DecodeRow α) :
    0 ≤ engine.decodeCell cfg row := by
  have pages := cfg.ownReserve_pos own
  have cells : 0 < cfg.cellCapacity := Nat.mul_pos pages (by decide)
  simp only [decodeCell]
  omega

section

variable {row : DecodeRow α} {chunk : ℕ} (inMirror : chunk < cfg.mirrorChunks)
include inMirror

/-- A row is recorded in a chunk's column only if it validly formed that chunk. -/
theorem c4OutLoc_of_decodeCol
    (column : engine.decodeCol cfg row = chunk) : engine.DecodeValid cfg row ∧ row.c4OutLoc = chunk := by
  simp only [decodeCol, Config.lutSentinelCol, Config.lutCols] at column
  simp only [Config.mirrorChunks] at inMirror
  split_ifs at column with valid
  · have := valid.1
    exact ⟨valid, by omega⟩
  · omega

theorem decodeCol_of_valid (valid : engine.DecodeValid cfg row) (atChunk : row.c4OutLoc = chunk) :
    engine.decodeCol cfg row = chunk := by
  simp only [Config.mirrorChunks] at inMirror
  simp only [decodeCol, valid, ↓reduceIte, Config.lutSentinelCol, Config.lutCols, atChunk]
  omega

end

/-- One column of the stored layer: a row's cell, or what it held. -/
theorem storeDecodeToReserve_lut (cfg : Config) (engine : Engine α) (rows : List (DecodeRow α)) (target layer col : ℕ) :
    (layer = target ∧ ∃ row ∈ rows, engine.decodeCol cfg row = col ∧
      (engine.storeDecodeToReserve cfg target rows).chunkCellLut layer col =
        engine.decodeCell cfg row) ∨
    (layer = target → ∀ row ∈ rows, engine.decodeCol cfg row ≠ col) ∧
      (engine.storeDecodeToReserve cfg target rows).chunkCellLut layer col =
        engine.chunkCellLut layer col := by
  by_cases same : layer = target
  · subst same
    simp only [storeDecodeToReserve, update_self, true_and, forall_const]
    exact scatter_map_cases _ _ _ _ _
  · exact Or.inr ⟨fun equal => absurd equal same, by
      simp only [storeDecodeToReserve, update_of_ne same]⟩

/-- One cell of the stored layer: a row's pack, or what it held. -/
theorem storeDecodeToReserve_reserve (cfg : Config) (engine : Engine α) (rows : List (DecodeRow α))
    (target layer cell : ℕ) : (layer = target ∧ ∃ row ∈ rows, (engine.decodeCell cfg row).toNat = cell ∧
      (engine.storeDecodeToReserve cfg target rows).reserveBuf layer cell = row.pack) ∨
    (layer = target → ∀ row ∈ rows, (engine.decodeCell cfg row).toNat ≠ cell) ∧
      (engine.storeDecodeToReserve cfg target rows).reserveBuf layer cell =
        engine.reserveBuf layer cell := by
  by_cases same : layer = target
  · subst same
    simp only [storeDecodeToReserve, update_self, true_and, forall_const]
    exact scatter_map_cases _ _ _ _ _
  · exact Or.inr ⟨fun equal => absurd equal same, by
      simp only [storeDecodeToReserve, update_of_ne same]⟩

/-! ## A decode step over all layers -/

/-- The cell of a row, the same in every layer. -/
def stepCell (cfg : Config) (engine : Engine α) (row : DecodeRow (ℕ → α)) : ℤ :=
  engine.decodeCell cfg (atLayer row 0)

/-- The column of a row, the same in every layer. -/
def stepCol (cfg : Config) (engine : Engine α) (row : DecodeRow (ℕ → α)) : ℕ :=
  engine.decodeCol cfg (atLayer row 0)

private theorem foldl_storeDecode {layers : List ℕ} (distinct : layers.Nodup)
    (rows : List (DecodeRow (ℕ → α))) (layer : ℕ) :
    let after := layers.foldl (fun engine layer =>
      engine.storeDecodeToReserve cfg layer (rows.map (atLayer · layer))) engine
    after.chunkCellLut layer = (if layer ∈ layers then
      scatter (engine.chunkCellLut layer)
        (rows.map fun row => (engine.stepCol cfg row, engine.stepCell cfg row))
      else engine.chunkCellLut layer) ∧
    after.reserveBuf layer = if layer ∈ layers then
      scatter (engine.reserveBuf layer)
        (rows.map fun row => ((engine.stepCell cfg row).toNat, row.pack layer))
      else engine.reserveBuf layer := by
  induction layers generalizing engine with
  | nil => exact ⟨rfl, rfl⟩
  | cons first rest ih =>
    obtain ⟨lut, reserve⟩ := @ih (engine.storeDecodeToReserve cfg first (rows.map (atLayer · first)))
      (nodup_cons.mp distinct).2
    simp only [foldl_cons]
    rw [lut, reserve]
    by_cases same : layer = first
    · subst same
      have absent := (nodup_cons.mp distinct).1
      simp only [absent, ↓reduceIte, mem_cons, true_or, storeDecodeToReserve,
        update_self, map_map]
      exact ⟨rfl, rfl⟩
    · simp only [mem_cons, same, false_or, storeDecodeToReserve, update_of_ne same]
      exact ⟨rfl, rfl⟩

theorem storeDecodeAllLayers_lut (layer : ℕ) :
    (engine.storeDecodeAllLayers cfg rows).chunkCellLut layer =
      if layer < cfg.c4LayerNum then scatter (engine.chunkCellLut layer)
        (rows.map fun row => (engine.stepCol cfg row, engine.stepCell cfg row))
      else engine.chunkCellLut layer := by
  simpa only [storeDecodeAllLayers, mem_range] using (foldl_storeDecode nodup_range rows layer).1

private theorem storeDecodeAllLayers_reserve (layer : ℕ) :
    (engine.storeDecodeAllLayers cfg rows).reserveBuf layer =
      if layer < cfg.c4LayerNum then scatter (engine.reserveBuf layer)
        (rows.map fun row => ((engine.stepCell cfg row).toNat, row.pack layer))
      else engine.reserveBuf layer := by
  simpa only [storeDecodeAllLayers, mem_range] using (foldl_storeDecode nodup_range rows layer).2

/-- What the store of one layer preserves, a decode step preserves. -/
theorem storeDecodeAllLayers_rule (holds : Engine α → Prop) (rows : List (DecodeRow (ℕ → α)))
    (start : holds engine) (store : ∀ engine layer rows, holds engine →
      holds (engine.storeDecodeToReserve cfg layer rows)) :
    holds (engine.storeDecodeAllLayers cfg rows) := by
  unfold storeDecodeAllLayers
  induction List.range cfg.c4LayerNum generalizing engine with
  | nil => exact start
  | cons layer rest ih => exact ih (store engine layer _ start)

theorem storeDecodeAllLayers_hostMirror :
    (engine.storeDecodeAllLayers cfg rows).hostMirror = engine.hostMirror :=
  storeDecodeAllLayers_rule (·.hostMirror = engine.hostMirror) rows rfl fun _ _ _ same => same

theorem storeDecodeAllLayers_gPages :
    (engine.storeDecodeAllLayers cfg rows).gPages = engine.gPages :=
  storeDecodeAllLayers_rule (·.gPages = engine.gPages) rows rfl fun _ _ _ same => same

/-- One cell after a decode step: a row's bytes, or what it held. -/
theorem storeDecodeAllLayers_reserve_cases (cfg : Config) (engine : Engine α)
    (rows : List (DecodeRow (ℕ → α))) {layer : ℕ} (below : layer < cfg.c4LayerNum) (cell : ℕ) :
    (∃ row ∈ rows, (engine.stepCell cfg row).toNat = cell ∧
      (engine.storeDecodeAllLayers cfg rows).reserveBuf layer cell = row.pack layer) ∨
    (∀ row ∈ rows, (engine.stepCell cfg row).toNat ≠ cell) ∧
      (engine.storeDecodeAllLayers cfg rows).reserveBuf layer cell = engine.reserveBuf layer cell := by
  rw [storeDecodeAllLayers_reserve, if_pos below]
  exact scatter_map_cases _ _ _ _ _

/-- One column after a decode step: a row's cell, or what it held. -/
theorem storeDecodeAllLayers_lut_cases (cfg : Config) (engine : Engine α)
    (rows : List (DecodeRow (ℕ → α))) (layer col : ℕ) :
    (layer < cfg.c4LayerNum ∧ ∃ row ∈ rows, engine.stepCol cfg row = col ∧
      (engine.storeDecodeAllLayers cfg rows).chunkCellLut layer col = engine.stepCell cfg row) ∨
    (layer < cfg.c4LayerNum → ∀ row ∈ rows, engine.stepCol cfg row ≠ col) ∧
      (engine.storeDecodeAllLayers cfg rows).chunkCellLut layer col =
        engine.chunkCellLut layer col := by
  rw [storeDecodeAllLayers_lut]
  split_ifs with inside
  · simp only [inside, true_and, forall_const]
    exact scatter_map_cases _ _ _ _ _
  · exact Or.inr ⟨fun below => absurd below inside, rfl⟩

end FlashMemory.Engine
