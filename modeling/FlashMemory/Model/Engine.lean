import FlashMemory.Collections.SlotPool
import FlashMemory.Collections.Scatter
import Mathlib.Data.List.Sort
import Mathlib.Data.Int.Order.Basic

/-! # The state of the Path-P swap engine

`SwapEngineP` keeps the full c4 history in a host mirror and a small subset of it in the cells of a
GPU reserve. A chunk is one c4 token slot of the logical pool and a page is 64 consecutive chunks.
The table `chunk_cell_lut` sends a chunk to its cell in each layer, or to `-1` when it is not
resident, and is the only thing attention reads to locate a chunk.

The content of a chunk is an arbitrary type, since no allocator looks inside it. Layers are indexed
by all of `ℕ`: the tensors have `c4_layer_num` of them and the others are never read. Locations are
meant to be in the range of the table; a torch index beyond it raises, which is not represented
except where the source clamps or filters.
-/

namespace FlashMemory

open List

/-- Chunks in a page. -/
def c4PageSize : ℕ := 64

/-- What `__init__` fixes: the sizes, and the gates read from the environment. -/
structure Config where
  c4LayerNum : ℕ
  nLogicalPages : ℕ
  /-- Rows of the reserve buffer, its own or the shared landing pool's. -/
  reservePages : ℕ
  ownReserve : Bool
  /-- An own reserve is one that was given a positive size. -/
  ownReserve_pos : ownReserve = true → 0 < reservePages
  decodeResidentChunks : ℕ
  decodeMaxConc : ℕ
  globalMode : Bool
  pageRecall : Bool
  lutTruth : Bool
  ownerRelease : Bool
  localfix : Bool
  /-- The iteration order of a Python set built by inserting the listed elements. -/
  setOrder : List ℕ → List ℕ
  setOrder_perm : ∀ elements, (setOrder elements).Perm elements

namespace Config

variable (cfg : Config)

def cellCapacity : ℕ := cfg.reservePages * c4PageSize

def decodeRegion : ℕ := cfg.decodeResidentChunks * cfg.decodeMaxConc

/-- First cell of the decode region. The subtraction stops at zero, as `max(0, ...)` does. -/
def decodeBase : ℕ := cfg.cellCapacity - cfg.decodeRegion - 1

/-- The throwaway cell at the very tail; it is `-1` for an empty reserve. -/
def sinkCell : ℤ := (cfg.cellCapacity : ℤ) - 1

def recallCellCapacity : ℕ := cfg.decodeBase

/-- Page blocks that fit in the recall region. -/
def maxBlocks : ℕ := cfg.recallCellCapacity / c4PageSize

def mirrorChunks : ℕ := cfg.nLogicalPages * c4PageSize

/-- Columns of the table: one per chunk and a sentinel. -/
def lutCols : ℕ := cfg.nLogicalPages * c4PageSize + 1

def lutSentinelCol : ℕ := cfg.lutCols - 1

def clampCol (col : ℕ) : ℕ := min col (cfg.lutCols - 1)

/-- A two-layer engine over four pages with its own reserve, every gate off. -/
def small (reservePages decodeResidentChunks decodeMaxConc : ℕ) : Config where
  c4LayerNum := 2
  nLogicalPages := 4
  reservePages := reservePages
  ownReserve := decide (0 < reservePages)
  ownReserve_pos := of_decide_eq_true
  decodeResidentChunks := decodeResidentChunks
  decodeMaxConc := decodeMaxConc
  globalMode := false
  pageRecall := false
  lutTruth := false
  ownerRelease := false
  localfix := false
  setOrder := id
  setOrder_perm _ := List.Perm.refl _

/-- Two layers, four pages, one block to recall into, and ten decode cells for one request. -/
def smallPaged : Config := { small 2 10 1 with globalMode := true, pageRecall := true }

end Config

/-- What a call can raise. -/
inductive PyError where
  /-- `_g_full` is read before any assignment created it. -/
  | attributeError
deriving DecidableEq, Repr

/-- The mutable state. A `SlotPool` holds an allocation map, its high-water mark and its free list. -/
structure Engine (α : Type*) where
  chunkCellLut : ℕ → ℕ → ℤ
  hostMirror : ℕ → ℕ → α
  reserveBuf : ℕ → ℕ → α
  /-- Per layer: `chunk_to_cell`, `next_cell` and `free_cells`. -/
  cells : ℕ → SlotPool ℕ
  full : ℕ → Bool
  /-- `_g_chunk_to_cell`, `_g_next_cell` and `_g_free_cells`. -/
  gCells : SlotPool ℕ
  /-- `_g_page_to_block`, `_g_next_block` and `_g_free_blocks`. -/
  gPages : SlotPool ℕ
  /-- `__init__` does not create this attribute. -/
  gFull : Option Bool
  nEvictions : ℕ
  reqOwnedPages : OrderedDict ℤ (List ℕ)
  prefillChunksT : ℕ → ℤ
  decodeSlotT : ℕ → ℤ
  nextDecodeSlot : ℕ

namespace Engine

variable {α : Type*}

/-- The engine that `__init__` leaves, over zeroed buffers. -/
def init (zero : α) : Engine α where
  chunkCellLut _ _ := -1
  hostMirror _ _ := zero
  reserveBuf _ _ := zero
  cells _ := .fresh
  full _ := false
  gCells := .fresh
  gPages := .fresh
  gFull := none
  nEvictions := 0
  reqOwnedPages := .empty
  prefillChunksT _ := -1
  decodeSlotT _ := -1
  nextDecodeSlot := 0

section

variable (cfg : Config) (engine : Engine α) (layer : ℕ)

/-- One entry of `remap_compressed_locs`: the cell of a location in this layer, or `-1`. -/
def remapCompressedLoc (loc : ℤ) : ℤ :=
  let index := if 0 ≤ loc then loc.toNat else 0
  let cell := engine.chunkCellLut layer (cfg.clampCol index)
  if 0 ≤ loc ∧ 0 ≤ cell then cell else -1

def remapCompressedLocs (locs : List ℤ) : List ℤ :=
  locs.map (engine.remapCompressedLoc cfg layer)

end

/-- Set the given columns to `-1` in every layer. -/
def clearCols (engine : Engine α) (cols : List ℕ) : Engine α :=
  { engine with
    chunkCellLut := fun layer col => if col ∈ cols then -1 else engine.chunkCellLut layer col }

@[simp] theorem clearCols_lut (engine : Engine α) (cols : List ℕ) (layer col : ℕ) :
    (engine.clearCols cols).chunkCellLut layer col =
      if col ∈ cols then -1 else engine.chunkCellLut layer col := rfl

section ClearCols

variable (engine : Engine α) (cols : List ℕ)

@[simp] theorem clearCols_hostMirror : (engine.clearCols cols).hostMirror = engine.hostMirror := rfl
@[simp] theorem clearCols_gCells : (engine.clearCols cols).gCells = engine.gCells := rfl
@[simp] theorem clearCols_gFull : (engine.clearCols cols).gFull = engine.gFull := rfl
@[simp] theorem clearCols_reqOwnedPages : (engine.clearCols cols).reqOwnedPages = engine.reqOwnedPages := rfl

end ClearCols

@[simp] theorem clearCols_nil (engine : Engine α) : engine.clearCols [] = engine := by
  simp [clearCols]

end Engine

/-! ## Selections -/

/-- `torch.unique`: the distinct entries in ascending order. -/
def torchUnique (entries : List ℤ) : List ℤ := entries.dedup.insertionSort (· ≤ ·)

/-- The distinct non-negative locations of a selection. -/
def uniqueChunks (locs : List ℤ) : List ℕ :=
  ((torchUnique locs).filter (0 ≤ ·)).map Int.toNat

/-- The distinct non-negative pages of a selection of chunks. -/
def uniquePages (locs : List ℤ) : List ℕ := uniqueChunks (locs.map (· / (c4PageSize : ℤ)))

/-- The 64 chunks of a page, or the 64 cells of a block. -/
def pageSpan (page : ℕ) : List ℕ := List.range' (page * c4PageSize) c4PageSize

private theorem mem_torchUnique {entries : List ℤ} {entry : ℤ} :
    entry ∈ torchUnique entries ↔ entry ∈ entries := by
  simp [torchUnique]

theorem mem_uniqueChunks {locs : List ℤ} {chunk : ℕ} :
    chunk ∈ uniqueChunks locs ↔ (chunk : ℤ) ∈ locs := by
  simp only [uniqueChunks, mem_map, mem_filter, mem_torchUnique, decide_eq_true_eq]
  constructor
  · rintro ⟨loc, ⟨mem, nonneg⟩, rfl⟩
    rwa [Int.toNat_of_nonneg nonneg]
  · exact fun mem => ⟨chunk, ⟨mem, Int.natCast_nonneg _⟩, Int.toNat_natCast _⟩

theorem uniqueChunks_nodup (locs : List ℤ) : (uniqueChunks locs).Nodup := by
  have distinct : (torchUnique locs).Nodup :=
    (perm_insertionSort _ _).nodup_iff.mpr (nodup_dedup _)
  refine (distinct.filter _).map_on ?_
  intro first left second right same
  have firstNonneg : 0 ≤ first := by simpa using (mem_filter.mp left).2
  have secondNonneg : 0 ≤ second := by simpa using (mem_filter.mp right).2
  omega

theorem mem_uniquePages {locs : List ℤ} {page : ℕ} :
    page ∈ uniquePages locs ↔ ∃ chunk : ℕ, (chunk : ℤ) ∈ locs ∧ chunk / c4PageSize = page := by
  simp only [uniquePages, mem_uniqueChunks, mem_map]
  constructor
  · rintro ⟨loc, mem, same⟩
    have nonneg : 0 ≤ loc := by simp only [c4PageSize] at same; omega
    refine ⟨loc.toNat, by rwa [Int.toNat_of_nonneg nonneg], ?_⟩
    simp only [c4PageSize] at same ⊢
    omega
  · rintro ⟨chunk, mem, rfl⟩
    exact ⟨chunk, mem, by simp⟩

theorem uniquePages_nodup (locs : List ℤ) : (uniquePages locs).Nodup := uniqueChunks_nodup _

theorem mem_pageSpan {page chunk : ℕ} : chunk ∈ pageSpan page ↔ chunk / c4PageSize = page := by
  simp only [pageSpan, mem_range'_1, c4PageSize]
  omega

/-! ## Locations in range -/

namespace Engine

variable {cfg : Config} {locs : List ℤ}

/-- Every location of a call is a chunk of the mirror, or negative padding. -/
def LocsInRange (cfg : Config) (locs : List ℤ) : Prop := ∀ loc ∈ locs, loc < cfg.mirrorChunks

instance decidableLocsInRange (cfg : Config) (locs : List ℤ) : Decidable (LocsInRange cfg locs) :=
  inferInstanceAs (Decidable (∀ loc ∈ locs, loc < (cfg.mirrorChunks : ℤ)))

theorem lt_lutCols {chunk : ℕ} (bound : chunk < cfg.mirrorChunks) : chunk < cfg.lutCols :=
  Nat.lt_succ_of_lt bound

theorem clampCol_of_lt {chunk : ℕ} (bound : chunk < cfg.mirrorChunks) : cfg.clampCol chunk = chunk := by
  have := lt_lutCols bound
  simp only [Config.clampCol]
  omega

theorem lt_of_mem_uniqueChunks (ranged : LocsInRange cfg locs) {chunk : ℕ}
    (mem : chunk ∈ uniqueChunks locs) : chunk < cfg.mirrorChunks :=
  Int.ofNat_lt.mp (ranged _ (mem_uniqueChunks.mp mem))

theorem lt_of_mem_uniquePages (ranged : LocsInRange cfg locs) {page : ℕ}
    (mem : page ∈ uniquePages locs) : page < cfg.nLogicalPages := by
  obtain ⟨chunk, present, rfl⟩ := mem_uniquePages.mp mem
  have bound := Int.ofNat_lt.mp (ranged _ present)
  simp only [Config.mirrorChunks] at bound
  exact Nat.div_lt_of_lt_mul (Nat.mul_comm .. ▸ bound)

theorem recallCellCapacity_le (cfg : Config) :
    cfg.recallCellCapacity ≤ cfg.reservePages * c4PageSize := by
  simp only [Config.recallCellCapacity, Config.decodeBase, Config.cellCapacity]
  omega

end Engine

end FlashMemory
