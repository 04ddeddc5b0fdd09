import FlashMemory.Soundness.ChunkCache
import FlashMemory.Soundness.PageCache
import FlashMemory.Collections.Run

/-! # Two allocators over one recall region

With `CUDAGRAPH` and `PAGE_RECALL` both on, `recall_chunks` hands out single cells and
`recall_resident_global` hands out blocks of 64 cells, from the same region and through the same
table. Each allocator partitions what it has handed out, but neither knows about the other: both
start at cell 0, so as soon as both have handed something out, two chunks can share a cell.

A run in which each allocator only allocates while the other has handed out nothing keeps every cell
of the recall region to one chunk.
-/

namespace FlashMemory

open Engine

variable {α : Type*}

inductive SharedOp (α : Type*) where
  | recallChunks (layer : ℕ) (locs : List ℤ)
  | recallResidentGlobal (locs : List ℤ)
  | storePrefill (layer : ℕ) (rows : List (ℕ × α))
  | release (locs : List ℤ)
  | discard (pages : List ℤ)

def SharedOp.InRange (cfg : Config) : SharedOp α → Prop
  | .recallChunks _ locs | .recallResidentGlobal locs => Engine.LocsInRange cfg locs
  | .storePrefill _ rows => ∀ row ∈ rows, row.1 < cfg.mirrorChunks
  | .release _ | .discard _ => True

section

variable (cfg : Config) (engine : Engine α)

def sharedStep : SharedOp α → Engine α
  | .recallChunks layer locs => (engine.recallChunks cfg layer locs).1
  | .recallResidentGlobal locs => (engine.recallResidentGlobal cfg locs).1
  | .storePrefill layer rows => engine.storePrefillToMirror cfg layer rows
  | .release locs => (engine.releaseReqPoolLocs cfg locs).1
  | .discard pages => (engine.discardCopiedPages cfg pages).1

/-- No two chunks of a layer are mapped to one cell of the recall region. -/
def OneChunkPerCell : Prop :=
  ∀ layer first second cell : ℕ, engine.chunkCellLut layer first = cell →
    engine.chunkCellLut layer second = cell → cell < cfg.decodeBase → first = second

/-- A recall that misses runs only while the other allocator has handed out nothing. -/
def OneAllocator : SharedOp α → Prop
  | .recallChunks _ locs =>
    engine.layerMisses cfg 0 (uniqueChunks locs) = [] ∨ engine.gPages.next = 0
  | .recallResidentGlobal locs =>
    engine.pageMisses cfg (uniquePages locs) = [] ∨ engine.gCells.next = 0
  | .storePrefill _ _ | .release _ | .discard _ => True

end

instance SharedOp.decidableAllowed (cfg : Config) (engine : Engine α) (op : SharedOp α) :
    Decidable (op.InRange cfg ∧ OneAllocator cfg engine op) := by
  cases op <;> dsimp only [InRange, OneAllocator] <;> infer_instance

/-- One recall of chunks and one of a page on a fresh engine: chunks 5 and 64 share cell 0. -/
theorem two_chunks_share_a_cell :
    let cfg := { Config.small 2 10 1 with globalMode := true, pageRecall := true }
    ¬ OneChunkPerCell cfg (run (sharedStep cfg) (Engine.init 0)
      [.recallChunks 0 [5], .recallResidentGlobal [64]]) := by
  intro cfg exclusive
  have same := exclusive 0 5 64 0 (by decide) (by decide) (by decide)
  contradiction

namespace Engine

variable {cfg : Config} {engine : Engine α}

/-- Nothing was handed out, so nothing is owned. -/
theorem owner_eq_none {cap : ℕ} {pool : SlotPool ℕ} (valid : pool.WellFormed cap) (idle : pool.next = 0)
    (key : ℕ) : pool.slots.get? key = none := by
  cases found : pool.slots.get? key with
  | none => rfl
  | some slot =>
    have bound := valid.slot_lt_next (List.mem_append_left _ (OrderedDict.mem_values_of_get? found))
    omega

/-- With nothing owned the region is unused, and the table is coherent with any owner map. -/
theorem GlobalCoherent.of_idle {owner owner' : ℕ → Option ℕ} {stale stale' : ℕ → Prop}
    (coherent : GlobalCoherent cfg owner stale engine) (idle : ∀ key, owner key = none) :
    GlobalCoherent cfg owner' stale' engine := by
  intro layer
  constructor <;> intro chunk cell points inside <;>
    exact absurd ((coherent layer).owned chunk cell points inside) (by simp [idle])

end Engine

/-- One of the allocators has handed out nothing, and the other keeps a coherent cache. Bytes do not
matter here, so every chunk counts as stale. -/
structure SharedInv (cfg : Config) (engine : Engine α) : Prop where
  cells : engine.gCells.WellFormed cfg.recallCellCapacity
  blocks : engine.gPages.WellFormed cfg.maxBlocks
  alone : engine.gPages.next = 0 ∧ engine.ChunkCache cfg (fun _ => True) ∨
    engine.gCells.next = 0 ∧ engine.PageCache cfg (fun _ => True)

namespace SharedInv

variable {cfg : Config} {engine : Engine α}

theorem init (cfg : Config) (zero : α) : SharedInv cfg (init zero) :=
  ⟨SlotPool.fresh_wellFormed _, SlotPool.fresh_wellFormed _,
    Or.inl ⟨rfl, ChunkCache.init cfg _ zero none⟩⟩

private theorem chunkCache (inv : SharedInv cfg engine) (idle : engine.gPages.next = 0) :
    engine.ChunkCache cfg fun _ => True := by
  rcases inv.alone with ⟨_, cache⟩ | ⟨unused, cache⟩
  · exact cache
  · refine ⟨inv.cells, fun chunk mem => ?_, cache.coherent.of_idle fun chunk => ?_⟩
    · exact absurd mem
        ((OrderedDict.get?_eq_none_iff _ chunk).mp (owner_eq_none inv.cells unused chunk))
    · simp only [pageOwner, owner_eq_none inv.blocks idle, Option.map_none]

private theorem pageCache (inv : SharedInv cfg engine) (idle : engine.gCells.next = 0) :
    engine.PageCache cfg fun _ => True := by
  rcases inv.alone with ⟨unused, cache⟩ | ⟨_, cache⟩
  · refine ⟨inv.blocks, fun page mem => ?_, ?_⟩
    · exact absurd mem
        ((OrderedDict.get?_eq_none_iff _ page).mp (owner_eq_none inv.blocks unused page))
    · exact cache.coherent.of_idle fun chunk => owner_eq_none inv.cells idle chunk
  · exact cache

private theorem oneChunkPerCell (inv : SharedInv cfg engine) : OneChunkPerCell cfg engine := by
  intro layer first second cell left right inside
  rcases inv.alone with ⟨_, cache⟩ | ⟨_, cache⟩
  · exact cache.pool.injective ((cache.coherent layer).owned _ _ left inside)
      ((cache.coherent layer).owned _ _ right inside)
  · exact pageOwner_exclusive cache.pool _ _ _ ((cache.coherent layer).owned _ _ left inside)
      ((cache.coherent layer).owned _ _ right inside)

theorem step (global : cfg.globalMode = true) (paged : cfg.pageRecall = true)
    (inv : SharedInv cfg engine) {op : SharedOp α}
    (allowed : op.InRange cfg ∧ OneAllocator cfg engine op) :
    SharedInv cfg (sharedStep cfg engine op) := by
  obtain ⟨ranged, alone⟩ := allowed
  cases op with
  | recallChunks layer locs =>
    simp only [sharedStep, recallChunks, global, ↓reduceIte]
    rcases alone with hit | idle
    · simpa only [recallGlobal, hit, ↓reduceIte] using inv
    · obtain ⟨pairs, spec⟩ := recallGlobal_spec inv.cells ranged
      have cache := (inv.chunkCache idle).afterRecall ranged
      exact ⟨cache.pool, spec.gPages ▸ inv.blocks, Or.inl ⟨by rw [spec.gPages, idle], cache⟩⟩
  | recallResidentGlobal locs =>
    simp only [sharedStep, recallResidentGlobal, paged, ↓reduceIte]
    rcases alone with hit | idle
    · simpa only [recallGlobalPages, hit, ↓reduceIte] using inv
    · obtain ⟨pairs, spec⟩ := recallGlobalPages_spec inv.blocks ranged
      have cache := (inv.pageCache idle).afterRecall ranged
      exact ⟨spec.gCells ▸ inv.cells, cache.pool, Or.inr ⟨by rw [spec.gCells, idle], cache⟩⟩
  | storePrefill layer rows =>
    exact ⟨inv.cells, inv.blocks, inv.alone.imp (And.imp_right fun cache => cache.storePrefill layer ranged)
      (And.imp_right fun cache => cache.storePrefill layer ranged)⟩
  | release locs =>
    simp only [sharedStep, releaseReqPoolLocs, paged, ↓reduceIte]
    split_ifs
    · exact inv
    · refine ⟨inv.cells, SlotPool.release_wellFormed inv.blocks _, inv.alone.imp ?_ ?_⟩
      · rintro ⟨idle, cache⟩
        exact ⟨(SlotPool.release_next ..).trans idle,
          cache.releaseCells (List.forall_mem_nil _) rfl rfl rfl rfl⟩
      · rintro ⟨idle, cache⟩
        exact ⟨idle, cache.releasePages (fun _ => id) rfl rfl rfl rfl⟩
  | discard pages =>
    exact ⟨inv.cells, inv.blocks,
      inv.alone.imp (And.imp_right fun cache => cache.discard pages fun _ _ current => current)
        (And.imp_right fun cache => cache.discard pages fun _ _ current => current)⟩

end SharedInv

/-- If along a run each allocator allocates only while the other has handed out nothing, then no two
chunks of a layer ever share a cell of the recall region. -/
theorem one_chunk_per_cell_of_one_allocator {cfg : Config} (global : cfg.globalMode = true)
    (paged : cfg.pageRecall = true) (zero : α) (history : List (SharedOp α))
    (allowed : Along (sharedStep cfg) (fun engine op => op.InRange cfg ∧ OneAllocator cfg engine op)
      (Engine.init zero) history) :
    OneChunkPerCell cfg (run (sharedStep cfg) (Engine.init zero) history) :=
  (allowed.invariant (SharedInv.init cfg zero)
    fun _ _ inv allowed => inv.step global paged allowed).oneChunkPerCell

theorem one_chunk_per_cell_on_pages :
    let cfg := { Config.small 2 10 1 with globalMode := true, pageRecall := true }
    OneChunkPerCell cfg (run (sharedStep cfg) (Engine.init 0)
      [.storePrefill 0 [(64, 7)], .recallResidentGlobal [64], .discard [1], .recallResidentGlobal [130],
        .release [130]]) :=
  one_chunk_per_cell_of_one_allocator rfl rfl 0 _ (by decide)

end FlashMemory
