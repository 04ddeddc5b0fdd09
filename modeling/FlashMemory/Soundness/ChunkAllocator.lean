import FlashMemory.Soundness.ChunkCache
import FlashMemory.Collections.Run

/-! # The global chunk allocator over whole histories

With page recall off, one allocator hands cells to chunks for all layers. Its cells and its free list
always partition the cells below the high-water mark, and every table entry below `decode_base` names
the cell its chunk owns, whatever mixture of recalls, sweeps, releases, discards and stores ran.

The transfer engine writes the mirror behind the swap engine's back. A page written that way is
pending until `discard_copied_pages` is called on it; the bytes of every other mapped chunk are the
mirror's bytes.
-/

namespace FlashMemory

variable {α : Type*}

inductive ChunkOp (α : Type*) where
  | recallResident (locs : List ℤ)
  | reclaim (residentMask : List Bool)
  | release (locs : List ℤ)
  | discard (pages : List ℤ)
  | ingest (source : ℕ → ℕ → α) (pages : List ℤ)
  | storePrefill (layer : ℕ) (rows : List (ℕ × α))
  | register (reqPoolIdx prefillChunks : ℤ)
  | storeDecode (layer : ℕ) (rows : List (DecodeRow α))
  /-- The transfer engine writes pages of the mirror. -/
  | transfer (content : ℕ → ℕ → α) (pages : List ℕ)

def ChunkOp.InRange (cfg : Config) : ChunkOp α → Prop
  | .recallResident locs => Engine.LocsInRange cfg locs
  | .storePrefill _ rows => ∀ row ∈ rows, row.1 < cfg.mirrorChunks
  | _ => True

instance ChunkOp.decidableInRange (cfg : Config) (op : ChunkOp α) : Decidable (op.InRange cfg) := by
  cases op <;> dsimp only [InRange] <;> infer_instance

/-- The engine, and the pages transferred since their last discard. -/
structure TrackedEngine (α : Type*) where
  engine : Engine α
  pending : List ℕ

def chunkStep (cfg : Config) (state : TrackedEngine α) : ChunkOp α → TrackedEngine α
  | .recallResident locs => { state with engine := (state.engine.recallGlobal cfg locs).1 }
  | .reclaim mask => { state with engine := (state.engine.reclaimOrphansGlobal cfg mask).1 }
  | .release locs => { state with engine := (state.engine.releaseReqPoolLocs cfg locs).1 }
  | .discard pages =>
    { engine := (state.engine.discardCopiedPages cfg pages).1
      pending := state.pending.filter (· ∉ Engine.mirrorPages cfg pages) }
  | .ingest source pages =>
    { state with engine := (state.engine.ingestTransferredHistory cfg source pages).1 }
  | .storePrefill layer rows => { state with engine := state.engine.storePrefillToMirror cfg layer rows }
  | .register idx chunks => { state with engine := state.engine.registerDecodeReq cfg idx chunks }
  | .storeDecode layer rows => { state with engine := state.engine.storeDecodeToReserve cfg layer rows }
  | .transfer content pages =>
    { engine := state.engine.transferPages content pages, pending := state.pending ++ pages }

/-- What the chunk allocator maintains along a history. -/
def ChunkInv (cfg : Config) (state : TrackedEngine α) : Prop :=
  state.engine.ChunkCache cfg fun chunk => chunk / c4PageSize ∈ state.pending

theorem ChunkInv.step {cfg : Config} {state : TrackedEngine α} (global : cfg.globalMode = true)
    (chunkGranular : cfg.pageRecall = false) (inv : ChunkInv cfg state) {op : ChunkOp α}
    (ranged : op.InRange cfg) : ChunkInv cfg (chunkStep cfg state op) := by
  cases op with
  | recallResident locs => exact inv.afterRecall ranged
  | reclaim mask => exact inv.reclaim mask
  | release locs => exact inv.release global chunkGranular locs
  | discard pages =>
    refine inv.discard pages fun chunk outside current pending => current ?_
    exact List.mem_filter.mpr ⟨pending, decide_eq_true outside⟩
  | ingest source pages => exact inv.ingest source pages
  | storePrefill layer rows => exact inv.storePrefill layer ranged
  | register idx chunks => exact inv.register idx chunks
  | storeDecode layer rows => exact inv.storeDecode layer rows
  | transfer content pages =>
    exact ⟨inv.pool, inv.inRange, inv.coherent.transfer content fun chunk current =>
      not_or.mp fun either => current (List.mem_append.mpr either)⟩

/-- The fresh engine, with or without the `_g_full` attribute. -/
def freshTracked (zero : α) (gFull : Option Bool) : TrackedEngine α :=
  ⟨{ Engine.init zero with gFull := gFull }, []⟩

/-- After every history the owned cells are exclusive, owned and free cells are exactly the cells below
the high-water mark, entries below `decode_base` name owned cells, and outside pending pages those
cells hold the mirror's bytes. -/
theorem chunk_allocator_invariant {cfg : Config} (global : cfg.globalMode = true)
    (chunkGranular : cfg.pageRecall = false) (zero : α) (gFull : Option Bool)
    (history : List (ChunkOp α)) (ranged : ∀ op ∈ history, op.InRange cfg) :
    let state := run (chunkStep cfg) (freshTracked zero gFull) history
    let engine := state.engine
    let pool := engine.gCells
    (∀ first second cell, pool.slots.get? first = some cell → pool.slots.get? second = some cell →
      first = second) ∧
    (pool.slots.values ++ pool.free).Nodup ∧
    (∀ cell, cell ∈ pool.slots.values ++ pool.free ↔ cell < pool.next) ∧
    pool.next ≤ cfg.recallCellCapacity ∧
    (∀ layer chunk cell : ℕ, engine.chunkCellLut layer chunk = cell → cell < cfg.decodeBase →
      pool.slots.get? chunk = some cell) ∧
    (∀ layer chunk cell : ℕ, engine.chunkCellLut layer chunk = cell → cell < cfg.decodeBase →
      chunk / c4PageSize ∉ state.pending →
      engine.reserveBuf layer cell = engine.hostMirror layer chunk) := by
  intro state engine pool
  have inv : ChunkInv cfg state := (along_of_forall ranged).invariant
    (Engine.ChunkCache.init cfg _ zero gFull) fun _ _ inv ranged => inv.step global chunkGranular ranged
  exact ⟨fun _ _ _ => inv.pool.injective, inv.pool.nodup,
    fun cell => (inv.pool.partition.mem_iff).trans List.mem_range, inv.pool.bound,
    fun layer => (inv.coherent layer).owned, fun layer => (inv.coherent layer).fresh⟩

/-- Two cells: an eviction, a release that frees a cell, a sweep and a recall that reuses the cell. -/
def chunkHistory : List (ChunkOp ℕ) :=
  [.transfer (fun layer chunk => 100 * layer + chunk) [0], .discard [0], .recallResident [3, 5], .recallResident [7],
    .register 1 3, .storeDecode 0 [⟨1, 10, none, 999⟩], .release [5], .reclaim (List.replicate 8 true),
    .recallResident [9, -1]]

theorem chunk_allocator_invariant_on_history :
    let state := run (chunkStep { Config.small 1 61 1 with globalMode := true })
      (freshTracked 0 (some false)) chunkHistory
    state.engine.chunkCellLut 1 9 = 1 ∧ state.engine.reserveBuf 1 1 = state.engine.hostMirror 1 9 :=
  ⟨by decide, (chunk_allocator_invariant rfl rfl 0 (some false) chunkHistory (by decide)).2.2.2.2.2 1 9 1
    (by decide) (by decide) (by decide)⟩

end FlashMemory
