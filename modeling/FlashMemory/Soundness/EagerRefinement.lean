import FlashMemory.Soundness.EagerLayer
import FlashMemory.Collections.Run

/-! # The eager engine refines the native c4 pool

The native pool keeps every chunk on the GPU: a store overwrites, and a read returns the last store.
The eager engine stores to the mirror and reads through cells that come and go. Along every history
of stores, recalls and releases each layer stays a coherent cache and the mirror equals the native
pool, so after a recall of any selection that fits, reading a selected chunk through the table
returns what the native pool holds.
-/

namespace FlashMemory

open Engine

variable {α : Type*}

inductive EagerOp (α : Type*) where
  | storePrefill (layer : ℕ) (rows : List (ℕ × α))
  | storeDecode (layer : ℕ) (rows : List (ℕ × α))
  | recallChunks (layer : ℕ) (locs : List ℤ)
  | release (locs : List ℤ)

def EagerOp.InRange (cfg : Config) : EagerOp α → Prop
  | .storePrefill _ rows | .storeDecode _ rows => ∀ row ∈ rows, row.1 < cfg.mirrorChunks
  | .recallChunks _ locs | .release locs => Engine.LocsInRange cfg locs

instance EagerOp.decidableInRange (cfg : Config) (op : EagerOp α) : Decidable (op.InRange cfg) := by
  cases op <;> dsimp only [InRange] <;> infer_instance

def eagerStep (cfg : Config) (engine : Engine α) : EagerOp α → Engine α
  | .storePrefill layer rows => engine.storePrefillToMirror cfg layer rows
  | .storeDecode layer rows => (engine.storeDecode cfg layer rows).1
  | .recallChunks layer locs => (engine.recallChunks cfg layer locs).1
  | .release locs => (engine.releaseReqPoolLocs cfg locs).1

/-- The native pool: stores write in row order, recalls and releases do nothing. -/
def nativeStep (pool : ℕ → ℕ → α) : EagerOp α → ℕ → ℕ → α
  | .storePrefill layer rows | .storeDecode layer rows =>
    Function.update pool layer (scatter (pool layer) rows)
  | .recallChunks _ _ | .release _ => pool

namespace Engine

variable {cfg : Config} {engine : Engine α}

theorem LayerCache.storePrefill (caches : ∀ layer, LayerCache cfg engine layer) {target : ℕ}
    {rows : List (ℕ × α)} (ranged : ∀ row ∈ rows, row.1 < cfg.mirrorChunks) (layer : ℕ) :
    LayerCache cfg (engine.storePrefillToMirror cfg target rows) layer := by
  by_cases same : layer = target
  · subst same
    have kept : ∀ chunk, (engine.storePrefillToMirror cfg layer rows).chunkCellLut layer chunk ≠ -1 →
        chunk ∉ (keepLast rows).map Prod.fst ∧
        (engine.storePrefillToMirror cfg layer rows).chunkCellLut layer chunk =
          engine.chunkCellLut layer chunk := by
      intro chunk mapped
      simp only [storePrefillToMirror, Function.update_self, List.mem_filter, decide_eq_true_eq]
        at mapped ⊢
      have gone : ¬(chunk ∈ (keepLast rows).map Prod.fst ∧ chunk < cfg.lutCols) :=
        fun touched => mapped (if_pos touched)
      refine ⟨fun mem => gone ⟨mem, ?_⟩, if_neg gone⟩
      obtain ⟨row, present, rfl⟩ := List.mem_map.mp (mem_keys_keepLast.mp mem)
      have bound := ranged row present
      simp only [Config.mirrorChunks] at bound
      simp only [Config.lutCols]
      omega
    refine ⟨(caches layer).pool, (caches layer).inRange, (caches layer).coherent.frame ?_ ?_ ?_ ?_⟩
    · intro chunk cell points _
      exact (kept chunk (by omega)).2.symm.trans points
    · exact fun _ _ _ _ owned => owned
    · intro chunk cell points _ _
      refine ⟨id, ?_⟩
      simp only [storePrefillToMirror, Function.update_self]
      exact scatter_of_not_mem (kept chunk (by omega)).1
    · exact fun _ _ => rfl
  · apply (caches layer).congr <;> simp [storePrefillToMirror, Function.update_of_ne same]

theorem recallChunks_eager (eager : cfg.globalMode = false) {layer : ℕ} {locs : List ℤ} :
    (engine.recallChunks cfg layer locs).1 = (engine.recallChunksLayer cfg layer locs).1 := by
  simp only [recallChunks, eager, Bool.false_eq_true, ↓reduceIte]

theorem LayerCache.recallChunks (eager : cfg.globalMode = false)
    (caches : ∀ layer, LayerCache cfg engine layer) {target : ℕ} {locs : List ℤ}
    (ranged : LocsInRange cfg locs) (layer : ℕ) :
    LayerCache cfg (engine.recallChunks cfg target locs).1 layer := by
  rw [recallChunks_eager eager]
  by_cases same : layer = target
  · subst same
    exact (caches layer).afterRecall ranged
  · obtain ⟨cells, lut, reserve⟩ := recallChunksLayer_other same
    exact (caches layer).congr cells lut reserve (by rw [recallChunksLayer_hostMirror])

/-- Dropping entries and returning only the cells of dropped chunks keeps a layer coherent. -/
theorem LayerCache.drop {layer : ℕ} (cache : LayerCache cfg engine layer) {freed cols : List ℕ}
    (covered : ∀ chunk ∈ freed, chunk ∈ cols) (engine' : Engine α)
    (cells : engine'.cells layer = (engine.cells layer).release freed)
    (lut : ∀ chunk, engine'.chunkCellLut layer chunk =
      if chunk ∈ cols then -1 else engine.chunkCellLut layer chunk)
    (reserve : engine'.reserveBuf layer = engine.reserveBuf layer)
    (mirror : engine'.hostMirror layer = engine.hostMirror layer) : LayerCache cfg engine' layer := by
  have spared : ∀ (chunk cell : ℕ), engine'.chunkCellLut layer chunk = cell →
      chunk ∉ cols ∧ engine.chunkCellLut layer chunk = cell := by
    intro chunk cell points
    rw [lut] at points
    split_ifs at points with gone
    exact ⟨gone, points⟩
  refine ⟨cells ▸ SlotPool.release_wellFormed cache.pool freed, ?_, ?_⟩
  · intro chunk mem
    obtain ⟨slot, found⟩ := (OrderedDict.mem_keys_iff _ chunk).mp mem
    rw [cells, SlotPool.get?_release] at found
    split_ifs at found
    exact cache.inRange chunk (OrderedDict.mem_keys_of_get? found)
  · rw [cells, reserve, mirror]
    refine cache.coherent.frame (fun chunk cell points _ => (spared chunk cell points).2) ?_
      (fun _ _ _ _ _ => ⟨id, rfl⟩) (fun _ _ => rfl)
    intro chunk cell points _ owned
    rw [SlotPool.get?_release, if_neg fun mem => (spared chunk cell points).1 (covered chunk mem)]
    exact owned

theorem LayerCache.release (eager : cfg.globalMode = false)
    (caches : ∀ layer, LayerCache cfg engine layer) (locs : List ℤ) (layer : ℕ) :
    LayerCache cfg (engine.releaseReqPoolLocs cfg locs).1 layer := by
  simp only [releaseReqPoolLocs, eager, Bool.false_eq_true, ↓reduceIte]
  split_ifs
  · exact caches layer
  · exact (caches layer).drop (List.forall_mem_nil _) _ rfl (fun _ => rfl) rfl rfl
  · exact (caches layer).drop (fun _ => toFree_subset) _ rfl (fun _ => rfl) rfl rfl

private theorem storePrefillToMirror_hostMirror {layer : ℕ} {rows : List (ℕ × α)} :
    (engine.storePrefillToMirror cfg layer rows).hostMirror =
      Function.update engine.hostMirror layer (scatter (engine.hostMirror layer) rows) := by
  simp only [storePrefillToMirror, scatter_keepLast]

end Engine

/-! ## Histories -/

/-- The mirror is the native pool and every layer is a coherent cache of it. -/
structure EagerRefines (cfg : Config) (engine : Engine α) (native : ℕ → ℕ → α) : Prop where
  caches : ∀ layer, engine.LayerCache cfg layer
  mirror : engine.hostMirror = native

section

variable {cfg : Config} {engine : Engine α} {native : ℕ → ℕ → α} (eager : cfg.globalMode = false)
  (refines : EagerRefines cfg engine native)

include eager refines

theorem EagerRefines.step {op : EagerOp α} (ranged : op.InRange cfg) :
    EagerRefines cfg (eagerStep cfg engine op) (nativeStep native op) := by
  obtain ⟨caches, rfl⟩ := refines
  cases op with
  | storePrefill layer rows =>
    exact ⟨LayerCache.storePrefill caches ranged, storePrefillToMirror_hostMirror⟩
  | storeDecode layer rows =>
    by_cases empty : rows = []
    · subst empty
      exact ⟨caches, (Function.update_eq_self ..).symm⟩
    · have locsRanged : LocsInRange cfg (rows.map fun row => (row.1 : ℤ)) := by
        intro loc mem
        obtain ⟨row, present, rfl⟩ := List.mem_map.mp mem
        exact Int.ofNat_lt.mpr (ranged row present)
      simp only [eagerStep, storeDecode, empty, ↓reduceIte]
      refine ⟨LayerCache.recallChunks eager (LayerCache.storePrefill caches ranged)
        locsRanged, ?_⟩
      rw [recallChunks_eager eager, recallChunksLayer_hostMirror]
      exact storePrefillToMirror_hostMirror
  | recallChunks layer locs =>
    refine ⟨LayerCache.recallChunks eager caches ranged, ?_⟩
    rw [eagerStep, nativeStep, recallChunks_eager eager, recallChunksLayer_hostMirror]
  | release locs =>
    refine ⟨LayerCache.release eager caches locs, ?_⟩
    simp only [eagerStep, nativeStep, releaseReqPoolLocs, eager, Bool.false_eq_true,
      ↓reduceIte]
    split_ifs <;> rfl

/-- Running the engine and the native pool on the same history keeps them related. -/
theorem EagerRefines.run {history : List (EagerOp α)} (ranged : ∀ op ∈ history, op.InRange cfg) :
    EagerRefines cfg (run (eagerStep cfg) engine history) (run nativeStep native history) := by
  induction history generalizing engine native with
  | nil => exact refines
  | cons op rest ih =>
    exact ih (refines.step eager (ranged op (List.mem_cons_self ..)))
      (List.forall_mem_cons.mp ranged).2

end

/-- After any history, recalling a selection that fits makes every selected chunk readable: distinct
chunks get distinct cells of the recall region, each holding what was last stored for its chunk. -/
theorem eager_refines_native_pool {cfg : Config} (eager : cfg.globalMode = false) (zero : α)
    (history : List (EagerOp α)) (ranged : ∀ op ∈ history, op.InRange cfg) (layer : ℕ)
    (sel : List ℤ) (selRanged : Engine.LocsInRange cfg sel)
    (fits : (uniqueChunks sel).length ≤ cfg.recallCellCapacity) :
    let native := run nativeStep (fun _ _ => zero) history
    let after := ((run (eagerStep cfg) (Engine.init zero) history).recallChunks cfg layer sel).1
    let remap := after.remapCompressedLoc cfg layer
    (∀ loc ∈ sel, 0 ≤ loc → ∃ cell : ℕ, remap loc = cell ∧ cell < cfg.recallCellCapacity ∧
      after.reserveBuf layer cell = native layer loc.toNat) ∧
    (∀ first ∈ sel, ∀ second ∈ sel, 0 ≤ first → 0 ≤ second → remap first = remap second →
      first = second) ∧
    ∀ loc ∈ sel, loc < 0 → remap loc = -1 := by
  intro native after remap
  have before : EagerRefines cfg (run (eagerStep cfg) (init zero) history) native :=
    EagerRefines.run eager ⟨LayerCache.init cfg zero, rfl⟩ ranged
  obtain ⟨caches, mirror⟩ : EagerRefines cfg after native :=
    before.step eager (show (EagerOp.recallChunks layer sel : EagerOp α).InRange cfg from selRanged)
  have resident : ∀ loc ∈ sel, 0 ≤ loc → ∃ cell : ℕ, remap loc = cell ∧
      after.chunkCellLut layer loc.toNat = cell := by
    intro loc member nonneg
    have selected : loc.toNat ∈ uniqueChunks sel :=
      mem_uniqueChunks.mpr (by rwa [Int.toNat_of_nonneg nonneg])
    have mapped : 0 ≤ after.chunkCellLut layer loc.toNat := by
      simp only [after, recallChunks_eager eager]
      exact recallChunksLayer_resident (before.caches layer) selRanged fits selected
    refine ⟨(after.chunkCellLut layer loc.toNat).toNat, ?_, (Int.toNat_of_nonneg mapped).symm⟩
    simp only [remap, remapCompressedLoc, nonneg, ↓reduceIte, true_and,
      clampCol_of_lt (lt_of_mem_uniqueChunks selRanged selected), mapped,
      Int.toNat_of_nonneg mapped]
  refine ⟨?_, ?_, ?_⟩
  · intro loc member nonneg
    obtain ⟨cell, image, points⟩ := resident loc member nonneg
    refine ⟨cell, image, (caches layer).pool.slot_lt ((caches layer).coherent.owned _ _ points trivial), ?_⟩
    exact ((caches layer).coherent.fresh _ _ points trivial id).trans (congrFun (congrFun mirror layer) _)
  · intro first firstMember second secondMember firstNonneg secondNonneg same
    obtain ⟨cell, image, points⟩ := resident first firstMember firstNonneg
    obtain ⟨cell', image', points'⟩ := resident second secondMember secondNonneg
    obtain rfl : cell = cell' := Int.ofNat_inj.mp ((image.symm.trans same).trans image')
    have sameChunk := (caches layer).pool.injective ((caches layer).coherent.owned _ _ points trivial)
      ((caches layer).coherent.owned _ _ points' trivial)
    omega
  · intro loc member negative
    simp only [remap, remapCompressedLoc, not_le.mpr negative, false_and, ↓reduceIte]

/-- With two cells, a decode store evicts and the next recall evicts back. -/
def eagerHistory : List (EagerOp ℕ) :=
  [.storePrefill 0 [(3, 30), (5, 50), (3, 31)], .recallChunks 0 [3, 5], .storeDecode 0 [(9, 90)],
    .release [5], .storePrefill 1 [(3, 77)]]

theorem eager_refines_native_pool_on_history :
    let cfg := Config.small 1 61 1
    let after := ((run (eagerStep cfg) (Engine.init 0) eagerHistory).recallChunks cfg 0 [3, -1, 5]).1
    ∃ cell : ℕ, after.remapCompressedLoc cfg 0 3 = cell ∧ cell < 2 ∧ after.reserveBuf 0 cell = 31 :=
  (eager_refines_native_pool rfl 0 eagerHistory (by decide) 0 [3, -1, 5] (by decide) (by decide)).1 3
    (by decide) (by decide)

end FlashMemory
