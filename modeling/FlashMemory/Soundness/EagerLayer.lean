import FlashMemory.Model.Stores
import FlashMemory.Model.Release
import FlashMemory.Collections.BatchServing
import FlashMemory.Collections.CellCache

/-! # One layer of the eager engine as a coherent cache

In eager mode every layer runs its own allocator, and its table points only at cells that allocator
owns. `LayerCache` collects what a layer maintains: the allocator's partition of its cells, keys
inside the mirror, and coherence of the table with the mirror. A recall preserves it on its layer,
touches no other layer, and leaves every selected chunk mapped when the selection fits.
-/

namespace FlashMemory.Engine

open List SlotPool

variable {α : Type*} {cfg : Config} {engine : Engine α} {layer : ℕ} {locs : List ℤ}

structure LayerCache (cfg : Config) (engine : Engine α) (layer : ℕ) : Prop where
  pool : (engine.cells layer).WellFormed cfg.recallCellCapacity
  inRange : ∀ chunk ∈ (engine.cells layer).slots.keys, chunk < cfg.mirrorChunks
  coherent : Coherent (fun _ => True) (engine.cells layer).slots.get? (fun _ => False)
    (engine.chunkCellLut layer) (engine.reserveBuf layer) (engine.hostMirror layer)

theorem LayerCache.init (cfg : Config) (zero : α) (layer : ℕ) :
    LayerCache cfg (Engine.init zero) layer where
  pool := fresh_wellFormed _
  inRange chunk mem := by simp [Engine.init, fresh] at mem
  coherent := ⟨fun key cell points => by simp [Engine.init] at points,
    fun key cell points => by simp [Engine.init] at points⟩

/-- A layer's part of the state determines whether it is a coherent cache. -/
theorem LayerCache.congr {other : Engine α} (cache : LayerCache cfg engine layer)
    (cells : other.cells layer = engine.cells layer)
    (lut : other.chunkCellLut layer = engine.chunkCellLut layer)
    (reserve : other.reserveBuf layer = engine.reserveBuf layer)
    (mirror : other.hostMirror layer = engine.hostMirror layer) : LayerCache cfg other layer := by
  refine ⟨cells ▸ cache.pool, cells ▸ cache.inRange, ?_⟩
  rw [cells, lut, reserve, mirror]
  exact cache.coherent

/-! ## The recall -/

/-- Missed chunks that own no cell. -/
def layerNew (cfg : Config) (engine : Engine α) (layer : ℕ) (locs : List ℤ) : List ℕ :=
  (engine.layerMisses cfg layer (uniqueChunks locs)).filter (· ∉ (engine.cells layer).slots.keys)

/-- How the new chunks are served. -/
def layerServing (cfg : Config) (engine : Engine α) (layer : ℕ) (locs : List ℤ) : Serving ℕ :=
  (engine.cells layer).serve cfg.recallCellCapacity (uniqueChunks locs) (engine.layerNew cfg layer locs)

theorem layerNew_subset {chunk : ℕ} (mem : chunk ∈ engine.layerNew cfg layer locs) :
    chunk ∈ engine.layerMisses cfg layer (uniqueChunks locs) ∧ chunk ∈ uniqueChunks locs := by
  have missed := (mem_filter.mp mem).1
  exact ⟨missed, (mem_filter.mp missed).1⟩

theorem placeLayer_eq_serve :
    placeLayer cfg (engine.cells layer) (uniqueChunks locs) (engine.layerNew cfg layer locs) =
      engine.layerServing cfg layer locs := by
  unfold placeLayer
  split_ifs with bump
  · exact bumpAll_eq_serve
      (fun chunk mem => by simpa using (mem_filter.mp mem).2)
      (((uniqueChunks_nodup locs).filter _).filter _) bump.1 bump.2
  · rfl

theorem recallChunksLayer_other {other : ℕ} (apart : other ≠ layer) :
    let after := (engine.recallChunksLayer cfg layer locs).1
    after.cells other = engine.cells other ∧ after.chunkCellLut other = engine.chunkCellLut other ∧
      after.reserveBuf other = engine.reserveBuf other := by
  simp only [recallChunksLayer]
  split_ifs
  · exact ⟨rfl, rfl, rfl⟩
  · simp only [copyChunksLayer, Function.update_of_ne apart, and_self]

theorem recallChunksLayer_hostMirror :
    (engine.recallChunksLayer cfg layer locs).1.hostMirror = engine.hostMirror := by
  simp only [recallChunksLayer]
  split_ifs <;> rfl

theorem recallChunksLayer_cells :
    (engine.recallChunksLayer cfg layer locs).1.cells layer =
      (engine.layerServing cfg layer locs).pool := by
  simp only [recallChunksLayer]
  split_ifs with idle
  · simp only [layerServing, layerNew, idle, filter_nil, serve]
  · simp only [copyChunksLayer, Function.update_self]
    exact congrArg Serving.pool placeLayer_eq_serve

/-- The copies a recall makes: every missed chunk that ends with a cell. -/
def layerCopies (cfg : Config) (engine : Engine α) (layer : ℕ) (locs : List ℤ) : List (ℕ × ℕ) :=
  ((engine.layerServing cfg layer locs).pool.hits
    (engine.layerMisses cfg layer (uniqueChunks locs))).map fun item => (item.key, item.slot)

theorem mem_layerCopies {chunk cell : ℕ} :
    (chunk, cell) ∈ engine.layerCopies cfg layer locs ↔
      chunk ∈ engine.layerMisses cfg layer (uniqueChunks locs) ∧
        (engine.layerServing cfg layer locs).pool.slots.get? chunk = some cell := by
  simp only [layerCopies, mem_map, mem_hits]
  constructor
  · rintro ⟨item, ⟨mem, found, _⟩, same⟩
    obtain ⟨rfl, rfl⟩ := Prod.mk.inj same
    exact ⟨mem, found⟩
  · rintro ⟨mem, found⟩
    exact ⟨⟨chunk, cell, true⟩, ⟨mem, found, rfl⟩, rfl⟩

theorem layerServing_served {item : Served ℕ}
    (served : item ∈ (engine.layerServing cfg layer locs).served) :
    item.key ∈ engine.layerNew cfg layer locs ∧
      (engine.layerServing cfg layer locs).pool.slots.get? item.key = some item.slot := by
  have inGuard : ∀ key ∈ engine.layerNew cfg layer locs, key ∈ uniqueChunks locs :=
    fun key mem => (layerNew_subset mem).2
  refine ⟨?_, serve_get?_of_served inGuard served⟩
  exact serve_keys_initial.subset (mem_map_of_mem served)

theorem layerServing_evicted {chunk : ℕ}
    (evicted : chunk ∈ (engine.layerServing cfg layer locs).evicted) : chunk ∉ uniqueChunks locs :=
  (serve_get?_of_evicted (fun _ mem => (layerNew_subset mem).2) evicted).1

/-- What one column of the recalled layer holds afterwards: the slot of a missed chunk, nothing if
the chunk was evicted, or what it held. -/
theorem recallChunksLayer_lut (engine : Engine α) (layer : ℕ) (ranged : LocsInRange cfg locs) (chunk : ℕ) :
    (∃ cell : ℕ, (chunk, cell) ∈ engine.layerCopies cfg layer locs ∧
      (engine.recallChunksLayer cfg layer locs).1.chunkCellLut layer chunk = cell) ∨
    (∀ cell, (chunk, cell) ∉ engine.layerCopies cfg layer locs) ∧
      (engine.recallChunksLayer cfg layer locs).1.chunkCellLut layer chunk =
        if chunk ∈ (engine.layerServing cfg layer locs).evicted then -1
        else engine.chunkCellLut layer chunk := by
  by_cases idle : engine.layerMisses cfg layer (uniqueChunks locs) = []
  · refine Or.inr ⟨fun cell mem => ?_, ?_⟩
    · rw [mem_layerCopies, idle] at mem
      simp at mem
    · simp [recallChunksLayer, idle, layerServing, layerNew, serve]
  · have exact : ∀ key ∈ engine.layerMisses cfg layer (uniqueChunks locs), cfg.clampCol key = key :=
      fun key mem => clampCol_of_lt (lt_of_mem_uniqueChunks ranged (mem_filter.mp mem).1)
    simp only [recallChunksLayer, idle, ↓reduceIte, copyChunksLayer, Function.update_self]
    rw [show placeLayer cfg (engine.cells layer) (uniqueChunks locs)
      ((engine.layerMisses cfg layer (uniqueChunks locs)).filter
        (· ∉ (engine.cells layer).slots.keys)) = engine.layerServing cfg layer locs
      from placeLayer_eq_serve]
    rcases scatter_map_cases (engine.layerServing cfg layer locs).served
      (fun item => cfg.clampCol item.key) (fun item => (item.slot : ℤ)) _ chunk with
      ⟨item, mem, place, result⟩ | ⟨unserved, result⟩
    · obtain ⟨isNew, found⟩ := layerServing_served mem
      obtain rfl : item.key = chunk := (exact _ (layerNew_subset isNew).1).symm.trans place
      exact Or.inl ⟨item.slot, mem_layerCopies.mpr ⟨(layerNew_subset isNew).1, found⟩, result⟩
    rw [result]
    by_cases gone : chunk ∈ (engine.layerServing cfg layer locs).evicted
    · refine Or.inr ⟨fun cell mem => ?_, by simp only [gone, ↓reduceIte]⟩
      exact layerServing_evicted gone (mem_filter.mp (mem_layerCopies.mp mem).1).1
    simp only [gone, ↓reduceIte]
    -- The chunk was not given a cell by the loop, so only a cell it already owned can be written.
    rcases scatter_map_cases ((engine.cells layer).hits
        ((engine.layerMisses cfg layer (uniqueChunks locs)).filter
          (· ∈ (engine.cells layer).slots.keys)))
      (fun item => cfg.clampCol item.key) (fun item => (item.slot : ℤ))
      (engine.chunkCellLut layer) chunk with ⟨item, mem, place, result⟩ | ⟨unowned, result⟩
    · obtain ⟨reused, found, _⟩ := mem_hits.mp mem
      have missed := (mem_filter.mp reused).1
      obtain rfl : item.key = chunk := (exact _ missed).symm.trans place
      refine Or.inl ⟨item.slot, mem_layerCopies.mpr ⟨missed, ?_⟩, result⟩
      exact serve_get?_of_guarded (mem_filter.mp missed).1 found
    · refine Or.inr ⟨fun cell mem => ?_, result⟩
      obtain ⟨missed, found⟩ := mem_layerCopies.mp mem
      have untouched : chunk ∉ (engine.layerServing cfg layer locs).keys := by
        intro served
        obtain ⟨item, present, rfl⟩ := mem_map.mp served
        exact unserved item present (exact _ missed)
      have owned : (engine.cells layer).slots.get? chunk = some cell :=
        (serve_get?_of_untouched untouched gone).symm.trans found
      refine unowned ⟨chunk, cell, true⟩ (mem_hits.mpr ⟨?_, owned, rfl⟩) (exact _ missed)
      exact mem_filter.mpr ⟨missed, decide_eq_true (OrderedDict.mem_keys_of_get? owned)⟩

section

variable (cache : LayerCache cfg engine layer) (ranged : LocsInRange cfg locs)

include cache ranged

private theorem recallChunksLayer_reserve (cell : ℕ) :
    (∃ pair ∈ engine.layerCopies cfg layer locs, pair.2 = cell ∧
      (engine.recallChunksLayer cfg layer locs).1.reserveBuf layer cell =
        engine.hostMirror layer pair.1) ∨
    (∀ pair ∈ engine.layerCopies cfg layer locs, pair.2 ≠ cell) ∧
      (engine.recallChunksLayer cfg layer locs).1.reserveBuf layer cell =
        engine.reserveBuf layer cell := by
  have inBounds : (engine.layerCopies cfg layer locs).filter (copyInBounds cfg) =
      engine.layerCopies cfg layer locs := by
    apply filter_eq_self.mpr
    rintro ⟨chunk, slot⟩ mem
    obtain ⟨missed, found⟩ := mem_layerCopies.mp mem
    have cellBound := (serve_wellFormed cache.pool).slot_lt found
    have chunkBound := lt_of_mem_uniqueChunks ranged (mem_filter.mp missed).1
    simp only [copyInBounds, decide_eq_true_eq]
    exact ⟨chunkBound, Nat.lt_of_lt_of_le cellBound (recallCellCapacity_le cfg)⟩
  by_cases idle : engine.layerMisses cfg layer (uniqueChunks locs) = []
  · refine Or.inr ⟨fun pair mem => ?_, by simp [recallChunksLayer, idle]⟩
    rw [show pair = (pair.1, pair.2) from rfl, mem_layerCopies, idle] at mem
    simp at mem
  · have result : (engine.recallChunksLayer cfg layer locs).1.reserveBuf layer =
        scatter (engine.reserveBuf layer) ((engine.layerCopies cfg layer locs).map fun pair =>
          (pair.2, engine.hostMirror layer pair.1)) := by
      rw [← inBounds]
      simp only [recallChunksLayer, idle, ↓reduceIte, copyChunksLayer, Function.update_self,
        layerCopies, ← placeLayer_eq_serve]
      rfl
    rw [result]
    exact scatter_map_cases _ _ _ _ _

/-- A recall keeps its layer a coherent cache. -/
theorem LayerCache.afterRecall : LayerCache cfg (engine.recallChunksLayer cfg layer locs).1 layer := by
  have valid : (engine.layerServing cfg layer locs).pool.WellFormed cfg.recallCellCapacity :=
    serve_wellFormed cache.pool
  refine ⟨recallChunksLayer_cells ▸ valid, ?_, ?_⟩
  · intro chunk mem
    rw [recallChunksLayer_cells] at mem
    by_contra outside
    have unrequested : chunk ∉ engine.layerNew cfg layer locs := fun requested =>
      outside (lt_of_mem_uniqueChunks ranged (layerNew_subset requested).2)
    have unbound : (engine.cells layer).slots.get? chunk = none :=
      ((engine.cells layer).slots.get?_eq_none_iff chunk).mpr fun bound =>
        outside (cache.inRange chunk bound)
    exact (OrderedDict.get?_eq_none_iff _ chunk).mp
      (serve_get?_of_absent unrequested unbound) mem
  · rw [recallChunksLayer_hostMirror, recallChunksLayer_cells]
    refine cache.coherent.install (fun first second cell left right => valid.injective left right)
      (fun pair (mem : pair ∈ engine.layerCopies cfg layer locs) => (mem_layerCopies.mp mem).2)
      ?_ (recallChunksLayer_reserve cache ranged)
    intro chunk cell points _
    rcases recallChunksLayer_lut engine layer ranged chunk with
      ⟨slot, mem, value⟩ | ⟨uncopied, value⟩
    · obtain rfl : slot = cell := Int.ofNat_inj.mp (value.symm.trans points)
      exact Or.inl mem
    · have points := value.symm.trans points
      split_ifs at points with gone
      refine Or.inr ⟨points, fun owned => ?_⟩
      by_cases served : chunk ∈ (engine.layerServing cfg layer locs).keys
      · obtain ⟨item, present, rfl⟩ := mem_map.mp served
        obtain ⟨isNew, found⟩ := layerServing_served present
        exact absurd (mem_layerCopies.mpr ⟨(layerNew_subset isNew).1, found⟩) (uncopied _)
      · exact (serve_get?_of_untouched served gone).trans owned

/-- When the selection fits, every chunk of it is mapped afterwards. -/
theorem recallChunksLayer_resident (fits : (uniqueChunks locs).length ≤ cfg.recallCellCapacity) {chunk : ℕ}
    (selected : chunk ∈ uniqueChunks locs) :
    0 ≤ (engine.recallChunksLayer cfg layer locs).1.chunkCellLut layer chunk := by
  have inGuard : ∀ key ∈ engine.layerNew cfg layer locs, key ∈ uniqueChunks locs :=
    fun key mem => (layerNew_subset mem).2
  rcases recallChunksLayer_lut engine layer ranged chunk with ⟨slot, _, value⟩ | ⟨uncopied, value⟩
  · rw [value]
    exact Int.natCast_nonneg _
  rw [value, if_neg fun gone => layerServing_evicted gone selected]
  by_contra negative
  have missed : chunk ∈ engine.layerMisses cfg layer (uniqueChunks locs) := by
    refine mem_filter.mpr ⟨selected, ?_⟩
    rw [clampCol_of_lt (lt_of_mem_uniqueChunks ranged selected)]
    exact decide_eq_true (not_le.mp negative)
  -- A missed chunk ends with a cell: the one it owned, or the one the loop gave it.
  suffices ∃ slot, (engine.layerServing cfg layer locs).pool.slots.get? chunk = some slot by
    obtain ⟨slot, found⟩ := this
    exact uncopied slot (mem_layerCopies.mpr ⟨missed, found⟩)
  by_cases owned : chunk ∈ (engine.cells layer).slots.keys
  · obtain ⟨slot, found⟩ := (OrderedDict.mem_keys_iff _ chunk).mp owned
    exact ⟨slot, serve_get?_of_guarded selected found⟩
  · have served : chunk ∈ (engine.layerServing cfg layer locs).keys := by
      rw [layerServing, serve_keys_eq (serve_not_exhausted inGuard cache.pool fits)]
      exact mem_filter.mpr ⟨missed, decide_eq_true owned⟩
    obtain ⟨item, present, rfl⟩ := mem_map.mp served
    exact ⟨item.slot, (layerServing_served present).2⟩

end

end FlashMemory.Engine
