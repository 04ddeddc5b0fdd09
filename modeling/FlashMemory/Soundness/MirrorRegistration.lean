import FlashMemory.Model.MirrorRegistration
import Mathlib.Data.List.GetD
import Mathlib.Order.Basic

/-! # Positions in host memory

The mask is right for the buffers of the target model, but it is not used when those of a draft model follow them, and
it is not sent when the engine has no reserve of its own. The counts that decide then take the mirrors for a prefix of
the positions. -/

namespace FlashMemory

open List

variable {pool : LayerPool} {draft : Option LayerPool} {args : KvArgs} {ptrs : List BufPtr} {mask : List Bool} {i : ℕ}
  {ptr : BufPtr}

namespace LayerPool

def c4Ptrs (pool : LayerPool) : List BufPtr :=
  (List.range pool.c4Layers).map fun layer => if pool.bMode then .c4Mirror layer else .c4 layer

def indexerPtrs (pool : LayerPool) : List BufPtr :=
  (List.range pool.indexerLayers).map fun layer => if pool.offloaded layer then .indexMirror layer else .indexer layer

/-- The pointers come in three groups, and the mask is right where it is written. -/
theorem getContiguousBufInfos_eq (infos : pool.getContiguousBufInfos = some (ptrs, mask)) :
    ptrs = pool.c4Ptrs ++ pool.indexerPtrs ++ (List.range pool.c128Layers).map .c128 ∧
    mask = ptrs.map BufPtr.isMirror := by
  simp only [getContiguousBufInfos, Option.ite_none_left_eq_some, Option.some.injEq, Prod.mk.injEq] at infos
  obtain ⟨-, rfl, rfl⟩ := infos
  refine ⟨rfl, ?_⟩
  simp only [map_append, map_map]
  congr 1
  · congr 1
    · refine map_congr_left fun layer _ => ?_
      cases pool.bMode <;> simp [BufPtr.isMirror]
    · refine map_congr_left fun layer _ => ?_
      cases off : pool.offloaded layer <;> simp [off, BufPtr.isMirror]

/-- How many positions the two counts put in host memory. -/
def dramLayerNum (pool : LayerPool) : ℕ :=
  if pool.bMode then
    (pool.swapEngineP.map (·.c4LayerNum)).getD 0 + if pool.idxOff then (pool.swapEngineP.map (·.c4LayerNum)).getD 0
      else 0
  else 0

/-- The mirrors of a pool are its positions below a count, if its first buffer is at the position `start`. -/
structure FrontAt (pool : LayerPool) (start count : ℕ) : Prop where
  c4 : ∀ layer < pool.c4Layers, start + layer < count ↔ pool.bMode = true
  indexer : ∀ layer < pool.indexerLayers, start + pool.c4Layers + layer < count ↔ pool.offloaded layer = true
  c128 : ∀ layer < pool.c128Layers, count ≤ start + pool.c4Layers + pool.indexerLayers + layer

def buffers (pool : LayerPool) : ℕ := pool.c4Layers + pool.indexerLayers + pool.c128Layers

end LayerPool

open LayerPool

/-- Mirrors are exactly the positions below a count. -/
def MirrorsBelow (start count : ℕ) (ptrs : List BufPtr) : Prop :=
  ∀ i ptr, ptrs[i]? = some ptr → (start + i < count ↔ ptr.isMirror = true)

theorem mirrorsBelow_append {start count : ℕ} {others : List BufPtr} :
    MirrorsBelow start count (ptrs ++ others) ↔ MirrorsBelow start count ptrs ∧
    MirrorsBelow (start + ptrs.length) count others := by
  constructor
  · refine fun below => ⟨fun i ptr isAt => below i ptr ?_, fun i ptr isAt => ?_⟩
    · rwa [getElem?_append_left (List.getElem?_eq_some_iff.mp isAt).1]
    · rw [Nat.add_assoc]
      apply below (ptrs.length + i) ptr
      rwa [getElem?_append_right (Nat.le_add_right _ _), Nat.add_sub_cancel_left]
  · rintro ⟨first, second⟩ i ptr isAt
    rcases Nat.lt_or_ge i ptrs.length with inside | beyond
    · exact first i ptr (by rwa [getElem?_append_left inside] at isAt)
    · rw [getElem?_append_right beyond] at isAt
      have below := second _ ptr isAt
      rwa [Nat.add_assoc, Nat.add_sub_cancel' beyond] at below

private theorem mirrorsBelow_map_range {start count layers : ℕ} {buffer : ℕ → BufPtr} :
    MirrorsBelow start count ((List.range layers).map buffer) ↔
      ∀ layer < layers, start + layer < count ↔ (buffer layer).isMirror = true := by
  constructor
  · exact fun below layer inside => below layer _ (by simp [inside])
  · intro all i ptr isAt
    obtain ⟨inside, rfl⟩ := List.getElem?_eq_some_iff.mp isAt
    rw [length_map, length_range] at inside
    rw [getElem_map, getElem_range]
    exact all i inside

private theorem mirrorsBelow_iff (infos : pool.getContiguousBufInfos = some (ptrs, mask)) {start count : ℕ} :
    MirrorsBelow start count ptrs ↔ pool.FrontAt start count := by
  obtain ⟨rfl, -⟩ := getContiguousBufInfos_eq infos
  have c4 : ∀ layer, (if pool.bMode then BufPtr.c4Mirror layer else .c4 layer).isMirror = pool.bMode := fun layer => by
    cases pool.bMode <;> simp [BufPtr.isMirror]
  have indexer : ∀ layer, (if pool.offloaded layer then BufPtr.indexMirror layer else .indexer layer).isMirror =
      pool.offloaded layer :=
    fun layer => by cases off : pool.offloaded layer <;> simp [BufPtr.isMirror]
  rw [mirrorsBelow_append, mirrorsBelow_append, c4Ptrs, indexerPtrs, mirrorsBelow_map_range, mirrorsBelow_map_range,
    mirrorsBelow_map_range]
  have c128 : ∀ layer, (BufPtr.c128 layer).isMirror = false := fun _ => rfl
  simp only [c4, indexer, c128, length_append, length_map, length_range, ← Nat.add_assoc, Bool.false_eq_true, iff_false]
  constructor
  · rintro ⟨⟨c4, indexer⟩, c128⟩
    exact ⟨c4, indexer, fun layer inside => Nat.not_lt.mp (c128 layer inside)⟩
  · exact fun front => ⟨⟨front.c4, front.indexer⟩, fun layer inside => Nat.not_lt.mpr (front.c128 layer inside)⟩

/-- The mask is used, or the mirrors of both pools are the positions below the counts. The mask is used if there is a
reserve and no buffer of a draft model. -/
def Classifiable (pool : LayerPool) (draft : Option LayerPool) : Prop :=
  pool.bMode = true ∧ (∀ other ∈ draft, other.buffers = 0) ∨
    pool.FrontAt 0 pool.dramLayerNum ∧ ∀ other ∈ draft, other.FrontAt pool.buffers pool.dramLayerNum

private theorem initKvManager_eq (built : initKvManager pool draft = some args) :
    ∃ ptrs others : List BufPtr, ∃ mask : List Bool,
    pool.getContiguousBufInfos = some (ptrs, ptrs.map BufPtr.isMirror) ∧
      draftBufInfos draft = some (others, mask) ∧ args =
        { kvDataPtrs := ptrs ++ others
          c4DramLayerNum := if pool.bMode then (pool.swapEngineP.map (·.c4LayerNum)).getD 0 else 0
          indexDramLayerNum := if pool.bMode && pool.idxOff then (pool.swapEngineP.map (·.c4LayerNum)).getD 0 else 0
          kvDramMask := if pool.bMode then ptrs.map BufPtr.isMirror else [] } := by
  unfold initKvManager at built
  split at built
  · rename_i ptrs mask others otherMask infos draftInfos
    obtain rfl := (getContiguousBufInfos_eq infos).2
    exact ⟨ptrs, others, otherMask, infos, draftInfos, (Option.some.inj built).symm⟩
  · cases built

private theorem length_of_infos (infos : pool.getContiguousBufInfos = some (ptrs, mask)) :
    ptrs.length = pool.buffers := by
  obtain ⟨rfl, -⟩ := getContiguousBufInfos_eq infos
  simp [c4Ptrs, indexerPtrs, buffers, Nat.add_assoc]

/-- Every position is classified by what is there, exactly under the condition. -/
private theorem isDram_eq_isMirror_iff (built : initKvManager pool draft = some args) :
    (∀ i ptr, args.kvDataPtrs[i]? = some ptr →
      isDram args.c4DramLayerNum args.indexDramLayerNum args.kvDramMask args.kvDataPtrs.length i = ptr.isMirror) ↔
      Classifiable pool draft := by
  obtain ⟨ptrs, others, mask, infos, draftInfos, rfl⟩ := initKvManager_eq built
  have size := length_of_infos infos
  have none : (∀ other ∈ draft, other.buffers = 0) ↔ others = [] := by
    cases draft with
    | none => simp [(Prod.mk.inj (Option.some.inj draftInfos)).1.symm]
    | some other => simp [← length_of_infos draftInfos]
  have drafted : MirrorsBelow ptrs.length pool.dramLayerNum others ↔
      ∀ other ∈ draft, other.FrontAt pool.buffers pool.dramLayerNum := by
    cases draft with
    | none => simp [(Prod.mk.inj (Option.some.inj draftInfos)).1.symm, MirrorsBelow]
    | some other => simp [mirrorsBelow_iff draftInfos, size]
  rw [Classifiable, none, ← drafted, ← mirrorsBelow_iff infos]
  by_cases masked : pool.bMode = true ∧ others = []
  · obtain ⟨enabled, rfl⟩ := masked
    refine iff_of_true (fun i ptr isAt => ?_) (.inl ⟨enabled, rfl⟩)
    rw [append_nil] at isAt
    have some : ptrs ≠ [] := fun empty => by simp [empty] at isAt
    simp [isDram, enabled, some, getD_eq_getElem?_getD, isAt]
  · have both := @mirrorsBelow_append ptrs 0 pool.dramLayerNum others
    rw [Nat.zero_add] at both
    rw [or_iff_right masked, ← both]
    have counted : (if pool.bMode then (pool.swapEngineP.map (·.c4LayerNum)).getD 0 else 0) +
        (if pool.bMode && pool.idxOff then (pool.swapEngineP.map (·.c4LayerNum)).getD 0 else 0) =
          pool.dramLayerNum := by
      rw [dramLayerNum]
      cases pool.bMode <;> rfl
    refine forall_congr' fun i => forall_congr' fun ptr => imp_congr_right fun isAt => ?_
    rw [isDram, if_neg, counted, Bool.eq_iff_iff, decide_eq_true_eq, Nat.zero_add]
    rintro ⟨used, fits⟩
    cases enabled : pool.bMode with
    | false => simp [enabled] at used
    | true =>
      simp only [enabled, if_true, length_map, length_append] at fits
      exact masked ⟨enabled, eq_nil_of_length_eq_zero (by omega)⟩

/-- Both sides put the positions of mirrors, and no other ones, in host memory, exactly if the mask is used or the
counts are right. -/
theorem mirrors_classified (pool : LayerPool) (draft : Option LayerPool) (args : KvArgs) (srcKvPtrs : ℕ)
    (built : initKvManager pool draft = some args) (same : srcKvPtrs = args.kvDataPtrs.length) :
    (args.registerBufferToEngine = args.kvDataPtrs.map (fun ptr => (ptr, ptr.isMirror)) ∧
      args.registerInfo.sendKvcache srcKvPtrs = args.kvDataPtrs.map fun ptr => (ptr, ptr.isMirror)) ↔
      Classifiable pool draft := by
  have received : args.registerInfo.kvDramMask.map (fun byte => decide (byte ≠ 0)) = args.kvDramMask := by
    rw [KvArgs.registerInfo, map_map]
    refine (map_congr_left fun dram _ => ?_).trans (map_id _)
    cases dram <;> rfl
  have all : args.registerInfo.dstKvPtrs.take args.kvDataPtrs.length = args.kvDataPtrs := take_length
  have sent : args.registerInfo.sendKvcache srcKvPtrs = args.registerBufferToEngine := by
    rw [KvArgsRegisterInfo.sendKvcache, received, same, all]
    rfl
  rw [sent, and_self, ← isDram_eq_isMirror_iff built, KvArgs.registerBufferToEngine]
  constructor
  · intro classified i ptr isAt
    have entry := congrArg (·[i]?) classified
    simpa [isAt] using entry
  · intro classified
    refine ext_getElem (by simp) fun i inside _ => ?_
    simp only [getElem_map, getElem_zipIdx, Nat.zero_add, Prod.mk.injEq, true_and]
    exact classified i _ (getElem?_eq_getElem _)

/-- Two c4 layers and one of each other kind, with a reserve and offloaded index-K. The layers in the list stay on the
GPU. -/
def offloadingPool (ownReserve : Bool) (fullLayers : List ℕ) :
    LayerPool := ⟨2, 2, 1, some ⟨2, ownReserve, true, fullLayers⟩⟩

/-- A draft model with one buffer. -/
def draftPool : LayerPool := ⟨0, 0, 1, none⟩

theorem mirrors_classified_of_offloadingPool :
    ∃ args, initKvManager (offloadingPool true []) (some draftPool) = some args ∧
      args.registerBufferToEngine = args.kvDataPtrs.map fun ptr => (ptr, ptr.isMirror) := by
  refine ⟨_, rfl, ((mirrors_classified (offloadingPool true []) (some draftPool) _ 6 rfl rfl).mpr (.inr ⟨?_, ?_⟩)).1⟩
  · exact ⟨by decide, by decide, by decide⟩
  · rintro _ ⟨⟩
    exact ⟨by decide, by decide, by decide⟩

/-- With a draft model the index-K buffer of a layer that stays on the GPU is registered and sent as host memory.
Without a reserve the mirror of an offloaded layer is registered as device memory. -/
theorem kept_layer_registered_as_dram :
    (∃ args, initKvManager (offloadingPool true [1]) (some draftPool) = some args ∧
      (BufPtr.indexer 1, true) ∈ args.registerBufferToEngine ∧
      (BufPtr.indexer 1, true) ∈ args.registerInfo.sendKvcache 6) ∧
    ∃ args, initKvManager (offloadingPool false []) none = some args ∧
      (BufPtr.indexMirror 0, false) ∈ args.registerBufferToEngine ∧
      (BufPtr.indexMirror 0, false) ∈ args.registerInfo.sendKvcache 5 :=
  ⟨⟨_, rfl, by decide, by decide⟩, _, rfl, by decide, by decide⟩

end FlashMemory
