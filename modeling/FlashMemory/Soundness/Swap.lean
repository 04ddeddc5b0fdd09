import FlashMemory.Model.Recall
import FlashMemory.Collections.BatchServing

/-! # What a recall of all layers does

Both global recalls end the same way: some entries are dropped, and a list of (chunk, cell) pairs is
copied from the mirror and then entered in the table of every layer. `Swap` states that effect once.
For the chunk allocator the pairs are what the allocation loop served, for the page allocator they
are the chunks of the served pages that the decode-chunk guard lets through. A call that raises is a
swap with no pairs.
-/

namespace FlashMemory.Engine

open List SlotPool

variable {α : Type*} {cfg : Config} {engine before after : Engine α} {locs : List ℤ}
  {dropped : List ℕ} {pairs : List (ℕ × ℕ)}
variable {chunk cell : ℕ}

structure Swap (before after : Engine α) (dropped : List ℕ) (pairs : List (ℕ × ℕ)) : Prop where
  lut : ∀ layer, after.chunkCellLut layer =
    scatter (fun col => if col ∈ dropped then -1 else before.chunkCellLut layer col)
      (pairs.map fun pair => (pair.1, (pair.2 : ℤ)))
  reserve : ∀ layer, after.reserveBuf layer =
    scatter (before.reserveBuf layer)
      (pairs.map fun pair => (pair.2, before.hostMirror layer pair.1))
  mirror : after.hostMirror = before.hostMirror

section

variable (swap : Swap before after dropped pairs)
include swap

theorem Swap.lut_cases (layer chunk : ℕ) :
    (∃ cell : ℕ, (chunk, cell) ∈ pairs ∧ after.chunkCellLut layer chunk = cell) ∨
    (∀ cell, (chunk, cell) ∉ pairs) ∧ after.chunkCellLut layer chunk =
      if chunk ∈ dropped then -1 else before.chunkCellLut layer chunk := by
  rw [swap.lut]
  rcases scatter_map_cases pairs Prod.fst (fun pair => (pair.2 : ℤ))
    (fun col => if col ∈ dropped then -1 else before.chunkCellLut layer col) chunk with
    ⟨pair, mem, rfl, result⟩ | ⟨unwritten, result⟩
  · exact Or.inl ⟨pair.2, mem, result⟩
  · exact Or.inr ⟨fun cell mem => unwritten _ mem rfl, result⟩

theorem Swap.reserve_cases (layer cell : ℕ) : (∃ pair ∈ pairs, pair.2 = cell ∧
      after.reserveBuf layer cell = before.hostMirror layer pair.1) ∨
    (∀ pair ∈ pairs, pair.2 ≠ cell) ∧ after.reserveBuf layer cell = before.reserveBuf layer cell := by
  rw [swap.reserve]
  exact scatter_map_cases _ _ _ _ _

/-- A chunk that looks the same in two layers still does after a swap. -/
theorem Swap.uniform {first second : ℕ} (same : before.chunkCellLut first chunk = before.chunkCellLut second chunk) :
    after.chunkCellLut first chunk = after.chunkCellLut second chunk := by
  rw [swap.lut first, swap.lut second]
  by_cases written : chunk ∈ (pairs.map fun pair => (pair.1, (pair.2 : ℤ))).map Prod.fst
  · exact scatter_congr_of_mem written
  · rw [scatter_of_not_mem written, scatter_of_not_mem written, same]

end

theorem Swap.refl (engine : Engine α) : Swap engine engine [] [] := by
  constructor <;> simp [scatter]

/-- The parts of the state that no allocation step changes. -/
structure SameStore (before after : Engine α) : Prop where
  reserve : after.reserveBuf = before.reserveBuf
  mirror : after.hostMirror = before.hostMirror

section

variable {base : Engine α} (same : SameStore engine base)
  (cleared : base.chunkCellLut = (engine.clearCols dropped).chunkCellLut)
include same cleared

/-- Copying and entering pairs whose chunks are in range, once the entries are dropped. -/
theorem SameStore.swap (columns : ∀ pair ∈ pairs, pair.1 < cfg.mirrorChunks)
    (bounds : pairs.filter (copyInBounds cfg) = pairs) :
    Swap engine ((base.copyChunksAllLayers cfg pairs).writeLut cfg pairs) dropped pairs := by
  have exact : (pairs.map fun pair => (cfg.clampCol pair.1, (pair.2 : ℤ))) =
      pairs.map fun pair => (pair.1, (pair.2 : ℤ)) :=
    map_congr_left fun pair mem => by rw [clampCol_of_lt (columns pair mem)]
  constructor <;>
    simp only [writeLut, copyChunksAllLayers, clearCols, exact, bounds, cleared, same.reserve, same.mirror,
    implies_true]

/-- A call that stops after the allocation only drops entries. -/
theorem SameStore.swap_nil : Swap engine base dropped [] := by
  constructor <;> simp only [cleared, clearCols, scatter, map_nil, foldl_nil, same.reserve, same.mirror, implies_true]

end

/-! ## After the allocation -/

/-- How both recalls end: an exhausted allocator sets `_g_full` or raises, and then the pairs are copied and entered. -/
def install (cfg : Config) (base : Engine α) (exhausted : Bool) (pairs : Engine α → List (ℕ × ℕ)) :
    Engine α × Except PyError ℕ :=
  match base.noteExhausted exhausted with
  | .error error => (base, .error error)
  | .ok engine =>
    ((engine.copyChunksAllLayers cfg (pairs engine)).writeLut cfg (pairs engine), .ok (pairs engine).length)

section Install

variable {base : Engine α} {exhausted : Bool} {entered : Engine α → List (ℕ × ℕ)}

theorem install_kept : let after := (base.install cfg exhausted entered).1
    after.gCells = base.gCells ∧ after.gPages = base.gPages ∧ after.reqOwnedPages = base.reqOwnedPages := by
  unfold install noteExhausted
  split_ifs
  · cases base.gFull with
    | none => exact ⟨rfl, rfl, rfl⟩
    | some flag => exact ⟨rfl, rfl, rfl⟩
  · exact ⟨rfl, rfl, rfl⟩

/-- The end raises only if the exhausted allocator finds no `_g_full`. -/
theorem install_returns (noted : base.gFull ≠ none ∨ exhausted = false) :
    ∃ copied, (base.install cfg exhausted entered).2 = .ok copied := by
  unfold install noteExhausted
  rcases noted with present | rfl
  · obtain ⟨flag, is⟩ := Option.ne_none_iff_exists'.mp present
    rw [is]
    split_ifs <;> exact ⟨_, rfl⟩
  · exact ⟨_, rfl⟩

/-- The end is a swap, with no pairs if it raises. -/
theorem SameStore.install (same : SameStore engine base)
    (cleared : base.chunkCellLut = (engine.clearCols dropped).chunkCellLut)
    (is : ∀ next : Engine α, next.chunkCellLut = base.chunkCellLut → entered next = pairs)
    (columns : ∀ pair ∈ pairs, pair.1 < cfg.mirrorChunks) (bounds : pairs.filter (copyInBounds cfg) = pairs) :
    ∃ copied, Swap engine (base.install cfg exhausted entered).1 dropped copied ∧
      (copied = pairs ∨ copied = [] ∧ base.gFull = none ∧ exhausted = true) := by
  unfold Engine.install noteExhausted
  split_ifs with stuck
  · cases base.gFull with
    | none => exact ⟨[], same.swap_nil cleared, .inr ⟨rfl, rfl, stuck⟩⟩
    | some flag =>
      refine ⟨pairs, ?_, .inl rfl⟩
      dsimp only
      rw [is { base with gFull := some true } rfl]
      exact SameStore.swap ⟨same.1, same.2⟩ cleared columns bounds
  · refine ⟨pairs, ?_, .inl rfl⟩
    dsimp only
    rw [is _ rfl]
    exact same.swap cleared columns bounds

end Install

/-! ## The chunk allocator -/

/-- The missed chunks in the order they are served: those that own a cell first. -/
def chunkOrder (cfg : Config) (engine : Engine α) (locs : List ℤ) : List ℕ :=
  (engine.layerMisses cfg 0 (uniqueChunks locs)).filter (· ∈ engine.gCells.slots.keys) ++
    (engine.layerMisses cfg 0 (uniqueChunks locs)).filter (· ∉ engine.gCells.slots.keys)

def chunkServing (cfg : Config) (engine : Engine α) (locs : List ℤ) : Serving ℕ :=
  engine.gCells.serve cfg.recallCellCapacity (uniqueChunks locs) (engine.chunkOrder cfg locs)

theorem mem_chunkOrder :
    chunk ∈ engine.chunkOrder cfg locs ↔ chunk ∈ engine.layerMisses cfg 0 (uniqueChunks locs) := by
  simp only [chunkOrder, mem_append, mem_filter, decide_eq_true_eq]
  tauto

theorem chunkOrder_nodup : (engine.chunkOrder cfg locs).Nodup := by
  have distinct : (engine.layerMisses cfg 0 (uniqueChunks locs)).Nodup :=
    (uniqueChunks_nodup locs).filter _
  refine (distinct.filter _).append (distinct.filter _) ?_
  intro chunk owned unowned
  have isOwned := (mem_filter.mp owned).2
  have isUnowned := (mem_filter.mp unowned).2
  simp only [decide_eq_true_eq] at isOwned isUnowned
  exact isUnowned isOwned

theorem chunkOrder_selected : ∀ chunk ∈ engine.chunkOrder cfg locs, chunk ∈ uniqueChunks locs :=
  fun _ mem => (mem_filter.mp (mem_chunkOrder.mp mem)).1

/-- Every path through the allocation is the same serving. -/
theorem placeChunks_eq_serve :
    engine.placeChunks cfg (uniqueChunks locs) (engine.layerMisses cfg 0 (uniqueChunks locs)) =
      engine.chunkServing cfg locs := by
  have distinct : (engine.layerMisses cfg 0 (uniqueChunks locs)).Nodup :=
    (uniqueChunks_nodup locs).filter _
  have unowned : ∀ chunk ∈ (engine.layerMisses cfg 0 (uniqueChunks locs)).filter
      (· ∉ engine.gCells.slots.keys), chunk ∉ engine.gCells.slots.keys :=
    fun chunk mem => by simpa using (mem_filter.mp mem).2
  simp only [placeChunks, chunkServing, chunkOrder]
  split_ifs with fast bump
  · -- No missed chunk owns a cell, so all of them are new.
    have allNew : (engine.layerMisses cfg 0 (uniqueChunks locs)).filter
        (· ∉ engine.gCells.slots.keys) = engine.layerMisses cfg 0 (uniqueChunks locs) := by
      apply filter_eq_self.mpr
      intro chunk mem
      simpa using filter_eq_nil_iff.mp fast.1 chunk mem
    rw [fast.1, nil_append, allNew]
    exact bumpAll_eq_serve (allNew ▸ unowned) distinct fast.2.1 fast.2.2.2
  all_goals
    rw [serve_owned_append
      (fun chunk mem => by simpa using (mem_filter.mp mem).2)]
    have absent : ∀ chunk ∈ (engine.layerMisses cfg 0 (uniqueChunks locs)).filter
        (· ∉ engine.gCells.slots.keys), chunk ∉ (((engine.layerMisses cfg 0 (uniqueChunks locs)).filter
          (· ∈ engine.gCells.slots.keys)).foldl touch engine.gCells).slots.keys :=
      fun chunk mem => mem_keys_foldl_touch.not.mpr (unowned chunk mem)
  · rw [bumpAll_eq_serve absent (distinct.filter _) bump.1 bump.2]
  · rw [serveBatch_eq_serve absent (distinct.filter _)
      fun chunk mem => (mem_filter.mp (mem_filter.mp mem).1).1]

def chunkPairs (cfg : Config) (engine : Engine α) (locs : List ℤ) : List (ℕ × ℕ) :=
  (engine.chunkServing cfg locs).served.map fun item => (item.key, item.slot)

/-- The whole effect of `_recall_global`. -/
structure ChunkRecall (cfg : Config) (before after : Engine α) (locs : List ℤ)
    (pairs : List (ℕ × ℕ)) : Prop where
  swap : Swap before after ((before.chunkServing cfg locs).evicted.filter (· < cfg.lutCols)) pairs
  gCells : after.gCells = (before.chunkServing cfg locs).pool
  gPages : after.gPages = before.gPages
  /-- Nothing is copied only when the exhausted allocator found no `_g_full`. -/
  copied : pairs = before.chunkPairs cfg locs ∨
    pairs = [] ∧ before.gFull = none ∧ (before.chunkServing cfg locs).exhausted = true

theorem mem_chunkPairs (mem : (chunk, cell) ∈ engine.chunkPairs cfg locs) :
    chunk ∈ engine.layerMisses cfg 0 (uniqueChunks locs) ∧
      (engine.chunkServing cfg locs).pool.slots.get? chunk = some cell := by
  obtain ⟨item, present, same⟩ := mem_map.mp mem
  obtain ⟨rfl, rfl⟩ := Prod.mk.inj same
  refine ⟨mem_chunkOrder.mp (serve_keys_initial.subset (mem_map_of_mem present)), ?_⟩
  exact serve_get?_of_served chunkOrder_selected present

/-- Only missed chunks are entered. -/
theorem ChunkRecall.missed (spec : ChunkRecall cfg before after locs pairs)
    (mem : (chunk, cell) ∈ pairs) : chunk ∈ before.layerMisses cfg 0 (uniqueChunks locs) := by
  rcases spec.copied with rfl | ⟨rfl, _⟩
  · exact (mem_chunkPairs mem).1
  · contradiction

private theorem chunkPairs_inBounds (valid : engine.gCells.WellFormed cfg.recallCellCapacity)
    (ranged : LocsInRange cfg locs) :
    (engine.chunkPairs cfg locs).filter (copyInBounds cfg) = engine.chunkPairs cfg locs := by
  apply filter_eq_self.mpr
  rintro ⟨chunk, cell⟩ mem
  obtain ⟨missed, found⟩ := mem_chunkPairs mem
  have cellBound := (serve_wellFormed valid).slot_lt found
  simp only [copyInBounds, decide_eq_true_eq]
  exact ⟨lt_of_mem_uniqueChunks ranged (mem_filter.mp missed).1,
    Nat.lt_of_lt_of_le cellBound (recallCellCapacity_le cfg)⟩

theorem recallGlobal_eq : engine.recallGlobal cfg locs =
    if engine.layerMisses cfg 0 (uniqueChunks locs) = [] then (engine, .ok 0)
    else
      install cfg ({ engine with
          gCells := (engine.chunkServing cfg locs).pool
          nEvictions := engine.nEvictions + (engine.chunkServing cfg locs).evicted.length }.clearCols
            ((engine.chunkServing cfg locs).evicted.filter (· < cfg.lutCols)))
        (engine.chunkServing cfg locs).exhausted fun _ => (engine.chunkPairs cfg locs).filter (copyInBounds cfg) := by
  rw [← placeChunks_eq_serve, chunkPairs, ← placeChunks_eq_serve]
  rfl

theorem chunkServing_idle (idle : engine.layerMisses cfg 0 (uniqueChunks locs) = []) :
    engine.chunkServing cfg locs = ⟨engine.gCells, [], [], false⟩ := by
  simp only [chunkServing, chunkOrder, idle, filter_nil, append_nil, serve]

theorem recallGlobal_spec (valid : engine.gCells.WellFormed cfg.recallCellCapacity)
    (ranged : LocsInRange cfg locs) :
    ∃ pairs, ChunkRecall cfg engine (engine.recallGlobal cfg locs).1 locs pairs := by
  rw [recallGlobal_eq]
  split_ifs with idle
  · have nothing := chunkServing_idle idle
    refine ⟨[], ?_, by rw [nothing], rfl, .inl (by rw [chunkPairs, nothing, map_nil])⟩
    rw [nothing]
    exact Swap.refl engine
  · have bounds := chunkPairs_inBounds valid ranged
    have columns : ∀ pair ∈ engine.chunkPairs cfg locs, pair.1 < cfg.mirrorChunks := fun pair mem =>
      lt_of_mem_uniqueChunks ranged (mem_filter.mp (mem_chunkPairs mem).1).1
    exact (SameStore.install (by constructor <;> rfl) (by rfl) (fun _ _ => bounds) columns bounds).imp
      fun pairs spec => ⟨spec.1, install_kept.1, install_kept.2.1, spec.2⟩

/-- A call returns unless the exhausted allocator finds no `_g_full`. -/
theorem recallGlobal_returns (noted : engine.gFull ≠ none ∨ (engine.chunkServing cfg locs).exhausted = false) :
    ∃ copied, (engine.recallGlobal cfg locs).2 = .ok copied := by
  rw [recallGlobal_eq]
  split_ifs
  · exact ⟨0, rfl⟩
  · exact install_returns noted

/-- The allocation is kept even by a call that raises. -/
theorem recallGlobal_gCells : (engine.recallGlobal cfg locs).1.gCells = (engine.chunkServing cfg locs).pool := by
  rw [recallGlobal_eq]
  split_ifs with idle
  · rw [chunkServing_idle idle]
  · exact install_kept.1

/-! ## The page allocator -/

def pageServing (cfg : Config) (engine : Engine α) (locs : List ℤ) : Serving ℕ :=
  engine.gPages.serve cfg.maxBlocks (uniquePages locs) (engine.pageMisses cfg (uniquePages locs))

/-- The columns that evicting pages clears. -/
def pageDrops (cfg : Config) (evicted : List ℕ) : List ℕ := (evicted.flatMap pageSpan).map cfg.clampCol

theorem mem_pageDrops {evicted : List ℕ} (bound : chunk < cfg.mirrorChunks) :
    chunk ∈ pageDrops cfg evicted ↔ chunk / c4PageSize ∈ evicted := by
  simp only [pageDrops, mem_map, mem_flatMap, mem_pageSpan]
  constructor
  · rintro ⟨col, ⟨page, mem, rfl⟩, clamped⟩
    have same : col = chunk := by
      simp only [Config.clampCol, Config.lutCols, Config.mirrorChunks] at clamped bound
      omega
    exact same ▸ mem
  · exact fun mem => ⟨chunk, ⟨_, mem, rfl⟩, clampCol_of_lt bound⟩

theorem pageMisses_selected : ∀ page ∈ engine.pageMisses cfg (uniquePages locs), page ∈ uniquePages locs :=
  fun _ mem => (mem_filter.mp mem).1

theorem pageServing_served {item : Served ℕ} (served : item ∈ (engine.pageServing cfg locs).served) :
    item.key ∈ engine.pageMisses cfg (uniquePages locs) ∧
      (engine.pageServing cfg locs).pool.slots.get? item.key = some item.slot :=
  ⟨serve_keys_initial.subset (mem_map_of_mem served),
    serve_get?_of_served pageMisses_selected served⟩

theorem pageServing_evicted {page : ℕ} (evicted : page ∈ (engine.pageServing cfg locs).evicted) :
    page ∉ uniquePages locs :=
  (serve_get?_of_evicted pageMisses_selected evicted).1

theorem pageServing_evicted_eq : (engine.pageServing cfg locs).evicted =
    engine.gPages.victims cfg.maxBlocks (uniquePages locs) (engine.pageMisses cfg (uniquePages locs)) :=
  serve_evicted_eq pageMisses_selected ((uniquePages_nodup locs).filter _)

private theorem mem_pagePairs {page block : ℕ} :
    (chunk, cell) ∈ pagePairs page block ↔
      chunk / c4PageSize = page ∧ cell = block * c4PageSize + chunk % c4PageSize := by
  simp only [pagePairs, pageSpan, range'_eq_map_range, zip_map', mem_map,
    mem_range, Prod.mk.injEq, c4PageSize]
  constructor
  · rintro ⟨offset, bound, rfl, rfl⟩
    omega
  · rintro ⟨rfl, rfl⟩
    exact ⟨chunk % 64, by omega, by omega, rfl⟩

/-- The pairs that `_recall_global_pages` copies when it does not raise. -/
def recalledPairs (cfg : Config) (engine : Engine α) (locs : List ℤ) : List (ℕ × ℕ) :=
  (engine.clearCols (pageDrops cfg (engine.pageServing cfg locs).evicted)).guardedPairs cfg
    (copiedPages cfg (engine.pageServing cfg locs))

theorem chunk_lt_of_page {page : ℕ} (bound : page < cfg.nLogicalPages)
    (inPage : chunk / c4PageSize = page) : chunk < cfg.mirrorChunks := by
  subst inPage
  exact (Nat.div_lt_iff_lt_mul (by decide)).mp bound

theorem mem_recalledPairs (ranged : LocsInRange cfg locs) :
    (chunk, cell) ∈ engine.recalledPairs cfg locs ↔
      ∃ item ∈ (engine.pageServing cfg locs).served, (cfg.lutTruth = true ∨ item.hit = false) ∧
        chunk / c4PageSize = item.key ∧ cell = item.slot * c4PageSize + chunk % c4PageSize ∧
        (cfg.ownReserve = true → engine.chunkCellLut 0 chunk < cfg.decodeBase) := by
  have guard : ∀ item ∈ (engine.pageServing cfg locs).served, chunk / c4PageSize = item.key →
      (engine.clearCols (pageDrops cfg (engine.pageServing cfg locs).evicted)).chunkCellLut 0
        (cfg.clampCol chunk) = engine.chunkCellLut 0 chunk := by
    intro item mem inPage
    have selected := pageMisses_selected _ (pageServing_served mem).1
    have bound := chunk_lt_of_page (lt_of_mem_uniquePages ranged selected) inPage
    rw [clampCol_of_lt bound, clearCols]
    refine if_neg fun gone => ?_
    rw [mem_pageDrops bound, inPage] at gone
    exact pageServing_evicted gone selected
  simp only [recalledPairs, guardedPairs, copiedPages, mem_filter, mem_flatMap,
    mem_pagePairs, Bool.or_eq_true, Bool.not_eq_true', decide_eq_true_eq]
  constructor
  · rintro ⟨⟨item, ⟨mem, copied⟩, inPage, place⟩, kept⟩
    rw [guard item mem inPage] at kept
    refine ⟨item, mem, copied, inPage, place, fun own => kept.resolve_left ?_⟩
    simp [own]
  · rintro ⟨item, mem, copied, inPage, place, kept⟩
    refine ⟨⟨item, ⟨mem, copied⟩, inPage, place⟩, ?_⟩
    rw [guard item mem inPage]
    cases own : cfg.ownReserve with
    | false => exact Or.inl rfl
    | true => exact Or.inr (kept own)

/-- The whole effect of `_recall_global_pages`. -/
structure PageRecall (cfg : Config) (before after : Engine α) (locs : List ℤ)
    (pairs : List (ℕ × ℕ)) : Prop where
  swap : Swap before after (pageDrops cfg (before.pageServing cfg locs).evicted) pairs
  gPages : after.gPages = (before.pageServing cfg locs).pool
  gCells : after.gCells = before.gCells
  copied : pairs = before.recalledPairs cfg locs ∨
    pairs = [] ∧ before.gFull = none ∧ (before.pageServing cfg locs).exhausted = true

theorem maxBlocks_cells {block offset : ℕ} (bound : block < cfg.maxBlocks) (inside : offset < c4PageSize) :
    block * c4PageSize + offset < cfg.recallCellCapacity := by
  simp only [Config.maxBlocks, c4PageSize] at bound inside ⊢
  omega

theorem recallGlobalPages_eq : engine.recallGlobalPages cfg locs =
    if engine.pageMisses cfg (uniquePages locs) = [] then (engine, .ok 0)
    else
      install cfg ({ engine with
          gPages := (engine.pageServing cfg locs).pool
          nEvictions := engine.nEvictions + (engine.pageServing cfg locs).evicted.length }.clearCols
            (pageDrops cfg (engine.pageServing cfg locs).evicted))
        (engine.pageServing cfg locs).exhausted
        fun engine' => engine'.guardedPairs cfg (copiedPages cfg (engine.pageServing cfg locs)) := rfl

theorem pageServing_idle (idle : engine.pageMisses cfg (uniquePages locs) = []) :
    engine.pageServing cfg locs = ⟨engine.gPages, [], [], false⟩ := by
  simp only [pageServing, idle, serve]

theorem recallGlobalPages_spec (valid : engine.gPages.WellFormed cfg.maxBlocks)
    (ranged : LocsInRange cfg locs) :
    ∃ pairs, PageRecall cfg engine (engine.recallGlobalPages cfg locs).1 locs pairs := by
  rw [recallGlobalPages_eq]
  split_ifs with idle
  · have nothing := pageServing_idle idle
    refine ⟨[], ?_, by rw [nothing], rfl, .inl (by rw [recalledPairs, nothing]; rfl)⟩
    rw [nothing]
    exact Swap.refl engine
  · have inside : ∀ pair ∈ engine.recalledPairs cfg locs,
        pair.1 < cfg.mirrorChunks ∧ pair.2 < cfg.reservePages * c4PageSize := by
      rintro ⟨chunk, cell⟩ mem
      obtain ⟨item, served, _, inPage, rfl, _⟩ := (mem_recalledPairs ranged).mp mem
      obtain ⟨missed, found⟩ := pageServing_served served
      refine ⟨chunk_lt_of_page (lt_of_mem_uniquePages ranged (pageMisses_selected _ missed)) inPage, ?_⟩
      exact Nat.lt_of_lt_of_le (maxBlocks_cells ((serve_wellFormed valid).slot_lt found)
        (Nat.mod_lt _ (by decide))) (recallCellCapacity_le cfg)
    exact (SameStore.install (by constructor <;> rfl) (by rfl)
      (fun next lut => by simp only [recalledPairs, guardedPairs, lut]; rfl) (fun pair mem => (inside pair mem).1)
      (filter_eq_self.mpr fun pair mem => decide_eq_true (inside pair mem))).imp
      fun pairs spec => ⟨spec.1, install_kept.2.1, install_kept.1, spec.2⟩

theorem recallGlobalPages_gPages :
    (engine.recallGlobalPages cfg locs).1.gPages = (engine.pageServing cfg locs).pool := by
  rw [recallGlobalPages_eq]
  split_ifs with idle
  · rw [pageServing_idle idle]
  · exact install_kept.2.1

/-- A selection that fits does not raise. -/
theorem recallGlobalPages_returns (noted : engine.gFull ≠ none ∨ (engine.pageServing cfg locs).exhausted = false) :
    ∃ copied, (engine.recallGlobalPages cfg locs).2 = .ok copied := by
  rw [recallGlobalPages_eq]
  split_ifs
  · exact ⟨0, rfl⟩
  · exact install_returns noted

theorem recallGlobalPages_ok (valid : engine.gPages.WellFormed cfg.maxBlocks)
    (fits : (uniquePages locs).length ≤ cfg.maxBlocks) :
    ∃ copied, (engine.recallGlobalPages cfg locs).2 = .ok copied :=
  recallGlobalPages_returns (.inr (serve_not_exhausted pageMisses_selected valid fits))

/-! ## What the recalls keep away from -/

/-- Both recalls copy into the recall region only. -/
theorem ChunkRecall.below (spec : ChunkRecall cfg before after locs pairs)
    (valid : before.gCells.WellFormed cfg.recallCellCapacity) :
    ∀ pair ∈ pairs, pair.2 < cfg.decodeBase := by
  rintro ⟨chunk, cell⟩ mem
  rcases spec.copied with rfl | ⟨rfl, _⟩
  · exact (serve_wellFormed valid).slot_lt (mem_chunkPairs mem).2
  · contradiction

theorem PageRecall.below (spec : PageRecall cfg before after locs pairs)
    (valid : before.gPages.WellFormed cfg.maxBlocks) (ranged : LocsInRange cfg locs) :
    ∀ pair ∈ pairs, pair.2 < cfg.decodeBase := by
  rintro ⟨chunk, cell⟩ mem
  rcases spec.copied with rfl | ⟨rfl, _⟩
  · obtain ⟨item, served, _, _, rfl, _⟩ := (mem_recalledPairs ranged).mp mem
    exact maxBlocks_cells ((serve_wellFormed valid).slot_lt (pageServing_served served).2)
      (Nat.mod_lt _ (by decide))
  · contradiction

/-- A chunk is not copied when the guard holds it back or its page is not copied at all. -/
theorem PageRecall.uncopied (spec : PageRecall cfg before after locs pairs) (ranged : LocsInRange cfg locs)
    (guarded : chunk / c4PageSize ∈ before.pageMisses cfg (uniquePages locs) →
      cfg.lutTruth = true ∨ chunk / c4PageSize ∉ before.gPages.slots.keys →
      cfg.ownReserve = true ∧ cfg.decodeBase ≤ before.chunkCellLut 0 chunk) (cell : ℕ) :
    (chunk, cell) ∉ pairs := by
  intro mem
  rcases spec.copied with rfl | ⟨rfl, _⟩
  · obtain ⟨item, served, copied, inPage, _, guard⟩ := (mem_recalledPairs ranged).mp mem
    have missed := inPage ▸ (pageServing_served served).1
    obtain ⟨own, above⟩ := guarded missed (copied.imp_right fun fresh owned => by
      have hit := (serve_hit_iff pageMisses_selected ((uniquePages_nodup locs).filter _)
        served).mpr (inPage ▸ owned)
      rw [fresh] at hit
      contradiction)
    have := guard own
    omega
  · contradiction

end FlashMemory.Engine
