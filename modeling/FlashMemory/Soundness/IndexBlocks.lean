import FlashMemory.Soundness.MappedPages
import FlashMemory.Model.IndexOffload

/-! # Index keys and the blocks of their pages

The index reserve is addressed by the blocks that page recall gives to pages, and the block of a page is
read off the entry of its first chunk. While that entry is in the recall region, the page has a block of its
own below the sink block. A recall copies the keys of a page when the page gets its block, and a decode step
stores a key in the block of its page; no other page has that block, so neither disturbs the keys of another
page. A page whose first chunk was formed by decode has no block: its keys go to the sink block.
-/

namespace FlashMemory.Engine

open List

variable {α : Type*} {cfg : Config} {before middle after engine : Engine α} {full : List ℕ} {stale : ℕ → Prop}
  {page other block : ℕ} {locs : List ℤ} {pairs : List (ℕ × ℕ)} {offset : ℕ}

/-- The first chunk of the page is in the recall region, at the start of a block. -/
structure InBlock (cfg : Config) (engine : Engine α) (page block : ℕ) : Prop where
  entry : engine.chunkCellLut 0 (page * c4PageSize) = (block * c4PageSize : ℕ)
  bound : block < cfg.maxBlocks

theorem blockCell_of_lt (bound : page < cfg.nLogicalPages) :
    engine.blockCell cfg page = engine.chunkCellLut 0 (page * c4PageSize) := by
  rw [blockCell, clampCol_of_lt (chunk_lt_of_page bound (Nat.mul_div_cancel _ (by decide)))]

theorem block_lt_decodeBase (bound : block < cfg.maxBlocks) : block * c4PageSize < cfg.decodeBase := by
  have cells : block * c4PageSize + 0 < cfg.recallCellCapacity := maxBlocks_cells bound (by decide)
  exact cells

theorem firstChunk_mod (page : ℕ) : page * c4PageSize % c4PageSize = 0 := Nat.mul_mod_left ..

namespace PageCache

section

variable (cache : PageCache cfg stale engine)
include cache

/-- An entry of the recall region is the start of the block that the pool records for the page. -/
theorem inBlock (mapped : 0 ≤ engine.chunkCellLut 0 (page * c4PageSize))
    (below : engine.chunkCellLut 0 (page * c4PageSize) < cfg.decodeBase) :
    ∃ block, InBlock cfg engine page block := by
  obtain ⟨cell, entry⟩ := Int.eq_ofNat_of_zero_le mapped
  have owned := (cache.coherent 0).owned _ cell entry (by omega)
  obtain ⟨block, found, place⟩ := pageOwner_eq_some.mp owned
  rw [firstChunk_mod, Nat.add_zero] at place
  exact ⟨block, place ▸ entry, cache.pool.slot_lt found⟩

theorem inBlock_pool (home : InBlock cfg engine page block) :
    engine.gPages.slots.get? page = some block := by
  have owned := (cache.coherent 0).owned _ _ home.entry (block_lt_decodeBase home.bound)
  obtain ⟨found, place, same⟩ := pageOwner_eq_some.mp owned
  rw [firstChunk_page] at place
  rw [firstChunk_mod] at same
  obtain rfl : found = block := by
    simp only [c4PageSize] at same
    omega
  exact place

/-- Two pages have different blocks. -/
theorem eq_of_block (home : InBlock cfg engine page block)
    (home' : InBlock cfg engine other block) : page = other :=
  cache.pool.injective (cache.inBlock_pool home) (cache.inBlock_pool home')

end

/-- With every chunk stale only the tables and the pool matter. -/
theorem ofEntries (cache : PageCache cfg (fun _ => True) before) (pool : after.gPages = before.gPages)
    (entries : ∀ layer chunk (cell : ℕ), after.chunkCellLut layer chunk = cell → cell < cfg.decodeBase →
      before.chunkCellLut layer chunk = cell) : PageCache cfg (fun _ => True) after := by
  refine ⟨pool ▸ cache.pool, pool ▸ cache.inRange, fun layer => ⟨fun chunk cell points inside => ?_, ?_⟩⟩
  · rw [pool]
    exact (cache.coherent layer).owned chunk cell (entries layer chunk cell points inside) inside
  · exact fun _ _ _ _ current => absurd trivial current

theorem congr (cache : PageCache cfg (fun _ => True) before) (lut : after.chunkCellLut = before.chunkCellLut)
    (pool : after.gPages = before.gPages) : PageCache cfg (fun _ => True) after :=
  cache.ofEntries pool fun _ _ _ points _ => lut ▸ points

theorem commit {before : Engine Stamp} (cache : PageCache cfg (fun _ => True) before) (req : Request) :
    PageCache cfg (fun _ => True) (Server.commitEngine cfg before req) := by
  have pool : (Server.commitEngine cfg before req).gPages = before.gPages := by
    simp only [Server.commitEngine, registerDecodeReq]
    split_ifs <;> rfl
  refine cache.ofEntries pool fun layer chunk cell points _ => ?_
  rw [Server.commitEngine_lut, clearCols_lut] at points
  split_ifs at points
  exact points

end PageCache

theorem InBlock.congr (home : InBlock cfg before page block)
    (same : after.chunkCellLut 0 (page * c4PageSize) = before.chunkCellLut 0 (page * c4PageSize)) :
    InBlock cfg after page block :=
  ⟨same.trans home.entry, home.bound⟩

theorem InBlock.reserveBlock (home : InBlock cfg engine page block) (bound : page < cfg.nLogicalPages) :
    engine.reserveBlock cfg page = block := by
  simp only [Engine.reserveBlock, blockCell_of_lt bound, home.entry, Int.natCast_nonneg, ↓reduceIte,
    Int.toNat_natCast]
  exact Nat.mul_div_cancel _ (by decide)

/-! ## Calls that bring no page into a block -/

/-- A page that has a block afterwards had it before. -/
def NoArrivals (cfg : Config) (before after : Engine α) : Prop :=
  ∀ page < cfg.nLogicalPages, ∀ block, InBlock cfg after page block → InBlock cfg before page block

namespace NoArrivals

theorem congr (lut : after.chunkCellLut = before.chunkCellLut) : NoArrivals cfg before after :=
  fun _ _ _ home => ⟨lut ▸ home.entry, home.bound⟩

theorem refl (cfg : Config) (engine : Engine α) : NoArrivals cfg engine engine := congr rfl

theorem trans (first : NoArrivals cfg before middle) (second : NoArrivals cfg middle after) :
    NoArrivals cfg before after :=
  fun page bound block home => first page bound block (second page bound block home)

theorem clearPages {pages : List ℕ}
    (cleared : after.chunkCellLut = (before.clearCols (pageCols cfg pages)).chunkCellLut) :
    NoArrivals cfg before after := by
  intro page _ block ⟨entry, inside⟩
  rw [cleared, clearCols_lut] at entry
  split_ifs at entry
  exact ⟨entry, inside⟩

theorem release (paged : cfg.pageRecall = true) (locs : List ℤ) :
    NoArrivals cfg engine (engine.releaseReqPoolLocs cfg locs).1 := by
  simp only [releaseReqPoolLocs, paged, ↓reduceIte]
  split_ifs
  · exact refl cfg engine
  · exact clearPages rfl

theorem releaseOwned (reqPoolIdx : ℤ) : NoArrivals cfg engine (engine.releaseOwnedPages cfg reqPoolIdx).1 := by
  simp only [releaseOwnedPages]
  split_ifs
  · exact refl cfg engine
  · exact clearPages rfl

theorem commit {before : Engine Stamp} (req : Request) :
    NoArrivals cfg before (Server.commitEngine cfg before req) :=
  clearPages Server.commitEngine_lut

/-- A decode store enters cells of the decode region only. -/
theorem storeDecode (layer : ℕ) (rows : List (DecodeRow α)) :
    NoArrivals cfg engine (engine.storeDecodeToReserve cfg layer rows) := by
  intro page _ block ⟨entry, inside⟩
  have below : block * c4PageSize < cfg.decodeBase := block_lt_decodeBase inside
  rcases storeDecodeToReserve_lut cfg engine rows layer 0 (page * c4PageSize) with
    ⟨_, row, _, _, value⟩ | ⟨_, value⟩
  · have outside := decodeBase_le_decodeCell cfg engine row
    omega
  · exact ⟨value.symm.trans entry, inside⟩

end NoArrivals

/-! ## The keys of a decode step -/

/-- The row stores the key of the chunk. -/
def Stores (row : DecodeRow (ℕ → α)) (chunk : ℕ) : Prop := 0 < chunk ∧ row.c4OutLoc = chunk

/-- The cells of a block are reached only by rows of its page. -/
private theorem indexDecodeCell_iff (cache : PageCache cfg stale engine) (home : InBlock cfg engine page block)
    (bound : page < cfg.nLogicalPages) {loc : ℤ} (ranged : 0 < loc → loc.toNat / c4PageSize < cfg.nLogicalPages)
    (inPage : offset < c4PageSize) :
    engine.indexDecodeCell cfg loc = block * c4PageSize + offset ↔
      0 < page * c4PageSize + offset ∧ loc = (page * c4PageSize + offset : ℕ) := by
  have entry := home.entry
  have below : block < cfg.maxBlocks := home.bound
  have region : cfg.maxBlocks * c4PageSize ≤ cfg.decodeBase := Nat.div_mul_le_self ..
  simp only [c4PageSize] at inPage entry region ⊢
  constructor
  · intro cell
    simp only [indexDecodeCell] at cell
    split_ifs at cell with real
    · obtain ⟨positive, mapped, _⟩ := real
      rw [blockCell_of_lt (ranged positive)] at cell mapped
      obtain ⟨found, home'⟩ := cache.inBlock mapped (by omega)
      rw [home'.entry] at cell
      simp only [c4PageSize] at cell
      have same : found = block := by omega
      have pages := cache.eq_of_block (same ▸ home') home
      simp only [c4PageSize] at pages
      omega
    · simp only [indexCells, c4PageSize] at cell
      omega
  · rintro ⟨positive, rfl⟩
    have quotient : (page * 64 + offset) / 64 = page := by omega
    have remainder : (page * 64 + offset) % 64 = offset := by omega
    simp only [indexDecodeCell, indexCells, Int.toNat_natCast, c4PageSize, quotient, remainder,
      blockCell_of_lt bound, entry]
    rw [if_pos (by omega)]
    omega

variable {rows : List (DecodeRow (ℕ → α))} {reserve : ℕ → ℕ → α} {layer : ℕ}

private theorem storeIndexDecodeToReserve_of_ne {target : ℕ} (different : layer ≠ target) :
    engine.storeIndexDecodeToReserve cfg full target rows reserve layer = reserve layer := by
  simp only [storeIndexDecodeToReserve]
  split_ifs
  · rfl
  · exact Function.update_of_ne different ..

/-- The loop of `storeIndexAllLayers`. -/
def storeIndexLayers (cfg : Config) (full : List ℕ) (rows : List (DecodeRow (ℕ → α)))
    (state : Engine α × (ℕ → ℕ → α)) (layers : List ℕ) : Engine α × (ℕ → ℕ → α) :=
  layers.foldl (fun (state : Engine α × (ℕ → ℕ → α)) layer =>
    (state.1.storeDecodeToReserve cfg layer (rows.map (atLayer · layer)),
      state.1.storeIndexDecodeToReserve cfg full layer rows state.2)) state

private theorem storeIndexLayers_engine (rows : List (DecodeRow (ℕ → α))) (state : Engine α × (ℕ → ℕ → α))
    (layers : List ℕ) : (storeIndexLayers cfg full rows state layers).1 =
      layers.foldl (fun engine layer => engine.storeDecodeToReserve cfg layer (rows.map (atLayer · layer)))
        state.1 := by
  induction layers generalizing state with
  | nil => rfl
  | cons layer rest ih => exact ih _

private theorem storeIndexLayers_noArrivals (rows : List (DecodeRow (ℕ → α))) (state : Engine α × (ℕ → ℕ → α))
    (layers : List ℕ) : NoArrivals cfg state.1 (storeIndexLayers cfg full rows state layers).1 := by
  induction layers generalizing state with
  | nil => exact .refl cfg state.1
  | cons layer rest ih => exact (NoArrivals.storeDecode layer _).trans (ih _)

section

variable (bound : page < cfg.nLogicalPages)
  (ranged : ∀ row ∈ rows, 0 < row.c4OutLoc → row.c4OutLoc.toNat / c4PageSize < cfg.nLogicalPages)
  (offloaded : layer ∉ full) (inPage : offset < c4PageSize)

include bound ranged offloaded inPage

/-- One cell of a block after the store of one layer: the key of a row, or what it held. -/
private theorem storeIndexDecodeToReserve_cases (cache : PageCache cfg stale engine)
    (home : InBlock cfg engine page block) :
    let after := engine.storeIndexDecodeToReserve cfg full layer rows reserve
    let chunk := page * c4PageSize + offset
    (∃ row ∈ rows, Stores row chunk ∧ after layer (block * c4PageSize + offset) = row.pack layer) ∨
      (∀ row ∈ rows, ¬ Stores row chunk) ∧
        after layer (block * c4PageSize + offset) = reserve layer (block * c4PageSize + offset) := by
  simp only [storeIndexDecodeToReserve, offloaded, ↓reduceIte, Function.update_self]
  rcases scatter_map_cases rows (fun row => engine.indexDecodeCell cfg row.c4OutLoc) (fun row => row.pack layer)
    (reserve layer) (block * c4PageSize + offset) with ⟨row, mem, placed, value⟩ | ⟨elsewhere, value⟩
  · exact Or.inl ⟨row, mem, (indexDecodeCell_iff cache home bound (ranged row mem) inPage).mp placed, value⟩
  · refine Or.inr ⟨fun row mem stores => elsewhere row mem ?_, value⟩
    exact (indexDecodeCell_iff cache home bound (ranged row mem) inPage).mpr stores

/-- One cell of a block after the stores of some layers. -/
private theorem storeIndexLayers_cases (state : Engine α × (ℕ → ℕ → α)) {layers : List ℕ} (distinct : layers.Nodup)
    (cache : PageCache cfg stale state.1)
    (home : InBlock cfg (storeIndexLayers cfg full rows state layers).1 page block) :
    let after := (storeIndexLayers cfg full rows state layers).2
    let chunk := page * c4PageSize + offset
    (∃ row ∈ rows, Stores row chunk ∧ after layer (block * c4PageSize + offset) = row.pack layer) ∨
      (layer ∈ layers → ∀ row ∈ rows, ¬ Stores row chunk) ∧
        after layer (block * c4PageSize + offset) = state.2 layer (block * c4PageSize + offset) := by
  induction layers generalizing state with
  | nil => exact Or.inr ⟨fun mem => absurd mem not_mem_nil, rfl⟩
  | cons first rest ih =>
    obtain ⟨fresh, distinct⟩ := nodup_cons.mp distinct
    have home' : InBlock cfg state.1 page block :=
      storeIndexLayers_noArrivals rows state (first :: rest) page bound block home
    rcases ih _ distinct (cache.storeDecode first (rows.map (atLayer · first))) home with written | ⟨unwritten, value⟩
    · exact Or.inl written
    · by_cases now : layer = first
      · subst now
        rcases storeIndexDecodeToReserve_cases bound ranged offloaded inPage cache home' with
          ⟨row, mem, stores, placed⟩ | ⟨none, kept⟩
        · exact Or.inl ⟨row, mem, stores, value.trans placed⟩
        · exact Or.inr ⟨fun _ => none, value.trans kept⟩
      · refine Or.inr ⟨fun mem => unwritten ((mem_cons.mp mem).resolve_left now), value.trans ?_⟩
        exact congrFun (storeIndexDecodeToReserve_of_ne now) _

/-- One cell of a block after a decode step: the key of a row, or what it held. -/
theorem storeIndexAllLayers_cases (reserve : ℕ → ℕ → α) (cache : PageCache cfg stale engine)
    (home : InBlock cfg (engine.storeDecodeAllLayers cfg rows) page block) (inside : layer < cfg.c4LayerNum) :
    let after := engine.storeIndexAllLayers cfg full rows reserve
    let chunk := page * c4PageSize + offset
    (∃ row ∈ rows, Stores row chunk ∧ after layer (block * c4PageSize + offset) = row.pack layer) ∨
      (∀ row ∈ rows, ¬ Stores row chunk) ∧
        after layer (block * c4PageSize + offset) = reserve layer (block * c4PageSize + offset) := by
  have engines : (storeIndexLayers cfg full rows (engine, reserve) (List.range cfg.c4LayerNum)).1 =
      engine.storeDecodeAllLayers cfg rows := storeIndexLayers_engine rows (engine, reserve) _
  rw [← engines] at home
  exact (storeIndexLayers_cases bound ranged offloaded inPage (engine, reserve) nodup_range cache home).imp_right
    fun ⟨unwritten, value⟩ => ⟨unwritten (mem_range.mpr inside), value⟩

end

/-! ## The copies of a recall -/

theorem mem_newPages (enough : (engine.pageServing cfg locs).exhausted = false) {copy : ℕ × ℕ}
    (mem : copy ∈ engine.newPages cfg locs) :
    copy.1 ∈ engine.pageMisses cfg (uniquePages locs) ∧
      (engine.pageServing cfg locs).pool.slots.get? copy.1 = some copy.2 := by
  have serving : engine.gPages.serve cfg.maxBlocks (uniquePages locs) (engine.pageMisses cfg (uniquePages locs)) =
      engine.pageServing cfg locs := rfl
  simp only [newPages, serving, enough] at mem
  split_ifs at mem
  · contradiction
  · obtain ⟨item, copied, rfl⟩ := mem_map.mp mem
    exact pageServing_served (mem_filter.mp copied).1

theorem newPages_nil (cfg : Config) (engine : Engine α) : engine.newPages cfg [] = [] := by
  have none : uniquePages [] = [] := by decide
  simp [newPages, none, pageMisses, SlotPool.serve, copiedPages, guardedPairs]

/-- A page that gets a block is copied. -/
private theorem newPages_of_pair (ranged : LocsInRange cfg locs)
    (enough : (engine.pageServing cfg locs).exhausted = false)
    {cell : ℕ} (pair : (page * c4PageSize, cell) ∈ engine.recalledPairs cfg locs) :
    ∃ block, (page, block) ∈ engine.newPages cfg locs ∧ cell = block * c4PageSize := by
  have serving : engine.gPages.serve cfg.maxBlocks (uniquePages locs) (engine.pageMisses cfg (uniquePages locs)) =
      engine.pageServing cfg locs := rfl
  have pairs : (engine.clearCols (((engine.pageServing cfg locs).evicted.flatMap pageSpan).map
      cfg.clampCol)).guardedPairs cfg (copiedPages cfg (engine.pageServing cfg locs)) =
      engine.recalledPairs cfg locs := rfl
  obtain ⟨item, served, copied, inPage, place, _⟩ := (mem_recalledPairs ranged).mp pair
  rw [firstChunk_page] at inPage
  rw [firstChunk_mod, Nat.add_zero] at place
  refine ⟨item.slot, ?_, place⟩
  simp only [newPages, serving, enough, pairs]
  rw [if_neg (by simp [ne_nil_of_mem pair])]
  refine mem_map.mpr ⟨item, mem_filter.mpr ⟨served, ?_⟩, by rw [inPage]⟩
  simpa using copied

section

variable (spec : PageRecall cfg before after locs pairs) (ranged : LocsInRange cfg locs)

include spec ranged

/-- After a recall a page has a block because it was just copied into it, or it had the block before and
nothing was copied into it. -/
theorem PageRecall.inBlock_cases (cache : PageCache cfg stale after)
    (enough : (before.pageServing cfg locs).exhausted = false) (bound : page < cfg.nLogicalPages)
    (home : InBlock cfg after page block) :
    (page, block) ∈ before.newPages cfg locs ∨
      InBlock cfg before page block ∧ ∀ copy ∈ before.newPages cfg locs, copy.2 ≠ block := by
  have pairsEq : pairs = before.recalledPairs cfg locs := by
    rcases spec.copied with same | ⟨_, _, stuck⟩
    · exact same
    · rw [enough] at stuck
      contradiction
  have entry := home.entry
  rcases spec.swap.lut_cases 0 (page * c4PageSize) with ⟨cell, pair, value⟩ | ⟨_, value⟩
  · obtain ⟨found, copied, place⟩ := newPages_of_pair ranged enough (pairsEq ▸ pair)
    rw [value, Int.ofNat_inj, place] at entry
    exact Or.inl (Nat.eq_of_mul_eq_mul_right (by decide) entry ▸ copied)
  · rw [value] at entry
    split_ifs at entry
    refine Or.inr ⟨⟨entry, home.bound⟩, fun copy copied same => ?_⟩
    obtain ⟨missed, found⟩ := mem_newPages enough copied
    -- The pool gives a block to one page, so the copied page is this one; but it was missed.
    have pages := cache.pool.injective (spec.gPages.symm ▸ found) (same ▸ cache.inBlock_pool home)
    have unmapped := (mem_filter.mp missed).2
    rw [decide_eq_true_eq, pages, clampCol_of_lt (chunk_lt_of_page bound (firstChunk_page page)), entry] at unmapped
    omega

/-- A page that has a block is not missed, so it keeps the block unless it is evicted. -/
theorem PageRecall.inBlock_kept (bound : page < cfg.nLogicalPages) (home : InBlock cfg before page block)
    (spared : page ∉ before.gPages.victims cfg.maxBlocks (uniquePages locs)
      (before.pageMisses cfg (uniquePages locs))) :
    InBlock cfg after page block := by
  have first := chunk_lt_of_page bound (firstChunk_page page)
  refine home.congr ?_
  rcases spec.swap.lut_cases 0 (page * c4PageSize) with ⟨cell, pair, _⟩ | ⟨_, value⟩
  · refine absurd pair (spec.uncopied ranged (fun missed _ => ?_) cell)
    have unmapped := (mem_filter.mp missed).2
    rw [firstChunk_page, clampCol_of_lt first, home.entry, decide_eq_true_eq] at unmapped
    omega
  · rw [value, if_neg fun gone => spared ?_]
    rwa [mem_pageDrops first, firstChunk_page, pageServing_evicted_eq] at gone

/-- A recall enters no cell of the decode region. -/
theorem PageRecall.below_kept (valid : before.gPages.WellFormed cfg.maxBlocks) {chunk : ℕ}
    (below : before.chunkCellLut 0 chunk < cfg.decodeBase) : after.chunkCellLut 0 chunk < cfg.decodeBase := by
  rcases spec.swap.lut_cases 0 chunk with ⟨cell, pair, value⟩ | ⟨_, value⟩
  · rw [value]
    exact Int.ofNat_lt.mpr (spec.below valid ranged _ pair)
  · rw [value]
    split_ifs
    · omega
    · exact below

end

/-- One cell of a block after the copies: the mirror of the page that is copied there, or what it held. -/
private theorem copyIndexPages_cases {mirror reserve : ℕ → ℕ → α} {copies : List (ℕ × ℕ)} {layer : ℕ}
    (offloaded : layer ∉ full)
    (inPage : offset < c4PageSize) (inside : ∀ copy ∈ copies, copy.1 < cfg.nLogicalPages ∧ copy.2 < cfg.maxBlocks) :
    let after := copyIndexPages cfg full mirror copies reserve layer
    (∃ page, (page, block) ∈ copies ∧ after (block * c4PageSize + offset) = mirror layer (page * c4PageSize + offset)) ∨
      (∀ copy ∈ copies, copy.2 ≠ block) ∧
      after (block * c4PageSize + offset) = reserve layer (block * c4PageSize + offset) := by
  have all : copies.filter (fun copy => copy.1 < cfg.nLogicalPages ∧ copy.2 < cfg.maxBlocks + 1) = copies :=
    filter_eq_self.mpr fun copy mem => decide_eq_true
      ⟨(inside copy mem).1, Nat.lt_succ_of_lt (inside copy mem).2⟩
  simp only [copyIndexPages, offloaded, ↓reduceIte, all]
  by_cases touched : block * c4PageSize + offset ∈ (copies.flatMap fun copy => (List.range c4PageSize).map
      fun offset => (copy.2 * c4PageSize + offset, mirror layer (copy.1 * c4PageSize + offset))).map Prod.fst
  · obtain ⟨value, write, result⟩ := @exists_of_mem_scatter _ _ _ (reserve layer) _ _ touched
    obtain ⟨copy, copied, column⟩ := mem_flatMap.mp write
    obtain ⟨place, within, same⟩ := mem_map.mp column
    obtain ⟨cell, content⟩ := Prod.mk.inj same
    rw [mem_range] at within
    have target : copy.2 = block ∧ place = offset := by
      simp only [c4PageSize] at cell within inPage
      omega
    refine Or.inl ⟨copy.1, target.1 ▸ copied, ?_⟩
    rw [result, ← content, target.2]
  · refine Or.inr ⟨fun copy copied same => touched ?_, scatter_of_not_mem touched⟩
    have write : (copy.2 * c4PageSize + offset, mirror layer (copy.1 * c4PageSize + offset)) ∈
        copies.flatMap fun copy => (List.range c4PageSize).map fun offset =>
          (copy.2 * c4PageSize + offset, mirror layer (copy.1 * c4PageSize + offset)) :=
      mem_flatMap.mpr ⟨copy, copied, mem_map.mpr ⟨offset, mem_range.mpr inPage, rfl⟩⟩
    rw [← same]
    exact mem_map_of_mem write

/-! ## The keys that the reserve holds -/

/-- The reserve holds the keys of certain chunks of requests, as far as their pages have blocks. -/
def KeysHeld (cfg : Config) (full : List ℕ) (engine : Engine Stamp) (reserve : ℕ → ℕ → Stamp)
    (keyed : ℕ → ℕ → Prop) : Prop :=
  ∀ id chunk block, keyed id chunk → InBlock cfg engine (chunk / c4PageSize) block →
    ∀ layer < cfg.c4LayerNum, layer ∉ full →
      reserve layer (block * c4PageSize + chunk % c4PageSize) = .written id layer chunk

namespace KeysHeld

variable {before after engine : Engine Stamp} {reserve mirror : ℕ → ℕ → Stamp} {keyed keyed' : ℕ → ℕ → Prop}
  {rows : List (DecodeRow (ℕ → Stamp))}

/-- A call that brings no page into a block, with no new chunk on a page that has one. -/
theorem frame (held : KeysHeld cfg full before reserve keyed) (arrivals : NoArrivals cfg before after)
    (inMirror : ∀ id chunk, keyed' id chunk → chunk / c4PageSize < cfg.nLogicalPages)
    (known : ∀ id chunk, keyed' id chunk → keyed id chunk ∨ ∀ block, ¬ InBlock cfg after (chunk / c4PageSize) block) :
    KeysHeld cfg full after reserve keyed' := by
  intro id chunk block key home layer inside offloaded
  have old := (known id chunk key).resolve_right fun unplaced => unplaced block home
  exact held id chunk block old (arrivals _ (inMirror id chunk key) block home) layer inside offloaded

/-- A recall, when the mirror has all keys of the pages that it copies. -/
theorem copy (held : KeysHeld cfg full before reserve keyed) (spec : PageRecall cfg before after locs pairs)
    (cache : PageCache cfg stale after) (ranged : LocsInRange cfg locs)
    (enough : (before.pageServing cfg locs).exhausted = false)
    (inMirror : ∀ id chunk, keyed id chunk → chunk / c4PageSize < cfg.nLogicalPages)
    (mirrored : ∀ id chunk, keyed id chunk → chunk / c4PageSize ∈ before.pageMisses cfg (uniquePages locs) →
      ∀ layer, layer ∉ full → mirror layer chunk = .written id layer chunk) :
    KeysHeld cfg full after (copyIndexPages cfg full mirror (before.newPages cfg locs) reserve) keyed := by
  intro id chunk block key home layer inside offloaded
  have placed : ∀ copy ∈ before.newPages cfg locs, after.gPages.slots.get? copy.1 = some copy.2 :=
    fun copy copied => spec.gPages ▸ (mem_newPages enough copied).2
  have bounds : ∀ copy ∈ before.newPages cfg locs, copy.1 < cfg.nLogicalPages ∧ copy.2 < cfg.maxBlocks := by
    intro copy copied
    have found := placed copy copied
    exact ⟨cache.inRange _ (OrderedDict.mem_keys_of_get? found), cache.pool.slot_lt found⟩
  have whole : chunk / c4PageSize * c4PageSize + chunk % c4PageSize = chunk := Nat.div_add_mod' ..
  rcases copyIndexPages_cases offloaded (Nat.mod_lt chunk (by decide)) bounds with ⟨page, copied, value⟩ | ⟨none, value⟩
  · have same : page = chunk / c4PageSize := cache.pool.injective (placed _ copied) (cache.inBlock_pool home)
    rw [value, same, whole]
    exact mirrored id chunk key (same ▸ (mem_newPages enough copied).1) layer offloaded
  · rw [value]
    rcases spec.inBlock_cases ranged cache enough (inMirror id chunk key) home with copied | ⟨home', _⟩
    · exact absurd rfl (none _ copied)
    · exact held id chunk block key home' layer inside offloaded

/-- A decode step, when the rows store the right keys and all new ones. -/
theorem decode (held : KeysHeld cfg full engine reserve keyed) (cache : PageCache cfg stale engine)
    (ranged : ∀ row ∈ rows, 0 < row.c4OutLoc → row.c4OutLoc.toNat / c4PageSize < cfg.nLogicalPages)
    (inMirror : ∀ id chunk, keyed' id chunk → chunk / c4PageSize < cfg.nLogicalPages)
    (known : ∀ id chunk, keyed' id chunk → keyed id chunk ∨ ∃ row ∈ rows, Stores row chunk)
    (right : ∀ id chunk, keyed' id chunk → ∀ row ∈ rows, Stores row chunk →
      ∀ layer, row.pack layer = .written id layer chunk) :
    KeysHeld cfg full (engine.storeDecodeAllLayers cfg rows)
      (engine.storeIndexAllLayers cfg full rows reserve) keyed' := by
  intro id chunk block key home layer inside offloaded
  have whole : chunk / c4PageSize * c4PageSize + chunk % c4PageSize = chunk := Nat.div_add_mod' ..
  have stored :=
    storeIndexAllLayers_cases (inMirror id chunk key) ranged offloaded (Nat.mod_lt chunk (by decide)) reserve
      cache home inside
  simp only [whole] at stored
  rcases stored with ⟨row, mem, stores, value⟩ | ⟨unstored, value⟩
  · rw [value]
    exact right id chunk key row mem stores layer
  · have old := (known id chunk key).resolve_right fun ⟨row, mem, stores⟩ => unstored row mem stores
    have arrivals : NoArrivals cfg engine (engine.storeDecodeAllLayers cfg rows) :=
      storeDecodeAllLayers_rule (NoArrivals cfg engine) rows (.refl cfg engine)
        fun _ layer rows none => none.trans (.storeDecode layer rows)
    rw [value]
    exact held id chunk block old (arrivals _ (inMirror id chunk key) block home) layer inside offloaded

end KeysHeld

end FlashMemory.Engine
