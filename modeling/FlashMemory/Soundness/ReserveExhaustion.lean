import FlashMemory.Soundness.Eviction
import FlashMemory.Soundness.PageAllocator

/-! # Selections beyond the reserve

Under recalls alone the table of every layer says what the allocator says. A selection that is too large takes the whole
recall region, and the rest of it stays unmapped. The call returns if `_g_full` exists, which `__init__` does not
create. -/

namespace FlashMemory.Engine

open List SlotPool OrderedDict

variable {α : Type*} {cfg : Config} {engine : Engine α} {locs : List ℤ}

/-- The cells or blocks that recalls can use. -/
def slotCapacity (cfg : Config) : ℕ := if cfg.pageRecall then cfg.maxBlocks else cfg.recallCellCapacity

/-- The chunks that a selected key stands for. -/
def keyChunks (cfg : Config) (key : ℕ) : List ℕ := if cfg.pageRecall then pageSpan key else [key]

/-- The chunk is in a cell with its bytes, in every layer. -/
def Held (engine : Engine α) (chunk : ℕ) : Prop :=
  ∀ layer, ∃ cell : ℕ, engine.chunkCellLut layer chunk = cell ∧
  engine.reserveBuf layer cell = engine.hostMirror layer chunk

def Masked (engine : Engine α) (chunk : ℕ) : Prop := ∀ layer, engine.chunkCellLut layer chunk = -1

/-- A call returns, holds all selected chunks or pages but the excess, and leaves that unmapped. -/
def Graceful (cfg : Config) (engine : Engine α) (locs : List ℤ) : Prop :=
  let call := engine.recallResidentGlobal cfg locs
  (∃ copied, call.2 = .ok copied) ∧ ∃ masked : List ℕ, masked.Sublist (selection cfg locs) ∧
    masked.length = (selection cfg locs).length - slotCapacity cfg ∧
    (∀ key ∈ masked, ∀ chunk ∈ keyChunks cfg key, call.1.Masked chunk) ∧
    ∀ key ∈ selection cfg locs, key ∉ masked → ∀ chunk ∈ keyChunks cfg key, call.1.Held chunk

/-- The selection fits, or `_g_full` exists. -/
def Noted (cfg : Config) (engine : Engine α) (locs : List ℤ) : Prop :=
  LocsInRange cfg locs ∧ (engine.gFull ≠ none ∨ (selection cfg locs).length ≤ slotCapacity cfg)

instance (engine : Engine α) (locs : List ℤ) : Decidable (engine.Noted cfg locs) := inferInstanceAs (Decidable (_ ∧ _))

/-! ## The table and the allocator -/

/-- The table entry of an owner. -/
def entryOf (owned : Option ℕ) : ℤ := owned.elim (-1) (fun cell => (cell : ℤ))

/-- The tables of all layers say what the owner map says. -/
def InSync (owner : ℕ → Option ℕ) (engine : Engine α) : Prop :=
  ∀ layer chunk, engine.chunkCellLut layer chunk = entryOf (owner chunk)

namespace InSync

variable {owner owner' : ℕ → Option ℕ} (sync : InSync owner engine)

include sync

theorem miss_iff {layer chunk : ℕ} : engine.chunkCellLut layer chunk < 0 ↔ owner chunk = none := by
  rw [sync]
  cases owner chunk <;> simp [entryOf]

theorem masked {chunk : ℕ} (unowned : owner chunk = none) : engine.Masked chunk := fun layer => by
  rw [sync, unowned, entryOf, Option.elim_none]

theorem held (coherent : engine.GlobalCoherent cfg owner fun _ => False) {chunk cell : ℕ}
    (owned : owner chunk = some cell) (below : cell < cfg.decodeBase) : engine.Held chunk := by
  intro layer
  have entry : engine.chunkCellLut layer chunk = cell := by rw [sync, owned, entryOf, Option.elim_some]
  exact ⟨cell, entry, (coherent layer).fresh chunk cell entry below id⟩

/-- A swap that enters all new owners and drops all old ones keeps the tables in step. -/
theorem swap {after : Engine α} {dropped : List ℕ} {pairs : List (ℕ × ℕ)} (swap : Swap engine after dropped pairs)
    (entered : ∀ chunk cell, (chunk, cell) ∈ pairs → owner' chunk = some cell)
    (others : ∀ chunk, (∀ cell, (chunk, cell) ∉ pairs) → owner' chunk = if chunk ∈ dropped then none else owner chunk) :
    InSync owner' after := by
  intro layer chunk
  rcases swap.lut_cases layer chunk with ⟨cell, mem, value⟩ | ⟨unwritten, value⟩
  · rw [value, entered chunk cell mem, entryOf, Option.elim_some]
  · rw [value, others chunk unwritten, sync]
    split_ifs <;> rfl

end InSync

/-! ## Chunks -/

structure ChunkSync (cfg : Config) (engine : Engine α) : Prop where
  cache : engine.ChunkCache cfg fun _ => False
  sync : InSync engine.gCells.slots.get? engine

namespace ChunkSync

variable (state : ChunkSync cfg engine)

include state

/-- Selected chunks without a cell are missed. -/
theorem requested (ranged : LocsInRange cfg locs) :
    ∀ chunk ∈ uniqueChunks locs, chunk ∈ engine.gCells.slots.keys ∨ chunk ∈ engine.chunkOrder cfg locs := by
  intro chunk selected
  cases owned : engine.gCells.slots.get? chunk with
  | some cell => exact .inl (mem_keys_of_get? owned)
  | none =>
    refine .inr (mem_chunkOrder.mpr (mem_filter.mpr ⟨selected, ?_⟩))
    rw [clampCol_of_lt (lt_of_mem_uniqueChunks ranged selected)]
    exact decide_eq_true (state.sync.miss_iff.mpr owned)

theorem recalled (ranged : LocsInRange cfg locs)
    (noted : engine.gFull ≠ none ∨ (engine.chunkServing cfg locs).exhausted = false) :
    ChunkSync cfg (engine.recallGlobal cfg locs).1 := by
  refine ⟨state.cache.afterRecall ranged, ?_⟩
  obtain ⟨pairs, spec⟩ := recallGlobal_spec state.cache.pool ranged
  have all : pairs = engine.chunkPairs cfg locs := by
    refine spec.copied.resolve_right fun ⟨_, missing, stuck⟩ => ?_
    rcases noted with present | enough
    · exact present missing
    · exact Bool.false_ne_true (enough.symm.trans stuck)
  rw [spec.gCells]
  apply state.sync.swap spec.swap
  · intro chunk cell mem
    exact (mem_chunkPairs (all ▸ mem)).2
  · intro chunk unentered
    have unserved : chunk ∉ (engine.chunkServing cfg locs).keys := by
      intro mem
      obtain ⟨item, served, rfl⟩ := mem_map.mp mem
      exact unentered item.slot (all ▸ mem_map_of_mem served)
    rw [chunkServing, serve_get?_of_unserved chunkOrder_selected unserved]
    refine if_congr ⟨fun evicted => mem_filter.mpr ⟨evicted, ?_⟩, fun dropped => (mem_filter.mp dropped).1⟩ rfl rfl
    have present := serve_evicted_subset chunkOrder_selected chunkOrder_nodup evicted
    exact decide_eq_true (lt_lutCols (state.cache.inRange chunk present))

theorem graceful (chunkGranular : cfg.pageRecall = false) (noted : engine.Noted cfg locs) :
    engine.Graceful cfg locs ∧ ChunkSync cfg (engine.recallGlobal cfg locs).1 := by
  obtain ⟨ranged, noted⟩ := noted
  simp only [selection, slotCapacity, chunkGranular, Bool.false_eq_true, ↓reduceIte] at noted
  have enough : engine.gFull ≠ none ∨ (engine.chunkServing cfg locs).exhausted = false :=
    noted.imp_right (serve_not_exhausted chunkOrder_selected state.cache.pool)
  have after := state.recalled ranged enough
  refine ⟨?_, after⟩
  simp only [Graceful, recallResidentGlobal, selection, slotCapacity, keyChunks, chunkGranular, Bool.false_eq_true,
    ↓reduceIte, forall_mem_singleton]
  refine ⟨recallGlobal_returns enough, _, filter_sublist,
    serve_excess state.cache.pool chunkOrder_selected (uniqueChunks_nodup locs) (state.requested ranged), ?_, ?_⟩
  · intro chunk mem
    apply after.sync.masked
    rw [recallGlobal_gCells, get?_eq_none_iff]
    exact of_decide_eq_true (mem_filter.mp mem).2
  · intro chunk selected unmasked
    have present : chunk ∈ (engine.chunkServing cfg locs).pool.slots.keys := by
      by_contra absent
      exact unmasked (mem_filter.mpr ⟨selected, decide_eq_true absent⟩)
    obtain ⟨cell, found⟩ := (mem_keys_iff _ _).mp present
    rw [← recallGlobal_gCells] at found
    exact after.sync.held after.cache.coherent found (after.cache.pool.slot_lt found)

end ChunkSync

/-! ## Pages -/

structure PageSync (cfg : Config) (engine : Engine α) : Prop where
  cache : engine.PageCache cfg fun _ => False
  sync : InSync (pageOwner engine.gPages) engine

theorem pageOwner_eq_none_iff {pool : SlotPool ℕ} {chunk : ℕ} :
    pageOwner pool chunk = none ↔ chunk / c4PageSize ∉ pool.slots.keys := by
  rw [pageOwner, Option.map_eq_none_iff, get?_eq_none_iff]

namespace PageSync

variable (state : PageSync cfg engine)

include state

/-- The missed pages are those without a block. -/
theorem mem_pageMisses (ranged : LocsInRange cfg locs) {page : ℕ} (selected : page ∈ uniquePages locs) :
    page ∈ engine.pageMisses cfg (uniquePages locs) ↔ page ∉ engine.gPages.slots.keys := by
  have bound := chunk_lt_of_page (lt_of_mem_uniquePages ranged selected) (firstChunk_page page)
  rw [pageMisses, mem_filter, and_iff_right selected, clampCol_of_lt bound, decide_eq_true_eq, state.sync.miss_iff,
    pageOwner_eq_none_iff, firstChunk_page]

theorem recalled (ranged : LocsInRange cfg locs)
    (noted : engine.gFull ≠ none ∨ (engine.pageServing cfg locs).exhausted = false) :
    PageSync cfg (engine.recallGlobalPages cfg locs).1 := by
  refine ⟨state.cache.afterRecall ranged, ?_⟩
  obtain ⟨pairs, spec⟩ := recallGlobalPages_spec state.cache.pool ranged
  have all : pairs = engine.recalledPairs cfg locs := by
    refine spec.copied.resolve_right fun ⟨_, missing, stuck⟩ => ?_
    rcases noted with present | enough
    · exact present missing
    · exact Bool.false_ne_true (enough.symm.trans stuck)
  have distinct : (engine.pageMisses cfg (uniquePages locs)).Nodup := (uniquePages_nodup locs).filter _
  have evictedBound : ∀ page ∈ (engine.pageServing cfg locs).evicted, page < cfg.nLogicalPages := fun page evicted =>
    state.cache.inRange page (serve_evicted_subset pageMisses_selected distinct evicted)
  rw [spec.gPages]
  apply state.sync.swap spec.swap
  · intro chunk cell mem
    obtain ⟨item, served, _, inPage, place, _⟩ := (mem_recalledPairs ranged).mp (all ▸ mem)
    exact pageOwner_eq_some.mpr ⟨item.slot, inPage ▸ (pageServing_served served).2, place.symm⟩
  · intro chunk unentered
    have unserved : chunk / c4PageSize ∉ (engine.pageServing cfg locs).keys := by
      intro mem
      obtain ⟨item, served, same⟩ := mem_map.mp mem
      have missed := (pageServing_served served).1
      have unowned := (state.mem_pageMisses ranged (pageMisses_selected _ missed)).mp missed
      -- a missed page has no entry in the decode region, so its chunks are copied
      refine unentered (item.slot * c4PageSize + chunk % c4PageSize) ?_
      rw [all, mem_recalledPairs ranged]
      refine ⟨item, served, .inr ?_, same.symm, rfl, fun _ => ?_⟩
      · exact Bool.eq_false_iff.mpr (mt (serve_hit_iff pageMisses_selected distinct served).mp unowned)
      · have negative : engine.chunkCellLut 0 chunk < 0 :=
          state.sync.miss_iff.mpr (pageOwner_eq_none_iff.mpr (same ▸ unowned))
        exact negative.trans_le (Int.natCast_nonneg _)
    rw [pageOwner, pageServing, serve_get?_of_unserved pageMisses_selected unserved]
    rcases lt_or_ge chunk cfg.mirrorChunks with bound | beyond
    · simp only [mem_pageDrops bound, pageOwner]
      split_ifs <;> rfl
    · have outside : chunk / c4PageSize ∉ engine.gPages.slots.keys := fun present =>
        absurd (chunk_lt_of_page (state.cache.inRange _ present) rfl) (not_lt.mpr beyond)
      rw [(get?_eq_none_iff _ _).mpr outside, pageOwner_eq_none_iff.mpr outside, ite_self, ite_self, Option.map_none]

theorem graceful (paged : cfg.pageRecall = true) (noted : engine.Noted cfg locs) :
    engine.Graceful cfg locs ∧ PageSync cfg (engine.recallGlobalPages cfg locs).1 := by
  obtain ⟨ranged, noted⟩ := noted
  simp only [selection, slotCapacity, paged, ↓reduceIte] at noted
  have enough : engine.gFull ≠ none ∨ (engine.pageServing cfg locs).exhausted = false :=
    noted.imp_right (serve_not_exhausted pageMisses_selected state.cache.pool)
  have after := state.recalled ranged enough
  refine ⟨?_, after⟩
  have requested : ∀ page ∈ uniquePages locs,
      page ∈ engine.gPages.slots.keys ∨ page ∈ engine.pageMisses cfg (uniquePages locs) := fun page selected =>
    or_iff_not_imp_left.mpr (state.mem_pageMisses ranged selected).mpr
  simp only [Graceful, recallResidentGlobal, selection, slotCapacity, keyChunks, paged, ↓reduceIte]
  refine ⟨recallGlobalPages_returns enough, _, filter_sublist,
    serve_excess state.cache.pool pageMisses_selected (uniquePages_nodup locs) requested, ?_, ?_⟩
  · intro page mem chunk inside
    apply after.sync.masked
    rw [recallGlobalPages_gPages, pageOwner_eq_none_iff, mem_pageSpan.mp inside]
    exact of_decide_eq_true (mem_filter.mp mem).2
  · intro page selected unmasked chunk inside
    have present : page ∈ (engine.pageServing cfg locs).pool.slots.keys := by
      by_contra absent
      exact unmasked (mem_filter.mpr ⟨selected, decide_eq_true absent⟩)
    obtain ⟨block, found⟩ := (mem_keys_iff _ _).mp present
    rw [← recallGlobalPages_gPages] at found
    have below := maxBlocks_cells (after.cache.pool.slot_lt found) (Nat.mod_lt chunk (by decide))
    exact after.sync.held after.cache.coherent
      (pageOwner_eq_some.mpr ⟨block, mem_pageSpan.mp inside ▸ found, rfl⟩) below

end PageSync

/-! ## Histories of selections -/

/-- The engine that `__init__` leaves, over a filled mirror. -/
def freshOver (mirror : ℕ → ℕ → α) (zero : α) (gFull : Option Bool) : Engine α :=
  { Engine.init zero with hostMirror := mirror, gFull := gFull }

private theorem freshOver_coherent (cfg : Config) (mirror : ℕ → ℕ → α) (zero : α) (gFull : Option Bool)
    (owner : ℕ → Option ℕ) : (freshOver mirror zero gFull).GlobalCoherent cfg owner fun _ => False := fun _ =>
  ⟨fun _ _ points => absurd points (by simp [freshOver, Engine.init]),
    fun _ _ points => absurd points (by simp [freshOver, Engine.init])⟩

def recallStep (cfg : Config) (engine : Engine α) (locs : List ℤ) : Engine α := (engine.recallResidentGlobal cfg locs).1

/-- In every history of selections that fit, or with `_g_full` of any that do not, every call degrades gracefully. -/
theorem recall_degrades (cfg : Config) (mirror : ℕ → ℕ → α) (zero : α) (gFull : Option Bool) (calls : List (List ℤ))
    (noted : Along (recallStep cfg) (Noted cfg) (freshOver mirror zero gFull) calls) :
    Along (recallStep cfg) (Graceful cfg) (freshOver mirror zero gFull) calls := by
  have coherent := freshOver_coherent cfg mirror zero gFull
  cases paged : cfg.pageRecall with
  | false =>
    have base : ChunkSync cfg (freshOver mirror zero gFull) :=
      ⟨⟨fresh_wellFormed _, fun _ member => absurd member not_mem_nil, coherent _⟩, fun _ _ => rfl⟩
    refine noted.imp_of_invariant base (fun engine locs state noted => ?_) fun _ _ state noted =>
      (state.graceful paged noted).1
    simpa only [recallStep, recallResidentGlobal, paged, Bool.false_eq_true, ↓reduceIte]
      using (state.graceful paged noted).2
  | true =>
    have base : PageSync cfg (freshOver mirror zero gFull) :=
      ⟨⟨fresh_wellFormed _, fun _ member => absurd member not_mem_nil, coherent _⟩, fun _ _ => rfl⟩
    refine noted.imp_of_invariant base (fun engine locs state noted => ?_) fun _ _ state noted =>
      (state.graceful paged noted).1
    simpa only [recallStep, recallResidentGlobal, paged, ↓reduceIte] using (state.graceful paged noted).2

open RecallLog (twoSlots)

/-- A selection that fits, two that do not, and one that fits again. -/
def largeCalls : List (List ℤ) := [[64], [3, 129, 70, 4], [3, 67, 130, 195], [129]]

theorem recall_degrades_on_largeCalls :
    let start := freshOver (fun layer chunk => 1000 * layer + chunk) 0 (some false)
    (∀ paged, Along (recallStep (twoSlots paged)) (Noted (twoSlots paged)) start largeCalls) ∧
      ∀ paged, Along (recallStep (twoSlots paged)) (Graceful (twoSlots paged)) start largeCalls := by
  intro start
  have noted : ∀ paged, Along (recallStep (twoSlots paged)) (Noted (twoSlots paged)) start largeCalls := by
    decide +kernel
  exact ⟨noted, fun paged => recall_degrades (twoSlots paged) (fun layer chunk => 1000 * layer + chunk) 0 (some false)
    largeCalls (noted paged)⟩

/-- `__init__` leaves `_g_full` undefined, so the first selection that is too large raises. -/
theorem first_exhaustion_raises :
    (∀ paged, ((freshOver (fun _ _ => 0) 0 none : Engine ℕ).recallResidentGlobal (twoSlots paged) [3, 67, 130]).2 =
        .error .attributeError) ∧
      ∀ paged, ¬(freshOver (fun _ _ => 0) 0 none : Engine ℕ).Graceful (twoSlots paged) [3, 67, 130] := by
  have raises : ∀ paged,
      ((freshOver (fun _ _ => 0) 0 none : Engine ℕ).recallResidentGlobal (twoSlots paged) [3, 67, 130]).2 =
        .error .attributeError := by
    intro paged
    cases paged <;> rfl
  refine ⟨raises, fun paged graceful => ?_⟩
  obtain ⟨copied, returns⟩ := graceful.1
  exact nomatch (raises paged).symm.trans returns

end FlashMemory.Engine
