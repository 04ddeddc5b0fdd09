import FlashMemory.Soundness.MappedPages
import FlashMemory.Model.Capturer

/-! # What the two hooks of a forward do

Before a forward the capturer blanks rows and releases what they published; the engine spares every
page that no blanked row published. After a forward the due rows are rewritten and one recall runs: it
spares every page that it does not evict, and it maps the pages that it copies.
-/

namespace FlashMemory

open List Engine

variable {forward : Forward} {bi : ℕ}

theorem Forward.selectedLocs_length {ccfg : CapturerConfig} {topLogical : List ℕ} :
    (forward.selectedLocs ccfg bi topLogical).length = topLogical.length * c4PageSize := by
  simp [selectedLocs, length_flatMap]

/-- Blocks of equal width are read by quotient and remainder. -/
private theorem getD_flatMap_blocks {β γ : Type*} (blocks : List β) (width : ℕ) (entry : β → ℕ → γ) (col : ℕ)
    (other : β) (pad : γ) :
    (blocks.flatMap fun block => (List.range width).map (entry block)).getD col pad =
      if col < blocks.length * width then entry (blocks.getD (col / width) other) (col % width) else pad := by
  induction blocks generalizing col with
  | nil => simp
  | cons block rest ih =>
    rw [flatMap_cons, length_cons, Nat.add_mul, Nat.one_mul]
    by_cases first : col < width
    · rw [getD_append _ _ _ _ (by simpa using first), getD_eq_getElem _ _ (by simpa using first),
        if_pos (by omega), Nat.div_eq_of_lt first, Nat.mod_eq_of_lt first]
      simp
    · rw [getD_append_right _ _ _ _ (by simpa using first), length_map, length_range, ih]
      rcases Nat.eq_zero_or_pos width with rfl | positive
      · simp
      · have later : width ≤ col := Nat.le_of_not_lt first
        rw [Nat.div_eq_sub_div positive later, getD_cons_succ, Nat.mod_eq_sub_mod later]
        exact if_congr (by omega) rfl rfl

/-- The row of a selection by column. -/
theorem Forward.selectedLocs_getD (ccfg : CapturerConfig) (forward : Forward) (bi : ℕ) (topLogical : List ℕ)
    (col : ℕ) :
    (forward.selectedLocs ccfg bi topLogical).getD col (-1) =
      if col < topLogical.length * c4PageSize ∧
          topLogical.getD (col / c4PageSize) 0 * c4PageSize + col % c4PageSize < forward.nBlk bi then
        ((min (forward.physPage bi (topLogical.getD (col / c4PageSize) 0)) (ccfg.c4LogicalSize / c4PageSize - 1) *
          c4PageSize + col % c4PageSize : ℕ) : ℤ)
      else -1 := by
  rw [selectedLocs, getD_flatMap_blocks topLogical c4PageSize _ col 0 (-1), ite_and]

/-! ## The capturer before a forward -/

namespace Capturer

variable {α : Type*} {cfg : Config} {ccfg : CapturerConfig} {capturer : Capturer} {engine : Engine α}
  {reqIds rows due : List ℕ} {safe : ℕ → Prop}

/-- The engine after owner release for the indices that are gone. -/
def releaseVanished (cfg : Config) (capturer : Capturer) (engine : Engine α) (reqIds : List ℕ) : Engine α :=
  if cfg.ownerRelease then
    (capturer.vanished cfg reqIds).foldl (fun engine (ri : ℕ) => (engine.releaseOwnedPages cfg ri).1) engine
  else engine

/-- The indices that the rows carry. -/
def noted (capturer : Capturer) : List ℕ := capturer.prevRowOccupant.getD []

/-- `on_forward_begin` on a batch that is not empty. -/
theorem onForwardBegin_cases (cfg : Config) (ccfg : CapturerConfig) (capturer : Capturer) (engine : Engine α)
    (someRow : reqIds ≠ []) :
    (capturer.onForwardBegin cfg ccfg engine reqIds = (capturer, engine) ∧
      (capturer.allocated = true → capturer.prevRowOccupant = some reqIds)) ∨
    capturer.allocated = true ∧ capturer.prevRowOccupant ≠ some reqIds ∧
      capturer.onForwardBegin cfg ccfg engine reqIds = { capturer with cachedReqIds := some reqIds }.resetChangedRows
        cfg ccfg (capturer.releaseVanished cfg engine reqIds) reqIds := by
  unfold onForwardBegin
  split
  · next quiet =>
    refine Or.inl ⟨rfl, fun allocated => ?_⟩
    simp only [Bool.or_eq_true, Bool.not_eq_true', List.isEmpty_iff, decide_eq_true_eq] at quiet
    exact quiet.resolve_left fun early => early.elim (fun off => by simp [off] at allocated) someRow
  · next quiet =>
    simp only [Bool.or_eq_true, Bool.not_eq_true', List.isEmpty_iff, decide_eq_true_eq, not_or,
      Bool.not_eq_false] at quiet
    exact Or.inr ⟨quiet.1.1, quiet.2, rfl⟩

/-- Restarting rows only resets their cadence and drops staged counts. -/
theorem foldl_restartRow (ccfg : CapturerConfig) (reqIds rows : List ℕ) (capturer : Capturer) :
    let after := rows.foldl (restartRow ccfg reqIds) capturer
    after.allocated = capturer.allocated ∧ after.residentCountBuf = capturer.residentCountBuf ∧
      after.residentPoolLocBuf = capturer.residentPoolLocBuf ∧
      ∀ bi, capturer.pendingCount bi = none → after.pendingCount bi = none := by
  induction rows generalizing capturer with
  | nil => exact ⟨rfl, rfl, rfl, fun _ => id⟩
  | cons row rest ih =>
    obtain ⟨allocated, count, locs, pending⟩ := ih (restartRow ccfg reqIds capturer row)
    have once : ∀ bi, capturer.pendingCount bi = none →
        (restartRow ccfg reqIds capturer row).pendingCount bi = none := by
      intro bi unset
      have updated : Function.update capturer.pendingCount row none bi = none := by
        rw [Function.update_apply, unset, ite_self]
      simp only [restartRow]
      split_ifs <;> exact updated
    refine ⟨allocated.trans ?_, count.trans ?_, locs.trans ?_, fun bi unset => pending bi (once bi unset)⟩
    all_goals
      simp only [restartRow]
      split_ifs <;> rfl

/-- The rows that a reset blanks. -/
def resetRows (ccfg : CapturerConfig) (capturer : Capturer) (reqIds : List ℕ) : List ℕ :=
  capturer.changedRows ccfg reqIds ++ List.range' reqIds.length (ccfg.maxBs - reqIds.length)

theorem resetChangedRows_rows (cfg : Config) (ccfg : CapturerConfig) (capturer : Capturer)
    (engine : Engine α) (reqIds : List ℕ) :
    let after := (capturer.resetChangedRows cfg ccfg engine reqIds).1
    after.allocated = capturer.allocated ∧ after.prevRowOccupant = some reqIds ∧
      (∀ bi, capturer.pendingCount bi = none → after.pendingCount bi = none) ∧
      (∀ bi, after.residentCountBuf bi =
        if bi ∈ capturer.resetRows ccfg reqIds then 0 else capturer.residentCountBuf bi) ∧
      ∀ bi, after.residentPoolLocBuf bi =
        if bi ∈ capturer.resetRows ccfg reqIds then [] else capturer.residentPoolLocBuf bi := by
  obtain ⟨allocated, count, locs, pending⟩ := foldl_restartRow ccfg reqIds
    (capturer.changedRows ccfg reqIds)
    ((capturer.blankRows (List.range' reqIds.length (ccfg.maxBs - reqIds.length))).blankRows
      (capturer.changedRows ccfg reqIds))
  refine ⟨allocated, rfl, pending, fun bi => (congrFun count bi).trans ?_,
    fun bi => (congrFun locs bi).trans ?_⟩
  all_goals simp only [blankRows, resetRows, mem_append, ite_or]

/-- A row that survives the reset holds the same request as before. -/
theorem kept_row (bounded : reqIds.length ≤ ccfg.maxBs) (inBuffer : bi < ccfg.maxBs)
    (kept : bi ∉ capturer.resetRows ccfg reqIds) :
    bi < reqIds.length ∧ ∃ occupants, capturer.prevRowOccupant = some occupants ∧
      occupants[bi]? = reqIds[bi]? := by
  simp only [resetRows, changedRows, mem_append, mem_filter, mem_range, mem_range'_1,
    not_or, not_and, not_lt, decide_eq_true_eq, not_not, ne_eq] at kept
  have inBatch : bi < reqIds.length := by
    by_contra beyond
    have := kept.2 (not_lt.mp beyond)
    omega
  have same := kept.1 (lt_min inBatch inBuffer)
  refine ⟨inBatch, ?_⟩
  cases shape : capturer.prevRowOccupant with
  | none => simp [shape, inBatch] at same
  | some occupants => exact ⟨occupants, rfl, by simpa [shape] using same⟩

/-- A row that shows something after the reset showed it before, for the same request. -/
theorem shown_before (inBuffer : ∀ bi, ccfg.maxBs ≤ bi → capturer.residentPoolLocBuf bi = [])
    (bounded : reqIds.length ≤ ccfg.maxBs) {loc : ℤ} (shown : loc ∈ capturer.residentPoolLocBuf bi)
    (kept : bi ∉ capturer.resetRows ccfg reqIds) :
    bi < reqIds.length ∧ ∃ occupants, capturer.prevRowOccupant = some occupants ∧
      occupants[bi]? = reqIds[bi]? := by
  refine kept_row bounded ?_ kept
  by_contra outside
  rw [inBuffer bi (not_lt.mp outside)] at shown
  contradiction

private theorem releaseRows_untouched (paged : cfg.pageRecall = true) (liveRows : ℕ)
    (outside : ∀ bi ∈ rows, ∀ chunk : ℕ, (chunk : ℤ) ∈ capturer.residentPoolLocBuf bi →
      ¬ safe (chunk / c4PageSize)) :
    Untouched cfg safe engine (capturer.releaseRows cfg ccfg liveRows engine rows) := by
  simp only [releaseRows]
  split_ifs
  · exact .refl ..
  · exact .refl ..
  · refine .release paged fun chunk mem => ?_
    obtain ⟨bi, row, shown⟩ := mem_flatMap.mp (mem_filter.mp (mem_filter.mp mem).1).1
    exact outside bi row chunk shown
  · exact .refl ..
  · refine .release paged fun chunk mem => ?_
    obtain ⟨bi, row, shown⟩ := mem_flatMap.mp (mem_filter.mp mem).1
    exact outside bi row chunk shown

theorem resetChangedRows_untouched (paged : cfg.pageRecall = true)
    (outside : ∀ bi ∈ capturer.resetRows ccfg reqIds, ∀ chunk : ℕ,
      (chunk : ℤ) ∈ capturer.residentPoolLocBuf bi → ¬ safe (chunk / c4PageSize)) :
    Untouched cfg safe engine (capturer.resetChangedRows cfg ccfg engine reqIds).2 := by
  refine .trans (releaseRows_untouched paged _ fun bi tail => ?_) (releaseRows_untouched paged _ ?_)
  · exact outside bi (mem_append_right _ tail)
  · intro bi changed chunk shown
    refine outside bi (mem_append_left _ changed) chunk ?_
    simp only [blankRows] at shown
    split_ifs at shown
    · contradiction
    · exact shown

theorem foldl_releaseOwned_untouched {vanished : List ℕ}
    (outside : ∀ ri ∈ vanished, ∀ page ∈ (engine.reqOwnedPages.get? (ri : ℤ)).getD [], ¬ safe page) :
    Untouched cfg safe engine (vanished.foldl
      (fun engine (ri : ℕ) => (engine.releaseOwnedPages cfg ri).1) engine) := by
  induction vanished generalizing engine with
  | nil => exact .refl ..
  | cons first rest ih =>
    refine .trans (.releaseOwned (outside first (mem_cons_self ..))) (ih fun ri mem page owned => ?_)
    refine outside ri (mem_cons_of_mem _ mem) page ?_
    simp only [releaseOwnedPages] at owned
    split_ifs at owned
    · exact owned
    · simp only [clearCols_reqOwnedPages, OrderedDict.get?_pop] at owned
      split_ifs at owned
      · contradiction
      · exact owned

/-- What the releases preserve, `on_forward_begin` preserves. -/
theorem onForwardBegin_rule (holds : Engine α → Prop) (start : holds engine)
    (release : ∀ engine locs, holds engine → holds (engine.releaseReqPoolLocs cfg locs).1)
    (releaseOwned : ∀ engine (ri : ℤ), holds engine → holds (engine.releaseOwnedPages cfg ri).1) :
    holds (capturer.onForwardBegin cfg ccfg engine reqIds).2 := by
  have rows : ∀ (capturer : Capturer) (live : ℕ) (engine : Engine α) (rows : List ℕ), holds engine →
      holds (capturer.releaseRows cfg ccfg live engine rows) := by
    intro capturer live engine rows held
    simp only [releaseRows]
    split_ifs <;> first | exact held | exact release _ _ held
  have owners : ∀ (gone : List ℕ) (engine : Engine α), holds engine →
      holds (gone.foldl (fun engine (ri : ℕ) => (engine.releaseOwnedPages cfg ri).1) engine) := by
    intro gone
    induction gone with
    | nil => exact fun _ held => held
    | cons ri rest ih => exact fun engine held => ih _ (releaseOwned engine ri held)
  simp only [onForwardBegin]
  split_ifs
  · exact start
  · exact rows _ _ _ _ (rows _ _ _ _ (owners _ _ start))
  · exact rows _ _ _ _ (rows _ _ _ _ start)

/-! ## The capturer after a forward -/

/-- The due loop only advances the steps, and its rows are among the given ones. -/
theorem dueLoop_spec (ccfg : CapturerConfig) (capturer : Capturer) (rows : List (ℕ × ℕ)) :
    (∃ steps, (dueLoop ccfg capturer rows).1 = { capturer with reqStep := steps }) ∧
      (dueLoop ccfg capturer rows).2.Sublist (rows.map Prod.snd) := by
  induction rows generalizing capturer with
  | nil => exact ⟨⟨capturer.reqStep, rfl⟩, .slnil⟩
  | cons row rest ih =>
    obtain ⟨ri, bi⟩ := row
    obtain ⟨⟨steps, after⟩, among⟩ := ih
      { capturer with reqStep := Function.update capturer.reqStep ri (capturer.reqStep ri + 1) }
    refine ⟨⟨steps, after⟩, ?_⟩
    simp only [dueLoop, map_cons]
    split_ifs
    · exact among.cons_cons bi
    · exact among.cons bi

private theorem resolveIds_length (ccfg : CapturerConfig) (capturer : Capturer) (reqIds : List ℕ) :
    (capturer.resolveIds ccfg reqIds).length = reqIds.length := by
  unfold resolveIds
  cases capturer.cachedReqIds with
  | none => rfl
  | some cached =>
    simp only
    split_ifs with refresh
    · rfl
    · exact not_not.mp (not_or.mp refresh).1

/-- The bookkeeping of `on_forward_end` touches no buffer, and the due rows are rows of the batch. -/
theorem dueRows_spec (ccfg : CapturerConfig) (capturer : Capturer) (reqIds : List ℕ) :
    (∃ steps step cached, (capturer.dueRows ccfg reqIds).1 =
      { capturer with reqStep := steps, ofeGlobalStep := step, cachedReqIds := cached }) ∧
      (capturer.dueRows ccfg reqIds).2.Sublist (List.range reqIds.length) := by
  obtain ⟨⟨steps, after⟩, among⟩ := dueLoop_spec ccfg { capturer with
    ofeGlobalStep := capturer.ofeGlobalStep + 1
    cachedReqIds := some (capturer.resolveIds ccfg reqIds) } (capturer.resolveIds ccfg reqIds).zipIdx
  rw [zipIdx_map_snd, resolveIds_length, ← range_eq_range'] at among
  exact ⟨⟨steps, _, _, after⟩, among⟩

/-- A row that is not due keeps its list. -/
theorem nextRow_of_not_due (idle : bi ∉ due) :
    capturer.nextRow ccfg forward due bi = capturer.residentPoolLocBuf bi := by
  simp only [nextRow, idle, ↓reduceIte]

theorem recordOwners_frame (cfg : Config) (ccfg : CapturerConfig) (engine : Engine α)
    (reqIds : List ℕ) (forward : Forward) (due : List ℕ) :
    let after := recordOwners cfg ccfg engine reqIds forward due
    after.chunkCellLut = engine.chunkCellLut ∧ after.gPages = engine.gPages := by
  unfold recordOwners
  induction due generalizing engine with
  | nil => exact ⟨rfl, rfl⟩
  | cons bi rest ih =>
    obtain ⟨lut, pages⟩ := ih (engine.recordOwnedPages cfg (reqIds.getD bi 0 : ℕ)
      (keptOfRow cfg ccfg engine reqIds forward bi))
    refine ⟨lut.trans ?_, pages.trans ?_⟩
    all_goals
      simp only [recordOwnedPages]
      split_ifs <;> rfl

/-- After publication the count of every row is the length of its list. -/
theorem published_counts (staged : ∀ bi, capturer.pendingCount bi = none)
    (counted : ∀ bi, capturer.residentCountBuf bi = (capturer.residentPoolLocBuf bi).length)
    (inBuffer : ∀ bi ∈ due, bi < ccfg.maxBs) (bi : ℕ) :
    ((capturer.stageRows ccfg forward due).publishPendingCounts ccfg).residentCountBuf bi =
      (capturer.nextRow ccfg forward due bi).length := by
  simp only [publishPendingCounts, stageRows, nextRow]
  cases chosen : if bi ∈ due then forward.chosen bi else none with
  | none => simp only [staged, Option.getD_none, ite_self, counted]
  | some pages =>
    split_ifs at chosen with row
    have some : (due.any fun bi => (forward.chosen bi).isSome) = true :=
      any_eq_true.mpr ⟨bi, row, Option.isSome_iff_exists.mpr ⟨pages, chosen⟩⟩
    simp only [some, Bool.or_true, inBuffer bi row, decide_true, Bool.and_self, ↓reduceIte,
      Option.getD_some, Forward.selectedLocs_length]

/-- A selection that fits is recalled without raising: what the recall does not evict stays mapped, and
a selected page that is copied, or whose first chunk is in the recall region, is mapped as a whole. -/
theorem sidebandWork_spec (capturer : Capturer) (paged : cfg.pageRecall = true) (settled : engine.PagesSettled cfg)
    (ranged : LocsInRange cfg (unionLocs cfg ccfg engine reqIds forward due))
    (fits : (uniquePages (unionLocs cfg ccfg engine reqIds forward due)).length ≤ cfg.maxBlocks) :
    let pages := uniquePages (unionLocs cfg ccfg engine reqIds forward due)
    let misses := engine.pageMisses cfg pages
    ∃ after, capturer.sidebandWork cfg ccfg engine reqIds forward due =
        ((capturer.stageRows ccfg forward due).publishPendingCounts ccfg, after, .ok ()) ∧
      Spares cfg (· ∉ engine.gPages.victims cfg.maxBlocks pages misses) engine after ∧
      ∀ page ∈ pages, (page ∈ misses → cfg.lutTruth = true ∨ page ∉ engine.gPages.slots.keys) →
        engine.chunkCellLut 0 (page * c4PageSize) < cfg.decodeBase →
        ∀ chunk, chunk / c4PageSize = page → 0 ≤ after.chunkCellLut 0 chunk := by
  intro pages misses
  obtain ⟨lut, blocks⟩ := recordOwners_frame cfg ccfg engine reqIds forward due
  have recorded : ∀ safe, Spares cfg safe engine (recordOwners cfg ccfg engine reqIds forward due) :=
    fun safe => (Untouched.congr lut blocks).spares
  simp only [sidebandWork]
  generalize recordOwners cfg ccfg engine reqIds forward due = noted at lut blocks recorded
  have missed : noted.pageMisses cfg pages = misses := by simp only [misses, pageMisses, lut]
  have settled' := (recorded (fun _ => True)).settled settled
  split_ifs with empty
  · refine ⟨noted, rfl, recorded _, fun page selected => ?_⟩
    simp only [pages, empty] at selected
    contradiction
  obtain ⟨pairs, spec⟩ := recallGlobalPages_spec settled'.pool ranged
  obtain ⟨copied, ok⟩ := recallGlobalPages_ok settled'.pool fits
  refine ⟨_, ?_, (recorded _).trans (.afterRecall spec ranged fun page evicted => ?_), ?_⟩
  · simp only [recallResidentGlobal, paged, ↓reduceIte]
    rw [← Prod.mk.eta (p := noted.recallGlobalPages cfg _), ok]
  · rw [missed, blocks] at evicted
    exact not_not.mpr evicted
  · intro page selected copies recalled chunk inPage
    rw [← missed, ← blocks] at copies
    rw [← lut] at recalled
    exact spec.selected_mapped settled'.pool settled'.pages ranged fits selected copies recalled inPage

end Capturer

end FlashMemory
