import FlashMemory.Soundness.PageClaims
import FlashMemory.Model.PageTables

/-! # What a request keeps when others end

The buffers of the capturer are positional, and a batch is compacted when a request of it ends. The
requests behind it move to lower rows, but what their old rows published is not moved along: the rows are
blanked, whatever the release gates say. So a request keeps what it published exactly when it keeps its
row and the capturer had noted the rows before. In that case nothing of its pages is released either, since
every page that is given up is held by another index.
-/

namespace FlashMemory

open List Capturer Option

namespace Capturer

variable {α : Type*} {cfg : Config} {ccfg : CapturerConfig} {capturer : Capturer} {engine : Engine α} {reqIds : List ℕ}
  {safe : ℕ → Prop}

theorem releaseVanished_untouched
    (outside : ∀ ri ∈ capturer.vanished cfg reqIds, ∀ page, engine.Records ri page → ¬ safe page) :
    Engine.Untouched cfg safe engine (capturer.releaseVanished cfg engine reqIds) := by
  unfold releaseVanished
  split_ifs
  · exact foldl_releaseOwned_untouched outside
  · exact .refl ..

/-- `on_forward_begin` zeroes the counts and drops the locations of the blanked rows, and of no other. -/
theorem onForwardBegin_rows (cfg : Config) (ccfg : CapturerConfig) (capturer : Capturer) (engine : Engine α)
    (reqIds : List ℕ) (bi : ℕ) :
    let after := (capturer.onForwardBegin cfg ccfg engine reqIds).1
    let blanked := bi ∈ capturer.blankedRows ccfg reqIds
    (after.residentCountBuf bi = if blanked then 0 else capturer.residentCountBuf bi) ∧
      after.residentPoolLocBuf bi = if blanked then [] else capturer.residentPoolLocBuf bi := by
  simp only [onForwardBegin, blankedRows]
  split
  · simp
  · obtain ⟨_, _, _, counts, locs⟩ := resetChangedRows_rows cfg ccfg
      { capturer with cachedReqIds := some reqIds } _ reqIds
    exact ⟨counts bi, locs bi⟩

end Capturer

/-! ## Rows before and after a forward begins -/

namespace ResidentServer

variable {cfg : Config} {ccfg : CapturerConfig} {state : ResidentServer} {batch : List ℕ} {req : Request} {i j : ℕ}

/-- The index of a request in its row of the batch. -/
theorem reqIds_getElem? (books : state.server.Books cfg)
    (alive : ∀ id ∈ batch, id ∈ state.server.live.map Request.id) (mem : req ∈ state.server.live)
    (row : batch[j]? = some req.id) :
    ({ state with batch := batch } : ResidentServer).reqIds[j]? = some req.reqPoolIdx := by
  have ids : ({ state with batch := batch } : ResidentServer).occupants.map Request.id = batch :=
    occupants_ids alive
  rw [← ids, getElem?_map] at row
  obtain ⟨occupant, found, same⟩ := map_eq_some_iff.mp row
  have present : occupant ∈ state.server.live := by
    obtain ⟨id, _, first⟩ := mem_filterMap.mp (mem_of_getElem? found)
    exact mem_of_find?_eq_some first
  obtain rfl := books.eq_of_id present mem same
  exact reqIds_row found

namespace Tracked

variable (tracked : Tracked cfg ccfg state) (scheduled : Scheduled cfg ccfg state (.forwardBegin batch))
  (mem : req ∈ state.server.live) (old : state.batch[i]? = some req.id) (new : batch[j]? = some req.id)

include tracked scheduled mem old new

/-- A request that changes its row, or whose row was never noted, is found in a row that is blanked. -/
theorem mem_blankedRows (published : state.capturer.residentCountBuf i ≠ 0)
    (moved : ¬ (i = j ∧ state.capturer.prevRowOccupant ≠ none)) :
    j ∈ state.capturer.blankedRows ccfg { state with batch := batch }.reqIds := by
  obtain ⟨_, nonempty, bounded, _, alive⟩ := scheduled
  have index := reqIds_getElem? tracked.books alive mem new
  have inBatch := (List.getElem?_eq_some_iff.mp index).1
  have length : ({ state with batch := batch } : ResidentServer).reqIds.length = batch.length :=
    reqIds_length alive
  have allocated : state.capturer.allocated = true := by
    by_contra missing
    exact published ((tracked.blank (Bool.not_eq_true _ ▸ missing)).2 i).2
  have different : state.capturer.noted[j]? ≠ some req.reqPoolIdx := by
    intro same
    cases shape : state.capturer.prevRowOccupant with
    | none => simp [Capturer.noted, shape] at same
    | some reqIds =>
      have row := tracked.aligned reqIds shape i req mem old
      have distinct := tracked.distinct
      simp only [Capturer.noted, shape, getD_some] at same distinct
      refine moved ⟨?_, by simp [shape]⟩
      exact (getElem?_inj (List.getElem?_eq_some_iff.mp row).1 distinct).mp (row.trans same.symm)
  have changed : state.capturer.prevRowOccupant ≠ some ({ state with batch := batch } : ResidentServer).reqIds := by
    intro same
    rw [Capturer.noted, same, getD_some] at different
    exact different index
  have someRow : ({ state with batch := batch } : ResidentServer).reqIds ≠ [] := reqIds_ne_nil alive nonempty
  rw [blankedRows, if_neg (by simp [allocated, changed, someRow])]
  refine mem_append_left _ (mem_filter.mpr ⟨mem_range.mpr (lt_min inBatch ?_), ?_⟩)
  · omega
  · rw [decide_eq_true_eq, index]
    exact different

omit old in
/-- A request in its old row keeps what the row shows. -/
theorem not_mem_blankedRows (old : state.batch[j]? = some req.id)
    (noted : state.capturer.prevRowOccupant ≠ none) :
    j ∉ state.capturer.blankedRows ccfg { state with batch := batch }.reqIds := by
  obtain ⟨reqIds, shape⟩ := ne_none_iff_exists'.mp noted
  have index := reqIds_getElem? tracked.books scheduled.2.2.2.2 mem new
  have row := tracked.aligned reqIds shape j req mem old
  have inBatch := (List.getElem?_eq_some_iff.mp index).1
  rw [blankedRows]
  split
  · exact not_mem_nil
  · simp only [changedRows, mem_append, mem_filter, mem_range, mem_range'_1,
      decide_eq_true_eq, shape, getD_some, row, index, ne_eq, not_true, and_false, false_or]
    omega

omit old in
/-- Every page that is released is held by an index whose row is blanked or gone, so a request in its old
row loses no entry. -/
theorem untouched (paged : cfg.pageRecall = true) (old : state.batch[j]? = some req.id)
    (noted : state.capturer.prevRowOccupant ≠ none) :
    Engine.Untouched cfg req.Uses state.server.engine (state.step cfg ccfg (.forwardBegin batch)).server.engine := by
  have kept := tracked.not_mem_blankedRows scheduled mem new old noted
  obtain ⟨reqIds, shape⟩ := ne_none_iff_exists'.mp noted
  obtain ⟨_, nonempty, _, _, alive⟩ := scheduled
  have index := reqIds_getElem? tracked.books alive mem new
  have someRow : ({ state with batch := batch } : ResidentServer).reqIds ≠ [] := reqIds_ne_nil alive nonempty
  have only : ∀ ri page, state.Held ri page → req.Uses page → req.reqPoolIdx = ri := fun ri page held uses =>
    tracked.exclusive ri page held req mem (mem_of_getElem? old) uses
  rcases onForwardBegin_cases cfg ccfg state.capturer state.server.engine someRow with
    ⟨result, _⟩ | ⟨allocated, changed, result⟩
  · have same : (state.step cfg ccfg (.forwardBegin batch)).server.engine = state.server.engine :=
      congrArg Prod.snd result
    rw [same]
    exact .refl cfg req.Uses state.server.engine
  · have same : (state.step cfg ccfg (.forwardBegin batch)).server.engine = _ := congrArg Prod.snd result
    rw [blankedRows, if_neg (by simp [allocated, changed, someRow])] at kept
    rw [same]
    refine .trans (releaseVanished_untouched fun ri gone page recorded uses => ?_)
      (resetChangedRows_untouched paged fun bi reset chunk shown uses => ?_)
    · have mine := only ri page (Or.inl recorded) uses
      exact (mem_vanished.mp gone).2 (mine ▸ mem_of_getElem? index)
    · have row := tracked.aligned reqIds shape j req mem old
      have distinct := tracked.distinct
      rw [Capturer.noted, shape, getD_some] at distinct
      have inRows : bi < reqIds.length := by
        by_contra beyond
        rw [show state.capturer.residentPoolLocBuf bi = [] from
          tracked.within reqIds shape bi (not_lt.mp beyond)] at shown
        contradiction
      have carried : state.capturer.noted[bi]? = some (reqIds.get ⟨bi, inRows⟩) := by
        rw [Capturer.noted, shape, getD_some, get_eq_getElem, getElem?_eq_getElem inRows]
      have mine := only _ _ (Or.inr ⟨bi, carried, chunk, shown, rfl⟩) uses
      rw [Capturer.noted, shape, getD_some, ← mine] at carried
      have sameRow := (getElem?_inj inRows distinct).mp (carried.trans row.symm)
      exact kept (sameRow ▸ reset)

end Tracked

end ResidentServer

/-! ## Between two forwards -/

/-- The step is not part of a forward. -/
def ResidentOp.Between : ResidentOp → Prop
  | .commit _ _ _ | .takePage _ _ | .finish _ => True
  | .forwardBegin _ | .decode _ | .forwardEnd _ => False

instance ResidentOp.decidableBetween : ∀ op : ResidentOp, Decidable op.Between
  | .commit _ _ _ | .takePage _ _ | .finish _ => isTrue trivial
  | .forwardBegin _ | .decode _ | .forwardEnd _ => isFalse not_false

namespace PagedServer

variable {cfg : Config} {ccfg : CapturerConfig} {before state : PagedServer} {req : Request}

/-- The request has what it had: the count, the page ids and the locations, now in row `j`, and every entry
of its chunks. -/
structure KeepsRow (before after : PagedServer) (req : Request) (i j : ℕ) : Prop where
  count : after.resident.capturer.residentCountBuf j = before.resident.capturer.residentCountBuf i
  pages : after.residentIdPageTable j = before.residentIdPageTable i
  locs : after.resident.capturer.residentPoolLocBuf j = before.resident.capturer.residentPoolLocBuf i
  entries : ∀ layer, ∀ number < req.formed, after.resident.server.engine.chunkCellLut layer (req.loc number) =
    before.resident.server.engine.chunkCellLut layer (req.loc number)

/-- Nothing of the rows has changed, and nothing of the request while it is live. -/
structure Rests (before after : PagedServer) (req : Request) : Prop where
  capturer : after.resident.capturer = before.resident.capturer
  table : after.residentIdPageTable = before.residentIdPageTable
  batch : after.resident.batch = before.resident.batch
  numbered : req.id < after.resident.server.nextId
  request : ∀ now ∈ after.resident.server.live, now.id = req.id → now.formed = req.formed ∧
    (∀ number < req.formed, now.loc number = req.loc number) ∧
    ∀ layer, ∀ number < req.formed, after.resident.server.engine.chunkCellLut layer (req.loc number) =
      before.resident.server.engine.chunkCellLut layer (req.loc number)

theorem Rests.refl (books : before.resident.server.Books cfg) (mem : req ∈ before.resident.server.live) :
    Rests before before req := by
  refine ⟨rfl, rfl, rfl, books.numbered req mem, fun now present same => ?_⟩
  obtain rfl := books.eq_of_id present mem same
  exact ⟨rfl, fun _ _ => rfl, fun _ _ _ => rfl⟩

theorem Rests.step (tracked : state.resident.Tracked cfg ccfg) (rests : Rests before state req)
    {op : ResidentOp} (between : op.Between) (scheduled : state.resident.Scheduled cfg ccfg op) :
    Rests before (state.step cfg ccfg op) req := by
  cases op with
  | commit reqPoolIdx promptLen pages =>
    obtain ⟨_, _, allowed⟩ := scheduled
    refine ⟨rests.capturer, rests.table, rests.batch, Nat.lt_succ_of_lt rests.numbered,
      forall_mem_cons.mpr ⟨fun same => absurd same rests.numbered.ne', fun now mem same => ?_⟩⟩
    obtain ⟨formed, locs, entries⟩ := rests.request now mem same
    -- The prompt of the new request is on pages of its own.
    have untouched : Engine.Untouched cfg (· ∈ now.pages) state.resident.server.engine
        (Server.commitEngine cfg state.resident.server.engine
          ⟨state.resident.server.nextId, reqPoolIdx, promptLen, pages, promptLen / 4⟩) :=
      .commit fun page new mine => (allowed.2.2 page new).2 now mem mine
    refine ⟨formed, locs, fun layer number early => Eq.trans ?_ (entries layer number early)⟩
    have layout := tracked.books.layout now mem
    have early' : number < now.formed := formed ▸ early
    rw [← locs number early]
    exact untouched.entries layer _ (layout.loc_lt early') (layout.page_mem early')
  | takePage id page =>
    refine ⟨rests.capturer, rests.table, rests.batch, rests.numbered, fun grown mem => ?_⟩
    obtain ⟨now, old, rfl⟩ := mem_map.mp mem
    intro same
    split_ifs at same ⊢
    · obtain ⟨formed, locs, entries⟩ := rests.request now old same
      refine ⟨formed, fun number early => ?_, entries⟩
      rw [← locs number early]
      exact Request.loc_takePage page (Nat.lt_of_lt_of_le (formed ▸ early) (tracked.books.layout now old).room)
    · exact rests.request now old same
  | finish id =>
    exact ⟨rests.capturer, rests.table, rests.batch, rests.numbered,
      fun now mem => rests.request now (mem_filter.mp mem).1⟩
  | forwardBegin batch => contradiction
  | decode rows => contradiction
  | forwardEnd topLogical => contradiction

/-- When a forward begins, a request keeps exactly what it had in its row if and only if it is still in
that row and the rows were noted. -/
theorem KeepsRow.forwardBegin_iff (paged : cfg.pageRecall = true) (tracked : state.resident.Tracked cfg ccfg)
    (rests : Rests before state req) {batch : List ℕ} {i j : ℕ}
    (scheduled : state.resident.Scheduled cfg ccfg (.forwardBegin batch))
    (old : before.resident.batch[i]? = some req.id) (new : batch[j]? = some req.id)
    (published : before.resident.capturer.residentCountBuf i ≠ 0) :
    KeepsRow before (state.step cfg ccfg (.forwardBegin batch)) req i j ↔
      i = j ∧ before.resident.capturer.prevRowOccupant ≠ none := by
  obtain ⟨now, mem, same⟩ := mem_map.mp (scheduled.2.2.2.2 _ (mem_of_getElem? new))
  obtain ⟨formed, locs, entries⟩ := rests.request now mem same
  obtain ⟨counts, rows⟩ := onForwardBegin_rows cfg ccfg state.resident.capturer
    state.resident.server.engine { state.resident with batch := batch }.reqIds j
  rw [← rests.batch, ← same] at old
  rw [← same] at new
  rw [← rests.capturer] at published ⊢
  constructor
  · intro keeps
    by_contra moved
    have blanked := tracked.mem_blankedRows scheduled mem old new published moved
    rw [if_pos blanked] at counts
    have kept := keeps.count
    rw [← rests.capturer] at kept
    exact published (kept.symm.trans counts)
  · rintro ⟨rfl, noted⟩
    have kept := tracked.not_mem_blankedRows scheduled mem new old noted
    rw [if_neg kept] at counts rows
    refine ⟨?_, ?_, ?_, fun layer number early => Eq.trans ?_ (entries layer number early)⟩
    · rw [← rests.capturer]
      exact counts
    · rw [← rests.table]
      exact if_neg kept
    · rw [← rests.capturer]
      exact rows
    · have early' : number < now.formed := formed ▸ early
      rw [← locs number early]
      exact (tracked.untouched scheduled mem new paged old noted).entries layer _
        ((tracked.books.layout now mem).loc_lt early') ⟨number, early', rfl⟩

/-- In every run in which no index is taken again while a row carries it, a request that has published
something keeps it over the end of other requests if and only if it stays in its row and the rows were
noted. -/
theorem row_kept_iff (paged : cfg.pageRecall = true) (sized : ccfg.c4LogicalSize = cfg.mirrorChunks)
    {prebuilt : Bool} (early : cfg.ownerRelease = true → prebuilt = true) (history between : List ResidentOp)
    (batch : List ℕ) (quiet : ∀ op ∈ between, op.Between)
    (allowed : Along (step cfg ccfg)
      (fun state op => state.resident.Scheduled cfg ccfg op ∧ state.resident.FreshIndex op)
      (init prebuilt) (history ++ (between ++ [.forwardBegin batch]))) {i j : ℕ}
    (member : req ∈ (run (step cfg ccfg) (init prebuilt) history).resident.server.live)
    (old : (run (step cfg ccfg) (init prebuilt) history).resident.batch[i]? = some req.id)
    (new : batch[j]? = some req.id)
    (published : (run (step cfg ccfg) (init prebuilt) history).resident.capturer.residentCountBuf i ≠ 0) :
    KeepsRow (run (step cfg ccfg) (init prebuilt) history)
        (run (step cfg ccfg) (init prebuilt) (history ++ (between ++ [.forwardBegin batch]))) req i j ↔
      i = j ∧ (run (step cfg ccfg) (init prebuilt) history).resident.capturer.prevRowOccupant ≠ none := by
  obtain ⟨first, second⟩ := along_append.mp allowed
  obtain ⟨resting, last, _⟩ := along_append.mp second
  have tracked : (run (step cfg ccfg) (init prebuilt) history).resident.Tracked cfg ccfg :=
    @Along.invariant _ _ _ _ (fun state => state.resident.Tracked cfg ccfg) _ _ first (.init cfg ccfg early)
      fun _ _ tracked ok => tracked.step paged sized ok.1 ok.2
  rw [run_append, run_append]
  generalize run (step cfg ccfg) (init prebuilt) history = before at *
  obtain ⟨tracked', rests⟩ : (run (step cfg ccfg) before between).resident.Tracked cfg ccfg ∧
      Rests before (run (step cfg ccfg) before between) req :=
    @Along.invariant _ _ _ _ (fun state => state.resident.Tracked cfg ccfg ∧ Rests before state req) _ _
      (resting.and (along_of_forall quiet)) ⟨tracked, .refl tracked.books member⟩
      fun _ _ ⟨tracked, rests⟩ ⟨ok, op⟩ => ⟨tracked.step paged sized ok.1 ok.2, rests.step tracked op ok.1⟩
  exact KeepsRow.forwardBegin_iff paged tracked' rests last.1 old new published

/-- Request 1 ends in the last row: request 0 keeps its row and everything it published. -/
theorem row_kept_on_last_finish :
    let cfg := { Config.small 3 10 1 with globalMode := true, pageRecall := true }
    let history : List ResidentOp := [.commit 0 16 [1], .commit 1 12 [2], .forwardBegin [0, 1],
      .decode [.forms 0, .idle 1 13], .forwardEnd fun _ => some [0]]
    KeepsRow (run (step cfg ResidentServer.smallCapturer) (init true) history)
      (run (step cfg ResidentServer.smallCapturer) (init true) (history ++ ([.finish 1] ++ [.forwardBegin [0]])))
      ⟨0, 0, 16, [1], 5⟩ 0 0 :=
  (row_kept_iff (by decide) (by decide) (by decide) _ [.finish 1] [0] (by decide) (by decide) (by decide)
    (by decide) (by decide) (by decide)).mpr ⟨rfl, by decide⟩

/-- Request 0 ends and request 1 moves to its row: under every setting of the release gates, request 1 is
left without its resident selection. -/
theorem moved_request_loses_row :
    let cfg := fun owner => { Config.small 3 10 1 with globalMode := true, pageRecall := true, ownerRelease := owner }
    let ccfg := fun safe noRow => { ResidentServer.smallCapturer with safeRelease := safe, noRowRelease := noRow }
    let history : List ResidentOp := [.commit 0 16 [1], .commit 1 12 [2], .forwardBegin [0, 1],
      .decode [.forms 0, .idle 1 13], .forwardEnd fun _ => some [0]]
    let ending : List ResidentOp := [.finish 0, .forwardBegin [1]]
    (∀ owner safe noRow, Along (step (cfg owner) (ccfg safe noRow))
      (fun state op => state.resident.Scheduled (cfg owner) (ccfg safe noRow) op ∧ state.resident.FreshIndex op)
      (init true) (history ++ ending)) ∧
    (∀ owner safe noRow,
      (run (step (cfg owner) (ccfg safe noRow)) (init true) history).resident.capturer.residentCountBuf 1 = 64) ∧
    ∀ owner safe noRow, ¬ KeepsRow (run (step (cfg owner) (ccfg safe noRow)) (init true) history)
      (run (step (cfg owner) (ccfg safe noRow)) (init true) (history ++ ending)) ⟨1, 1, 12, [2], 3⟩ 1 0 := by
  refine ⟨by decide, by decide, fun owner safe noRow keeps => ?_⟩
  have counts := keeps.count
  clear keeps
  revert owner safe noRow counts
  decide

end PagedServer

end FlashMemory
