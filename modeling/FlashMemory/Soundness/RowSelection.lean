import FlashMemory.Soundness.PublishedRows

/-! # Rows and what they select

During a forward every row of the batch has an occupant, and the side-band reads the occupant's pages and
history. What it selects and what it recalls for a row are therefore chunks of that request.
-/

namespace FlashMemory

open List

/-! ## The locations of a selection -/

namespace Forward

variable {cfg : Config} {ccfg : CapturerConfig} {forward : Forward} {req : Request} {bi : ℕ}
  {topLogical : List ℕ}

/-- The row reads the pages and the history of a request. -/
structure Serves (forward : Forward) (bi : ℕ) (req : Request) : Prop where
  history : forward.nBlk bi = req.formed
  pages : ∀ page, forward.physPage bi page = req.pages.getD page 0

variable (serves : forward.Serves bi req) (layout : req.Layout cfg)
  (sized : ccfg.c4LogicalSize = cfg.mirrorChunks)
include serves layout sized

theorem mem_selectedLocs {chunk : ℕ} (mem : (chunk : ℤ) ∈ forward.selectedLocs ccfg bi topLogical) :
    ∃ number < req.formed, number / c4PageSize ∈ topLogical ∧ chunk = req.loc number := by
  obtain ⟨page, selected, column⟩ := mem_flatMap.mp mem
  obtain ⟨offset, inPage, value⟩ := mem_map.mp column
  rw [mem_range] at inPage
  rw [serves.history, serves.pages] at value
  split_ifs at value with formed
  have number : (page * c4PageSize + offset) / c4PageSize = page := by
    simp only [c4PageSize] at inPage ⊢
    omega
  have held := layout.inMirror _ (layout.page_mem formed)
  rw [Request.loc_page, number] at held
  refine ⟨_, formed, number.symm ▸ selected, ?_⟩
  have clamped : min (req.pages.getD page 0) (ccfg.c4LogicalSize / c4PageSize - 1) = req.pages.getD page 0 := by
    simp only [sized, Config.mirrorChunks, c4PageSize] at held ⊢
    omega
  rw [clamped] at value
  rw [Request.loc, number, ← Int.ofNat_inj.mp value]
  simp only [c4PageSize] at inPage ⊢
  omega

theorem mem_keptLocs {limit loc : ℤ} :
    loc ∈ forward.keptLocs ccfg limit bi topLogical ↔ ∃ number < req.formed,
      number / c4PageSize ∈ topLogical ∧ (limit < 0 ∨ (number : ℤ) < limit) ∧ loc = req.loc number := by
  have unclamped : ∀ number < req.formed, min (req.pages.getD (number / c4PageSize) 0 * c4PageSize +
      number % c4PageSize) ccfg.c4LogicalSize = req.loc number := by
    intro number formed
    have bound := layout.loc_lt formed
    rw [Request.loc, ← sized] at bound
    rw [Request.loc, Nat.min_eq_left bound.le]
  simp only [keptLocs, mem_map, mem_filter, mem_range, decide_eq_true_eq, serves.history,
    serves.pages]
  constructor
  · rintro ⟨number, ⟨formed, selected, early⟩, rfl⟩
    exact ⟨number, formed, selected, early, congrArg Int.ofNat (unclamped number formed)⟩
  · rintro ⟨number, formed, selected, early, rfl⟩
    exact ⟨number, ⟨formed, selected, early⟩, congrArg Int.ofNat (unclamped number formed)⟩

end Forward

namespace ResidentServer

variable {ccfg : CapturerConfig} {state : ResidentServer} {req : Request} {bi bj : ℕ}

/-- What a row reads is its occupant's. -/
theorem forward_serves {bi : ℕ} {req : Request} (row : state.occupants[bi]? = some req)
    (topLogical : ℕ → Option (List ℕ)) : (state.forward topLogical).Serves bi req := by
  constructor
  · simp [forward, Forward.nBlk, getD_eq_getElem?_getD, row]
  · intro page
    simp [forward, Forward.physPage, getD_eq_getElem?_getD, row]

theorem InForward.occupant_of_row (now : InForward ccfg state) (inBatch : bi < state.batch.length) :
    ∃ req ∈ state.server.live, state.occupants[bi]? = some req := by
  rw [← occupants_length now.alive] at inBatch
  exact ⟨_, mem_live_of_occupant (getElem_mem inBatch), getElem?_eq_getElem inBatch⟩

theorem reqIds_row (row : state.occupants[bi]? = some req) : state.reqIds[bi]? = some req.reqPoolIdx := by
  simp only [reqIds, getElem?_map, row, Option.map_some]

variable (now : InForward ccfg state)
include now

theorem InForward.row_lt (row : state.occupants[bi]? = some req) : bi < state.batch.length :=
  occupants_length now.alive ▸ (List.getElem?_eq_some_iff.mp row).1

/-- A request has one row. -/
theorem InForward.eq_of_row (row : state.occupants[bi]? = some req)
    (row' : state.occupants[bj]? = some req) : bi = bj := by
  have distinct : state.occupants.Nodup := List.Nodup.of_map Request.id (occupants_ids now.alive ▸ now.distinct)
  exact (getElem?_inj (List.getElem?_eq_some_iff.mp row).1 distinct).mp (row.trans row'.symm)

theorem InForward.due_lt (due : bi ∈ state.due ccfg) : bi < state.batch.length := by
  have inRange := mem_range.mp ((Capturer.dueRows_spec ccfg state.capturer state.reqIds).2.subset due)
  rwa [reqIds_length now.alive] at inRange

end ResidentServer

end FlashMemory
