import FlashMemory.Soundness.RowSelection

/-! # Which index holds which page

The capturer knows requests by their pool index only. An index holds a page when the page is recorded
for it, or when the row that carries the index publishes a chunk of it. Pages and indices move on to
other requests between forwards, while rows and records stay until the next forward begins. What keeps
this sound is an order of events: a request that takes over a page forms no chunk on it before the
next forward begins, and by then the rows and records of indices that are gone have been dropped.

This needs that no request is committed under an index that a row still carries, since the reset
compares indices and would not notice it, and that the records of the first forward are not made before
the capturer has noted its rows.
-/

namespace FlashMemory

open List Engine Capturer

variable {page ri : ℕ}

/-! ## Records -/

namespace Engine

variable {α : Type*} {cfg : Config} {engine : Engine α}

/-- The page is recorded for the index. -/
def Records (engine : Engine α) (ri page : ℕ) : Prop :=
  page ∈ (engine.reqOwnedPages.get? (ri : ℤ)).getD []

theorem records_congr {after : Engine α} (same : after.reqOwnedPages = engine.reqOwnedPages) :
    after.Records ri page ↔ engine.Records ri page := by
  rw [Records, Records, same]

theorem records_recordOwnedPages {owner : ℕ} {kept : List ℤ} :
    (engine.recordOwnedPages cfg owner kept).Records ri page ↔ engine.Records ri page ∨
      cfg.ownerRelease = true ∧ cfg.pageRecall = true ∧ ri = owner ∧ page ∈ uniquePages kept := by
  simp only [recordOwnedPages]
  split_ifs with skipped
  · refine (or_iff_left fun new => ?_).symm
    obtain ⟨release, paged, _, selected⟩ := new
    obtain ⟨chunk, mem, _⟩ := mem_uniquePages.mp selected
    rw [release, paged] at skipped
    have some : kept.isEmpty = false := isEmpty_eq_false_iff.mpr (ne_nil_of_mem mem)
    simp only [Bool.and_self, Bool.not_true, Bool.false_or, some, Bool.or_false, decide_eq_true_eq] at skipped
    omega
  · have gates : cfg.ownerRelease = true ∧ cfg.pageRecall = true := by simp_all
    simp only [Records, OrderedDict.get?_set, Int.natCast_inj, gates.1, gates.2, true_and]
    split_ifs with same
    · subst same
      cases recorded : engine.reqOwnedPages.get? (ri : ℤ) with
      | none => simp [(cfg.setOrder_perm _).mem_iff]
      | some owned =>
        simp only [Option.getD_some, (cfg.setOrder_perm _).mem_iff, mem_append, mem_filter,
          decide_eq_true_eq, true_and]
        tauto
    · exact (or_iff_left fun new => same new.1).symm

theorem records_releaseOwnedPages (release : cfg.ownerRelease = true) (paged : cfg.pageRecall = true) {owner : ℕ} :
    (engine.releaseOwnedPages cfg owner).1.Records ri page ↔ ri ≠ owner ∧ engine.Records ri page := by
  simp only [releaseOwnedPages, release, paged, Bool.and_self, Bool.not_true, Bool.false_eq_true, ↓reduceIte,
    Records, clearCols_reqOwnedPages, OrderedDict.get?_pop, Int.natCast_inj]
  split_ifs with same
  · simp [same]
  · simp [same]

/-- After owner release for some indices, exactly their records are gone. -/
theorem records_foldl_releaseOwned (release : cfg.ownerRelease = true) (paged : cfg.pageRecall = true) {gone : List ℕ} :
    (gone.foldl (fun engine (ri : ℕ) => (engine.releaseOwnedPages cfg ri).1) engine).Records ri page ↔
      ri ∉ gone ∧ engine.Records ri page := by
  induction gone generalizing engine with
  | nil => simp
  | cons first rest ih =>
    rw [foldl_cons, ih, records_releaseOwnedPages release paged, mem_cons, not_or]
    tauto

section

variable (cfg engine) (locs : List ℤ)

private theorem recallGlobal_reqOwnedPages : (engine.recallGlobal cfg locs).1.reqOwnedPages = engine.reqOwnedPages := by
  rw [recallGlobal_eq]
  split_ifs
  · rfl
  · exact install_kept.2.2

private theorem recallGlobalPages_reqOwnedPages :
    (engine.recallGlobalPages cfg locs).1.reqOwnedPages = engine.reqOwnedPages := by
  rw [recallGlobalPages_eq]
  split_ifs
  · rfl
  · exact install_kept.2.2

theorem recallResidentGlobal_reqOwnedPages :
    (engine.recallResidentGlobal cfg locs).1.reqOwnedPages = engine.reqOwnedPages := by
  unfold recallResidentGlobal
  split_ifs
  · exact recallGlobalPages_reqOwnedPages cfg engine locs
  · exact recallGlobal_reqOwnedPages cfg engine locs

theorem releaseReqPoolLocs_reqOwnedPages :
    (engine.releaseReqPoolLocs cfg locs).1.reqOwnedPages = engine.reqOwnedPages := by
  simp only [releaseReqPoolLocs]
  split_ifs <;> rfl

end

theorem storeDecodeAllLayers_reqOwnedPages (cfg : Config) (engine : Engine α)
    (rows : List (DecodeRow (ℕ → α))) :
    (engine.storeDecodeAllLayers cfg rows).reqOwnedPages = engine.reqOwnedPages :=
  storeDecodeAllLayers_rule (·.reqOwnedPages = engine.reqOwnedPages) rows rfl fun _ _ _ same => same

theorem commitEngine_reqOwnedPages (cfg : Config) (engine : Engine Stamp) (req : Request) :
    (Server.commitEngine cfg engine req).reqOwnedPages = engine.reqOwnedPages := by
  simp only [Server.commitEngine, registerDecodeReq]
  split_ifs <;> rfl

/-! ## Dropped pages -/

/-- The blocks and the entries of some pages are dropped, those of all others are as before. -/
structure Drops (cfg : Config) (dropped : ℕ → Prop) (before after : Engine α) : Prop where
  freed : ∀ page, dropped page → after.gPages.slots.get? page = none
  cleared : ∀ layer, ∀ chunk < cfg.mirrorChunks, dropped (chunk / c4PageSize) → after.chunkCellLut layer chunk = -1
  blocks : ∀ page, ¬ dropped page → after.gPages.slots.get? page = before.gPages.slots.get? page
  entries : ∀ layer, ∀ chunk < cfg.mirrorChunks, ¬ dropped (chunk / c4PageSize) →
    after.chunkCellLut layer chunk = before.chunkCellLut layer chunk

namespace Drops

variable {before middle after : Engine α} {first second : ℕ → Prop}

theorem refl (cfg : Config) (engine : Engine α) : Drops cfg (fun _ => False) engine engine :=
  ⟨fun _ => False.elim, fun _ _ _ => False.elim, fun _ _ => rfl, fun _ _ _ _ => rfl⟩

theorem congr (drops : Drops cfg first before after) (same : ∀ page, first page ↔ second page) :
    Drops cfg second before after := by
  rwa [show first = second from funext fun page => propext (same page)] at drops

theorem trans (drops : Drops cfg first before middle) (drops' : Drops cfg second middle after) :
    Drops cfg (fun page => first page ∨ second page) before after where
  freed page dropped := by
    by_cases now : second page
    · exact drops'.freed page now
    · rw [drops'.blocks page now, drops.freed page (dropped.resolve_right now)]
  cleared layer chunk bound dropped := by
    by_cases now : second (chunk / c4PageSize)
    · exact drops'.cleared layer chunk bound now
    · rw [drops'.entries layer chunk bound now, drops.cleared layer chunk bound (dropped.resolve_right now)]
  blocks page kept := by
    rw [not_or] at kept
    rw [drops'.blocks page kept.2, drops.blocks page kept.1]
  entries layer chunk bound kept := by
    rw [not_or] at kept
    rw [drops'.entries layer chunk bound kept.2, drops.entries layer chunk bound kept.1]

theorem clearPages {pages : List ℕ} (blocks : after.gPages = before.gPages.release pages)
    (cleared : after.chunkCellLut = (before.clearCols (pageCols cfg pages)).chunkCellLut) :
    Drops cfg (· ∈ pages) before after where
  freed page dropped := by rw [blocks, SlotPool.get?_release, if_pos dropped]
  cleared layer chunk bound dropped := by rw [cleared, clearCols_lut, if_pos ((mem_pageCols bound).mpr dropped)]
  blocks page kept := by rw [blocks, SlotPool.get?_release, if_neg kept]
  entries layer chunk bound kept := by rw [cleared, clearCols_lut, if_neg fun mem => kept ((mem_pageCols bound).mp mem)]

theorem releaseOwned (release : cfg.ownerRelease = true) (paged : cfg.pageRecall = true) (owner : ℕ) :
    Drops cfg (engine.Records owner) engine (engine.releaseOwnedPages cfg owner).1 := by
  simp only [releaseOwnedPages, release, paged, Bool.and_self, Bool.not_true, Bool.false_eq_true, ↓reduceIte]
  exact clearPages rfl rfl

end Drops

end Engine

/-! ## The two hooks -/

namespace Capturer

variable {α : Type*} {cfg : Config} {ccfg : CapturerConfig} {engine : Engine α} {reqIds due : List ℕ}
  {forward : Forward}

theorem records_recordOwners :
    (recordOwners cfg ccfg engine reqIds forward due).Records ri page ↔ engine.Records ri page ∨
      cfg.ownerRelease = true ∧ cfg.pageRecall = true ∧ ∃ bi ∈ due, ri = reqIds.getD bi 0 ∧
        page ∈ uniquePages (keptOfRow cfg ccfg engine reqIds forward bi) := by
  unfold recordOwners
  induction due generalizing engine with
  | nil => simp
  | cons bi rest ih =>
    have limits : ∀ bj, keptOfRow cfg ccfg (engine.recordOwnedPages cfg (reqIds.getD bi 0 : ℕ)
        (keptOfRow cfg ccfg engine reqIds forward bi)) reqIds forward bj =
        keptOfRow cfg ccfg engine reqIds forward bj := by
      intro bj
      simp only [keptOfRow, prefillLimit, recordOwnedPages]
      split_ifs <;> rfl
    simp only [foldl_cons, ih, limits, records_recordOwnedPages, mem_cons, exists_eq_or_imp]
    tauto

/-- Owner release drops the pages recorded for the indices that are gone, and no others. -/
theorem foldl_releaseOwned_drops (release : cfg.ownerRelease = true) (paged : cfg.pageRecall = true)
    (gone : List ℕ) :
    Drops cfg (fun page => ∃ ri ∈ gone, engine.Records ri page) engine
      (gone.foldl (fun engine (ri : ℕ) => (engine.releaseOwnedPages cfg ri).1) engine) := by
  induction gone generalizing engine with
  | nil => exact (Drops.refl cfg engine).congr fun page => by simp
  | cons first rest ih =>
    refine ((Drops.releaseOwned release paged first).trans ih).congr fun page => ?_
    simp only [records_releaseOwnedPages release paged, mem_cons, exists_eq_or_imp]
    -- The record of the first index is gone in the second part, but it is dropped by then.
    constructor
    · rintro (now | ⟨ri, mem, _, later⟩)
      · exact Or.inl now
      · exact Or.inr ⟨ri, mem, later⟩
    · rintro (now | ⟨ri, mem, later⟩)
      · exact Or.inl now
      · by_cases same : ri = first
        · exact Or.inl (same ▸ later)
        · exact Or.inr ⟨ri, mem, same, later⟩

theorem mem_vanished {capturer : Capturer} :
    ri ∈ capturer.vanished cfg reqIds ↔ ri ∈ capturer.noted ∧ ri ∉ reqIds := by
  simp only [vanished, noted, mem_filter, (cfg.setOrder_perm _).mem_iff, mem_dedup, decide_eq_true_eq]

theorem records_releaseVanished (paged : cfg.pageRecall = true) (capturer : Capturer) :
    (capturer.releaseVanished cfg engine reqIds).Records ri page ↔
      (cfg.ownerRelease = true → ri ∉ capturer.vanished cfg reqIds) ∧ engine.Records ri page := by
  unfold releaseVanished
  split_ifs with owner
  · simp only [records_foldl_releaseOwned owner paged, owner, true_imp_iff]
  · simp only [owner, Bool.false_eq_true, false_imp_iff, true_and]

private theorem releaseRows_reqOwnedPages (cfg : Config) (ccfg : CapturerConfig) (capturer : Capturer)
    (liveRows : ℕ) (engine : Engine α) (rows : List ℕ) :
    (capturer.releaseRows cfg ccfg liveRows engine rows).reqOwnedPages = engine.reqOwnedPages := by
  simp only [releaseRows]
  split_ifs
  · rfl
  · rfl
  · exact releaseReqPoolLocs_reqOwnedPages ..
  · rfl
  · exact releaseReqPoolLocs_reqOwnedPages ..

section

variable (cfg : Config) (ccfg : CapturerConfig) (capturer : Capturer) (engine : Engine α) (reqIds : List ℕ)

theorem resetChangedRows_reqOwnedPages :
    (capturer.resetChangedRows cfg ccfg engine reqIds).2.reqOwnedPages = engine.reqOwnedPages := by
  simp only [resetChangedRows, releaseRows_reqOwnedPages]

theorem resetChangedRows_cachedReqIds :
    (capturer.resetChangedRows cfg ccfg engine reqIds).1.cachedReqIds = capturer.cachedReqIds := by
  have restarted : ∀ (rows : List ℕ) (capturer : Capturer),
      (rows.foldl (restartRow ccfg reqIds) capturer).cachedReqIds = capturer.cachedReqIds := by
    intro rows
    induction rows with
    | nil => exact fun _ => rfl
    | cons row rest ih =>
      intro capturer
      rw [foldl_cons, ih]
      simp only [restartRow]
      split_ifs <;> rfl
  exact restarted _ _

/-- What `on_forward_end` leaves, whether or not its recall raises. -/
theorem onForwardEnd_frame (forward : Forward) :
    let result := capturer.onForwardEnd cfg ccfg engine reqIds forward
    let due := (capturer.dueRows ccfg reqIds).2
    result.1.prevRowOccupant = capturer.prevRowOccupant ∧
      result.1.cachedReqIds = some (capturer.resolveIds ccfg reqIds) ∧
      result.1.residentPoolLocBuf = capturer.nextRow ccfg forward due ∧
      result.1.allocated = (capturer.allocated || due.any fun bi => (forward.chosen bi).isSome) ∧
      (result.1.allocated = false → result.1.residentCountBuf = capturer.residentCountBuf) ∧
      result.2.1.reqOwnedPages =
        (recordOwners cfg ccfg engine (capturer.resolveIds ccfg reqIds) forward due).reqOwnedPages := by
  obtain ⟨⟨steps, bookkept⟩, _⟩ := dueLoop_spec ccfg { capturer with
    ofeGlobalStep := capturer.ofeGlobalStep + 1
    cachedReqIds := some (capturer.resolveIds ccfg reqIds) } (capturer.resolveIds ccfg reqIds).zipIdx
  simp only [onForwardEnd]
  rw [show (capturer.dueRows ccfg reqIds).1 = _ from bookkept]
  split_ifs with none
  · rw [none]
    refine ⟨rfl, rfl, funext fun bi => ?_, by simp, fun _ => rfl, rfl⟩
    rw [nextRow_of_not_due not_mem_nil]
  · have unpublished : ∀ staged : Capturer, staged.allocated = false →
        (staged.publishPendingCounts ccfg).residentCountBuf = staged.residentCountBuf := by
      intro staged missing
      simp only [publishPendingCounts, missing, Bool.false_and, Bool.false_eq_true, ↓reduceIte]
    simp only [sidebandWork]
    split_ifs
    · exact ⟨rfl, rfl, rfl, rfl, unpublished (stageRows ccfg _ forward _), rfl⟩
    · have recalled := recallResidentGlobal_reqOwnedPages cfg
        (recordOwners cfg ccfg engine (capturer.resolveIds ccfg reqIds) forward (capturer.dueRows ccfg reqIds).2)
        (unionLocs cfg ccfg engine (capturer.resolveIds ccfg reqIds) forward (capturer.dueRows ccfg reqIds).2)
      split
      · next shape => exact ⟨rfl, rfl, rfl, rfl, fun _ => rfl, by rwa [shape] at recalled⟩
      · next shape => exact ⟨rfl, rfl, rfl, rfl, unpublished (stageRows ccfg _ forward _),
          by rwa [shape] at recalled⟩

end

end Capturer

/-! ## The invariant -/

/-- The row publishes a chunk of the page. -/
def Capturer.Shows (capturer : Capturer) (bi page : ℕ) : Prop :=
  ∃ chunk : ℕ, (chunk : ℤ) ∈ capturer.residentPoolLocBuf bi ∧ chunk / c4PageSize = page

/-- A chunk of the request lies on the page. -/
def Request.Uses (req : Request) (page : ℕ) : Prop :=
  ∃ number < req.formed, req.loc number / c4PageSize = page

theorem Request.Layout.uses_mem {cfg : Config} {req : Request} (layout : req.Layout cfg)
    (uses : req.Uses page) : page ∈ req.pages := by
  obtain ⟨number, formed, rfl⟩ := uses
  exact layout.page_mem formed

namespace ResidentServer

variable {cfg : Config} {ccfg : CapturerConfig} {state : ResidentServer}

/-- What the scheduler guarantees, as in `Admissible`, but with no bound on what is selected. -/
def Scheduled (cfg : Config) (ccfg : CapturerConfig) (state : ResidentServer) : ResidentOp → Prop
  | .forwardEnd _ => state.running = true
  | op => Admissible cfg ccfg state op

instance decidableScheduled (cfg : Config) (ccfg : CapturerConfig) (state : ResidentServer) :
    ∀ op, Decidable (Scheduled cfg ccfg state op) := by
  rintro (_ | _) <;> dsimp only [Scheduled] <;> infer_instance

/-- No request is committed under an index that a row still carries. -/
def FreshIndex (state : ResidentServer) : ResidentOp → Prop
  | .commit reqPoolIdx _ _ => reqPoolIdx ∉ state.capturer.noted
  | _ => True

instance decidableFreshIndex (state : ResidentServer) : ∀ op, Decidable (FreshIndex state op) := by
  rintro (_ | _) <;> dsimp only [FreshIndex] <;> infer_instance

/-- The page is recorded for the index, or the row of the index publishes it. -/
def Held (state : ResidentServer) (ri page : ℕ) : Prop :=
  state.server.engine.Records ri page ∨
    ∃ bi, state.capturer.noted[bi]? = some ri ∧ state.capturer.Shows bi page

/-- What the capturer knows of the rows, and whose pages they publish. -/
structure RowsKnown (cfg : Config) (ccfg : CapturerConfig) (state : ResidentServer) : Prop where
  books : state.server.Books cfg
  indices : state.server.live.Pairwise (·.reqPoolIdx ≠ ·.reqPoolIdx)
  blank : state.capturer.allocated = false → state.capturer.prevRowOccupant = none ∧
    ∀ bi, state.capturer.residentPoolLocBuf bi = [] ∧ state.capturer.residentCountBuf bi = 0
  inBuffer : ∀ bi, ccfg.maxBs ≤ bi → state.capturer.residentPoolLocBuf bi = []
  early : cfg.ownerRelease = true → state.capturer.allocated = true
  listed : ∀ ri page, state.server.engine.Records ri page →
    cfg.ownerRelease = true ∧ ri ∈ state.capturer.noted
  within : ∀ reqIds, state.capturer.prevRowOccupant = some reqIds →
    ∀ bi, reqIds.length ≤ bi → state.capturer.residentPoolLocBuf bi = []
  cached : ∀ reqIds, state.capturer.prevRowOccupant = some reqIds → state.capturer.cachedReqIds = some reqIds
  mine : ∀ ri page, state.Held ri page → ∀ req ∈ state.server.live, req.reqPoolIdx = ri → page ∈ req.pages

/-- Moreover a held page is used by no other request of the last batch. -/
structure Tracked (cfg : Config) (ccfg : CapturerConfig) (state : ResidentServer) : Prop
    extends RowsKnown cfg ccfg state where
  numbered : ∀ id ∈ state.batch, id < state.server.nextId
  /-- A live request of the last batch is noted in its row. -/
  aligned : ∀ reqIds, state.capturer.prevRowOccupant = some reqIds → ∀ bi : ℕ, ∀ req ∈ state.server.live,
    state.batch[bi]? = some req.id → reqIds[bi]? = some req.reqPoolIdx
  distinct : state.capturer.noted.Nodup
  exclusive : ∀ ri page, state.Held ri page → ∀ req ∈ state.server.live, req.id ∈ state.batch →
    req.Uses page → req.reqPoolIdx = ri
  current : state.running = true → InForward ccfg state

theorem Held.carried (known : RowsKnown cfg ccfg state) (held : state.Held ri page) :
    ri ∈ state.capturer.noted := by
  rcases held with recorded | ⟨bi, row, _⟩
  · exact (known.listed ri page recorded).2
  · exact mem_of_getElem? row

/-- During a forward the rows carry the indices of its requests. -/
theorem InForward.noted_eq (now : InForward ccfg state)
    (blank : state.capturer.allocated = false → state.capturer.prevRowOccupant = none) {reqIds : List ℕ}
    (noted : state.capturer.prevRowOccupant = some reqIds) : reqIds = state.reqIds := by
  cases allocated : state.capturer.allocated with
  | false => exact absurd (noted.symm.trans (blank allocated)) (by simp)
  | true => exact Option.some.inj (noted.symm.trans (now.tracked allocated))

/-- Held pages move only with the records and the rows. -/
theorem Held.congr {after : ResidentServer} (held : after.Held ri page) (capturer : after.capturer = state.capturer)
    (records : after.server.engine.reqOwnedPages = state.server.engine.reqOwnedPages) : state.Held ri page := by
  rwa [Held, records_congr records, capturer] at held

namespace Tracked

theorem init (cfg : Config) (ccfg : CapturerConfig) {prebuilt : Bool}
    (early : cfg.ownerRelease = true → prebuilt = true) : Tracked cfg ccfg (ResidentServer.init prebuilt) where
  books := Server.Books.init cfg
  indices := List.Pairwise.nil
  numbered _ mem := by contradiction
  aligned _ present := by contradiction
  blank _ := ⟨rfl, fun _ => ⟨rfl, rfl⟩⟩
  inBuffer _ _ := rfl
  early := early
  listed _ _ recorded := by contradiction
  within _ _ _ _ := rfl
  distinct := nodup_nil
  cached _ present := by contradiction
  mine _ _ _ _ mem := by contradiction
  exclusive _ _ _ _ mem := by contradiction
  current running := by contradiction

/-- Requests that take pages form nothing on them yet. -/
theorem uses_takePage {req : Request} (layout : req.Layout cfg) (taken : ℕ) :
    ({ req with pages := req.pages ++ [taken] } : Request).Uses page ↔ req.Uses page := by
  refine exists_congr fun number => and_congr_right fun formed => ?_
  rw [Request.loc_takePage taken (Nat.lt_of_lt_of_le formed layout.room)]

section

variable (tracked : Tracked cfg ccfg state)
include tracked

theorem commit {reqPoolIdx promptLen : ℕ} {pages : List ℕ}
    (scheduled : Scheduled cfg ccfg state (.commit reqPoolIdx promptLen pages))
    (fresh : FreshIndex state (.commit reqPoolIdx promptLen pages)) :
    Tracked cfg ccfg (state.step cfg ccfg (.commit reqPoolIdx promptLen pages)) := by
  obtain ⟨idle, unshared, allowed⟩ := scheduled
  have records := commitEngine_reqOwnedPages cfg state.server.engine
    ⟨state.server.nextId, reqPoolIdx, promptLen, pages, promptLen / 4⟩
  have before : ∀ ri page, (state.step cfg ccfg (.commit reqPoolIdx promptLen pages)).Held ri page →
      state.Held ri page := fun ri page held => held.congr rfl records
  refine ⟨⟨tracked.books.commit allowed, ?_, tracked.blank, tracked.inBuffer, tracked.early, ?_,
    tracked.within, tracked.cached, ?_⟩, ?_, ?_, tracked.distinct, ?_,
    fun running => absurd running (by simp [step, idle])⟩
  · exact List.Pairwise.cons (fun req mem => (unshared req mem).symm) tracked.indices
  · exact fun ri page recorded => tracked.listed ri page ((records_congr records).mp recorded)
  · intro ri page held
    refine forall_mem_cons.mpr ⟨fun same => ?_, tracked.mine ri page (before ri page held)⟩
    exact absurd ((before ri page held).carried tracked.toRowsKnown) (same ▸ fresh)
  · exact fun id mem => Nat.lt_succ_of_lt (tracked.numbered id mem)
  · intro reqIds shape bi
    refine forall_mem_cons.mpr ⟨fun row => ?_, tracked.aligned reqIds shape bi⟩
    exact absurd (tracked.numbered _ (mem_of_getElem? row)) (lt_irrefl _)
  · intro ri page held
    refine forall_mem_cons.mpr ⟨fun inBatch => ?_, tracked.exclusive ri page (before ri page held)⟩
    exact absurd (tracked.numbered _ inBatch) (lt_irrefl _)

theorem takePage {id : ℕ} (scheduled : Scheduled cfg ccfg state (.takePage id page)) :
    Tracked cfg ccfg (state.step cfg ccfg (.takePage id page)) := by
  obtain ⟨idle, allowed⟩ := scheduled
  refine ⟨⟨tracked.books.takePage allowed, ?_, tracked.blank, tracked.inBuffer, tracked.early,
    tracked.listed, tracked.within, tracked.cached, ?_⟩, tracked.numbered, ?_, tracked.distinct, ?_,
    fun running => absurd running (by simp [step, idle])⟩
  · refine pairwise_map.mpr (tracked.indices.imp fun different => ?_)
    split_ifs <;> exact different
  · intro ri taken held grown mem
    obtain ⟨req, old, rfl⟩ := mem_map.mp mem
    intro index
    split_ifs at index ⊢
    · exact mem_append_left _ (tracked.mine ri taken held req old index)
    · exact tracked.mine ri taken held req old index
  · intro reqIds shape bi grown mem
    obtain ⟨req, old, rfl⟩ := mem_map.mp mem
    have row := tracked.aligned reqIds shape bi req old
    split_ifs <;> exact row
  · intro ri taken held grown mem
    obtain ⟨req, old, rfl⟩ := mem_map.mp mem
    intro inBatch uses
    split_ifs at inBatch uses ⊢
    · exact tracked.exclusive ri taken held req old inBatch
        ((uses_takePage (tracked.books.layout req old) page).mp uses)
    · exact tracked.exclusive ri taken held req old inBatch uses

theorem finish {id : ℕ} (idle : state.running = false) :
    Tracked cfg ccfg (state.step cfg ccfg (.finish id)) := by
  have kept := fun req (mem : req ∈ state.server.live.filter (·.id ≠ id)) => (mem_filter.mp mem).1
  exact ⟨⟨tracked.books.finish id, tracked.indices.filter _, tracked.blank, tracked.inBuffer,
    tracked.early, tracked.listed, tracked.within, tracked.cached,
    fun ri page held req mem => tracked.mine ri page held req (kept req mem)⟩, tracked.numbered,
    fun reqIds shape bi req mem => tracked.aligned reqIds shape bi req (kept req mem), tracked.distinct,
    fun ri page held req mem => tracked.exclusive ri page held req (kept req mem),
    fun running => absurd running (by simp [step, idle])⟩

end

/-- While the rows carry the indices of live requests, a held page is on the pages of the request with
that index, so that no other request can use it. -/
theorem ofRows (known : RowsKnown cfg ccfg state) (distinct : state.batch.Nodup)
    (alive : ∀ id ∈ state.batch, id ∈ state.server.live.map Request.id)
    (noted : ∀ reqIds, state.capturer.prevRowOccupant = some reqIds → reqIds = state.reqIds)
    (current : state.running = true → InForward ccfg state) : Tracked cfg ccfg state := by
  have books := known.books
  refine ⟨known, ?_, ?_, ?_, ?_, current⟩
  · intro id mem
    obtain ⟨req, present, rfl⟩ := mem_map.mp (alive id mem)
    exact books.numbered req present
  · intro reqIds shape bi req mem row
    rw [← occupants_ids alive, getElem?_map] at row
    obtain ⟨occupant, found, same⟩ := Option.map_eq_some_iff.mp row
    obtain rfl := books.eq_of_id (mem_live_of_occupant (mem_of_getElem? found)) mem same
    rw [noted reqIds shape, reqIds_row found]
  · cases shape : state.capturer.prevRowOccupant with
    | none => simp only [Capturer.noted, shape, Option.getD_none, nodup_nil]
    | some reqIds =>
      rw [Capturer.noted, shape, noted reqIds shape]
      have rows : state.occupants.Nodup := List.Nodup.of_map Request.id (occupants_ids alive ▸ distinct)
      refine rows.map_on fun first mem second mem' same => ?_
      exact eq_of_index known.indices (mem_live_of_occupant mem) (mem_live_of_occupant mem') same
  · intro ri page held req mem _ uses
    have carried := held.carried known
    cases shape : state.capturer.prevRowOccupant with
    | none =>
      rw [Capturer.noted, shape] at carried
      contradiction
    | some reqIds =>
      rw [Capturer.noted, shape, noted reqIds shape] at carried
      obtain ⟨holder, row, index⟩ := mem_map.mp carried
      have present := mem_live_of_occupant row
      have same := books.eq_of_page mem present ((books.layout req mem).uses_mem uses)
        (known.mine ri page held holder present index)
      rw [same, index]

theorem ofForward (known : RowsKnown cfg ccfg state) (now : InForward ccfg state) : Tracked cfg ccfg state :=
  ofRows known now.distinct now.alive (fun _ noted => now.noted_eq (fun missing => (known.blank missing).1) noted)
    fun _ => now

theorem decode (tracked : Tracked cfg ccfg state) {rows : List BatchRow}
    (scheduled : Scheduled cfg ccfg state (.decode rows)) :
    Tracked cfg ccfg (state.step cfg ccfg (.decode rows)) := by
  obtain ⟨running, allowed⟩ := scheduled
  have records := storeDecodeAllLayers_reqOwnedPages cfg state.server.engine (state.server.rows rows)
  refine ofForward ⟨tracked.books.decode allowed, ?_, tracked.blank, tracked.inBuffer, tracked.early, ?_,
    tracked.within, tracked.cached, ?_⟩ ((tracked.current running).decode rows)
  · refine pairwise_map.mpr (tracked.indices.imp fun different => ?_)
    split_ifs <;> exact different
  · exact fun ri page recorded => tracked.listed ri page ((records_congr records).mp recorded)
  · intro ri page held grown mem
    obtain ⟨req, old, rfl⟩ := mem_map.mp mem
    have here := tracked.mine ri page (held.congr rfl records) req old
    split_ifs <;> exact here

/-! ### Before a forward -/

section Begin

variable {reqIds : List ℕ} {engine : Engine Stamp}

/-- What is held after the reset was held before. -/
private theorem held_before_reset (tracked : Tracked cfg ccfg state) (bounded : reqIds.length ≤ ccfg.maxBs)
    {after : ResidentServer} (rowOccupant : after.capturer.prevRowOccupant = some reqIds)
    (rows : ∀ bi, after.capturer.residentPoolLocBuf bi =
      if bi ∈ state.capturer.resetRows ccfg reqIds then [] else state.capturer.residentPoolLocBuf bi)
    (records : ∀ ri page, after.server.engine.Records ri page → state.server.engine.Records ri page)
    (held : after.Held ri page) : state.Held ri page := by
  rcases held with recorded | ⟨bi, row, chunk, shown, onPage⟩
  · exact Or.inl (records ri page recorded)
  · rw [rows bi] at shown
    split_ifs at shown with reset
    · contradiction
    obtain ⟨_, occupants, noted, same⟩ := shown_before tracked.inBuffer bounded shown reset
    refine Or.inr ⟨bi, ?_, chunk, shown, onPage⟩
    rw [Capturer.noted, rowOccupant] at row
    rw [Capturer.noted, noted]
    exact same.trans row

end Begin

theorem forwardBegin (paged : cfg.pageRecall = true) (tracked : Tracked cfg ccfg state) {batch : List ℕ}
    (scheduled : Scheduled cfg ccfg state (.forwardBegin batch)) :
    Tracked cfg ccfg (state.step cfg ccfg (.forwardBegin batch)) := by
  obtain ⟨_, nonempty, bounded, distinct, alive⟩ := scheduled
  let next : ResidentServer := { state with batch := batch, running := true }
  have length : next.reqIds.length = batch.length := reqIds_length alive
  have someRow : next.reqIds ≠ [] := reqIds_ne_nil alive nonempty
  simp only [step]
  rcases onForwardBegin_cases cfg ccfg state.capturer state.server.engine someRow with
    ⟨result, quiet⟩ | ⟨allocated, _, result⟩
  · rw [show state.capturer.onForwardBegin cfg ccfg state.server.engine next.reqIds = _ from result]
    exact ofForward ⟨tracked.books, tracked.indices, tracked.blank, tracked.inBuffer, tracked.early,
      tracked.listed, tracked.within, tracked.cached, tracked.mine⟩ ⟨distinct, alive, bounded, quiet⟩
  · rw [show state.capturer.onForwardBegin cfg ccfg state.server.engine next.reqIds = _ from result]
    obtain ⟨present, occupants, _, _, locs⟩ := resetChangedRows_rows cfg ccfg
      { state.capturer with cachedReqIds := some next.reqIds }
      (state.capturer.releaseVanished cfg state.server.engine next.reqIds) next.reqIds
    have cached := resetChangedRows_cachedReqIds cfg ccfg
      { state.capturer with cachedReqIds := some next.reqIds }
      (state.capturer.releaseVanished cfg state.server.engine next.reqIds) next.reqIds
    have records := resetChangedRows_reqOwnedPages cfg ccfg
      { state.capturer with cachedReqIds := some next.reqIds }
      (state.capturer.releaseVanished cfg state.server.engine next.reqIds) next.reqIds
    generalize { state.capturer with cachedReqIds := some next.reqIds }.resetChangedRows cfg ccfg
      (state.capturer.releaseVanished cfg state.server.engine next.reqIds) next.reqIds = reset
      at present occupants locs cached records
    have fits : next.reqIds.length ≤ ccfg.maxBs := length.le.trans bounded
    have recorded : ∀ ri page, reset.2.Records ri page ↔ _ := fun ri page =>
      (records_congr records).trans (records_releaseVanished paged state.capturer)
    refine ofForward ⟨tracked.books.withEngine _, tracked.indices, ?_, ?_, ?_, ?_, ?_, ?_, ?_⟩
      ⟨distinct, alive, bounded, fun _ => occupants⟩
    · exact fun missing => absurd (present.symm.trans missing) (by simp [allocated])
    · intro bi outside
      rw [locs]
      split_ifs
      · rfl
      · exact tracked.inBuffer bi outside
    · exact fun owner => present.trans (tracked.early owner)
    · intro ri page record
      obtain ⟨kept, old⟩ := (recorded ri page).mp record
      obtain ⟨owner, carried⟩ := tracked.listed ri page old
      refine ⟨owner, ?_⟩
      rw [Capturer.noted, occupants]
      by_contra gone
      exact kept owner (mem_vanished.mpr ⟨carried, gone⟩)
    · intro reqIds same bi beyond
      obtain rfl := Option.some.inj (occupants.symm.trans same)
      rw [locs]
      split_ifs with blanked
      · rfl
      · refine eq_nil_iff_forall_not_mem.mpr fun loc shown => ?_
        have := (shown_before tracked.inBuffer fits shown blanked).1
        omega
    · exact fun reqIds same => cached.trans (occupants.symm.trans same)
    · intro ri page held
      exact tracked.mine ri page (tracked.held_before_reset fits occupants locs
        (fun ri page record => ((recorded ri page).mp record).2) held)

/-! ### After a forward -/

section End

variable {topLogical : ℕ → Option (List ℕ)} {bi : ℕ}

section

variable (sized : ccfg.c4LogicalSize = cfg.mirrorChunks) (books : state.server.Books cfg)
  (now : InForward ccfg state)
include sized books now

/-- A due row records and recalls chunks of its occupant. -/
theorem uses_of_kept {reqIds : List ℕ} (due : bi ∈ state.due ccfg)
    (kept : page ∈ uniquePages (keptOfRow cfg ccfg state.server.engine reqIds (state.forward topLogical) bi)) :
    ∃ req ∈ state.server.live, state.occupants[bi]? = some req ∧ req.Uses page := by
  obtain ⟨req, present, row⟩ := now.occupant_of_row (now.due_lt due)
  obtain ⟨chunk, mem, onPage⟩ := mem_uniquePages.mp kept
  simp only [keptOfRow] at mem
  split at mem
  · contradiction
  obtain ⟨number, formed, _, _, same⟩ :=
    (Forward.mem_keptLocs (forward_serves row topLogical) (books.layout req present) sized).mp mem
  refine ⟨req, present, row, number, formed, ?_⟩
  rw [← Int.ofNat_inj.mp same, onPage]

/-- A row shows what it showed, or chunks of its occupant. -/
private theorem uses_of_nextRow {chunk : ℕ}
    (shown : (chunk : ℤ) ∈ state.capturer.nextRow ccfg (state.forward topLogical) (state.due ccfg) bi) :
    (chunk : ℤ) ∈ state.capturer.residentPoolLocBuf bi ∨
      ∃ req ∈ state.server.live, state.occupants[bi]? = some req ∧ req.Uses (chunk / c4PageSize) := by
  simp only [nextRow] at shown
  split at shown
  · exact Or.inl shown
  · next pages selected =>
    split_ifs at selected with due
    obtain ⟨req, present, row⟩ := now.occupant_of_row (now.due_lt due)
    obtain ⟨number, formed, _, same⟩ :=
      Forward.mem_selectedLocs (forward_serves row topLogical) (books.layout req present) sized shown
    exact Or.inr ⟨req, present, row, number, formed, same ▸ rfl⟩

end

/-- The rows of the buffer are written only where the batch has a request. -/
private theorem nextRow_beyond (now : InForward ccfg state) (beyond : state.batch.length ≤ bi) :
    state.capturer.nextRow ccfg (state.forward topLogical) (state.due ccfg) bi =
      state.capturer.residentPoolLocBuf bi :=
  nextRow_of_not_due fun due => absurd (now.due_lt due) (not_lt.mpr beyond)

theorem forwardEnd (sized : ccfg.c4LogicalSize = cfg.mirrorChunks) (tracked : Tracked cfg ccfg state)
    (running : state.running = true) : Tracked cfg ccfg (state.step cfg ccfg (.forwardEnd topLogical)) := by
  have now := tracked.current running
  have books := tracked.books
  obtain ⟨noted, cached, rows, allocated, counts, records⟩ := onForwardEnd_frame cfg ccfg state.capturer
    state.server.engine state.reqIds (state.forward topLogical)
  simp only [step]
  generalize state.capturer.onForwardEnd cfg ccfg state.server.engine state.reqIds
    (state.forward topLogical) = result at noted cached rows allocated counts records
  -- Once the rows are noted, the due loop works with the indices of the batch.
  have batchIds : ∀ reqIds, state.capturer.prevRowOccupant = some reqIds → reqIds = state.reqIds :=
    fun reqIds shape => now.noted_eq (fun missing => (tracked.blank missing).1) shape
  have resolved : ∀ reqIds, state.capturer.prevRowOccupant = some reqIds →
      state.capturer.resolveIds ccfg state.reqIds = state.reqIds := by
    intro reqIds shape
    rw [resolveIds, tracked.cached reqIds shape, batchIds reqIds shape]
    simp
  have recorded : ∀ ri page, result.2.1.Records ri page → state.server.engine.Records ri page ∨
      cfg.ownerRelease = true ∧ ∃ req ∈ state.server.live, req ∈ state.occupants ∧
        req.reqPoolIdx = ri ∧ req.Uses page := by
    intro ri page record
    rcases records_recordOwners.mp ((records_congr records).mp record) with
      old | ⟨owner, _, bi, due, index, kept⟩
    · exact Or.inl old
    obtain ⟨req, present, row, uses⟩ := uses_of_kept sized books now due kept
    refine Or.inr ⟨owner, req, present, mem_of_getElem? row, ?_, uses⟩
    rw [index, resolved _ (now.tracked (tracked.early owner)), getD_eq_getElem?_getD, reqIds_row row,
      Option.getD_some]
  refine ofRows ⟨books.withEngine _, tracked.indices, ?_, ?_, ?_, ?_, ?_, ?_, ?_⟩ now.distinct now.alive
    (fun reqIds shape => batchIds reqIds (noted.symm.trans shape)) fun running => by contradiction
  · intro missing
    have unpublished := counts missing
    rw [allocated, Bool.or_eq_false_iff, any_eq_false] at missing
    obtain ⟨unnoted, before⟩ := tracked.blank missing.1
    refine ⟨noted.trans unnoted, fun bi => ⟨?_, (congrFun unpublished bi).trans (before bi).2⟩⟩
    rw [rows, nextRow]
    split
    · exact (before bi).1
    · next pages selected =>
      split_ifs at selected with due
      exact absurd (Option.isSome_iff_exists.mpr ⟨pages, selected⟩) (missing.2 bi due)
  · intro bi outside
    rw [rows]
    exact (nextRow_beyond now (now.bounded.trans outside)).trans (tracked.inBuffer bi outside)
  · intro owner
    rw [allocated, tracked.early owner, Bool.true_or]
  · intro ri page record
    rcases recorded ri page record with old | ⟨owner, req, _, row, index, _⟩
    · exact ⟨(tracked.listed ri page old).1, by rw [Capturer.noted, noted]; exact (tracked.listed ri page old).2⟩
    · refine ⟨owner, ?_⟩
      rw [Capturer.noted, noted, now.tracked (tracked.early owner)]
      exact mem_map.mpr ⟨req, row, index⟩
  · intro reqIds shape bi beyond
    have before := noted.symm.trans shape
    rw [rows]
    refine (nextRow_beyond now ?_).trans (tracked.within reqIds before bi beyond)
    rwa [batchIds reqIds before, reqIds_length now.alive] at beyond
  · intro reqIds shape
    have before := noted.symm.trans shape
    rw [cached, resolved reqIds before, batchIds reqIds before]
  · rintro ri page held req mem index
    rcases held with record | ⟨bi, row, chunk, shown, rfl⟩
    · rcases recorded ri page record with old | ⟨_, other, present, _, sameIndex, uses⟩
      · exact tracked.mine ri page (Or.inl old) req mem index
      · obtain rfl := eq_of_index tracked.indices mem present (index.trans sameIndex.symm)
        exact (books.layout req mem).uses_mem uses
    · simp only [Capturer.noted] at row
      rw [noted] at row
      rw [rows] at shown
      rcases uses_of_nextRow sized books now shown with old | ⟨other, present, occupant, uses⟩
      · exact tracked.mine ri _ (Or.inr ⟨bi, row, chunk, old, rfl⟩) req mem index
      · cases shape : state.capturer.prevRowOccupant with
        | none => simp [shape] at row
        | some reqIds =>
          rw [shape, Option.getD_some, batchIds reqIds shape, reqIds_row occupant] at row
          obtain rfl := eq_of_index tracked.indices mem present (index.trans (Option.some.inj row).symm)
          exact (books.layout req mem).uses_mem uses

end End

theorem step (paged : cfg.pageRecall = true) (sized : ccfg.c4LogicalSize = cfg.mirrorChunks)
    (tracked : Tracked cfg ccfg state) {op : ResidentOp} (scheduled : Scheduled cfg ccfg state op)
    (fresh : FreshIndex state op) : Tracked cfg ccfg (state.step cfg ccfg op) := by
  cases op with
  | commit reqPoolIdx promptLen pages => exact tracked.commit scheduled fresh
  | takePage id page => exact tracked.takePage scheduled
  | finish id => exact tracked.finish scheduled
  | forwardBegin batch => exact tracked.forwardBegin paged scheduled
  | decode rows => exact tracked.decode scheduled
  | forwardEnd topLogical => exact tracked.forwardEnd sized scheduled

end Tracked

end ResidentServer

end FlashMemory
