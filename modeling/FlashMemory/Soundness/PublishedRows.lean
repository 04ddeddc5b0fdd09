import FlashMemory.Soundness.CapturerSteps

/-! # What the rows of a decode batch publish

A row of the capturer's buffers holds locations on pages of the request that occupied it when it was
last written. Requests come and go between forwards, so a row may outlive its request; it is blanked
when the next forward begins. The invariant ties rows to requests through the pool indices that the
capturer remembers: while the request with that index is live, the locations are on its pages and
mapped, and no two rows publish a page in common. `Spared` collects what a step must not do for that.
-/

namespace FlashMemory

open List Engine Capturer

namespace ResidentServer

variable {cfg : Config} {ccfg : CapturerConfig} {state : ResidentServer}

/-- What the scheduler guarantees: requests come and go between forwards, a batch holds different live
requests, pool indices are not shared, and the recall region has `K_max` blocks per live request. -/
def Admissible (cfg : Config) (ccfg : CapturerConfig) (state : ResidentServer) : ResidentOp → Prop
  | .commit reqPoolIdx promptLen pages => state.running = false ∧
      (∀ req ∈ state.server.live, req.reqPoolIdx ≠ reqPoolIdx) ∧
      state.server.Admissible cfg (.commit reqPoolIdx promptLen pages)
  | .takePage id page => state.running = false ∧ state.server.Admissible cfg (.takePage id page)
  | .finish _ => state.running = false
  | .forwardBegin batch => state.running = false ∧ batch ≠ [] ∧ batch.length ≤ ccfg.maxBs ∧
      batch.Nodup ∧ ∀ id ∈ batch, id ∈ state.server.live.map Request.id
  | .decode rows => state.running = true ∧ state.server.Admissible cfg (.decode rows)
  | .forwardEnd topLogical => state.running = true ∧
      (∀ bi < state.batch.length, ∀ pages ∈ topLogical bi, pages.length ≤ ccfg.pageKmax) ∧
      ccfg.pageKmax * state.server.live.length ≤ cfg.maxBlocks

/-- The rows that the next `on_forward_end` finds due. -/
def due (ccfg : CapturerConfig) (state : ResidentServer) : List ℕ :=
  (state.capturer.dueRows ccfg state.reqIds).2

/-- The recorded prompt length that limits the recall of a row. -/
def limit (cfg : Config) (ccfg : CapturerConfig) (state : ResidentServer) (bi : ℕ) : ℤ :=
  Capturer.prefillLimit cfg state.server.engine
    ((state.capturer.resolveIds ccfg state.reqIds).getD bi 0)

/-- What the next side-band recalls. -/
def union (cfg : Config) (ccfg : CapturerConfig) (state : ResidentServer)
    (topLogical : ℕ → Option (List ℕ)) : List ℤ :=
  Capturer.unionLocs cfg ccfg state.server.engine (state.capturer.resolveIds ccfg state.reqIds)
    (state.forward topLogical) (state.due ccfg)

/-- The recall asks for the chunk's page, whose first chunk is not in the decode region. -/
def Asked (cfg : Config) (ccfg : CapturerConfig) (state : ResidentServer) (bi : ℕ) (req : Request)
    (number : ℕ) : Prop :=
  let first := number / c4PageSize * c4PageSize
  (state.limit cfg ccfg bi < 0 ∨ (first : ℤ) < state.limit cfg ccfg bi) ∧
    state.server.engine.chunkCellLut 0 (req.loc first) < cfg.decodeBase

instance decidableAsked (cfg : Config) (ccfg : CapturerConfig) (state : ResidentServer) (bi : ℕ)
    (req : Request) (number : ℕ) : Decidable (state.Asked cfg ccfg bi req number) :=
  inferInstanceAs (Decidable (_ ∧ _))

/-- Owner release drops no page that a surviving row publishes. -/
def OwnerSpared (cfg : Config) (ccfg : CapturerConfig) (state : ResidentServer) (reqIds : List ℕ) : Prop :=
  ∀ ri ∈ state.capturer.vanished cfg reqIds,
    ∀ page ∈ (state.server.engine.reqOwnedPages.get? (ri : ℤ)).getD [],
    ∀ bi < reqIds.length, bi ∉ state.capturer.resetRows ccfg reqIds →
    ∀ loc ∈ state.capturer.residentPoolLocBuf bi, loc / (c4PageSize : ℤ) ≠ page

instance decidableOwnerSpared (cfg : Config) (ccfg : CapturerConfig) (state : ResidentServer) (reqIds : List ℕ) :
    Decidable (state.OwnerSpared cfg ccfg reqIds) := by
  delta OwnerSpared
  infer_instance

/-- The step leaves no published location unmapped. -/
def Spared (cfg : Config) (ccfg : CapturerConfig) (state : ResidentServer) : ResidentOp → Prop
  | .commit reqPoolIdx _ _ =>
    -- The index is not the one that some row still carries.
    reqPoolIdx ∉ state.capturer.prevRowOccupant.getD []
  | .forwardBegin batch =>
    cfg.ownerRelease = true → state.OwnerSpared cfg ccfg { state with batch := batch }.reqIds
  | .forwardEnd topLogical =>
    let engine := state.server.engine
    let pages := uniquePages (state.union cfg ccfg topLogical)
    let misses := engine.pageMisses cfg pages
    -- A missed page is copied.
    (∀ page ∈ misses, cfg.lutTruth = true ∨ page ∉ engine.gPages.slots.keys) ∧
    -- No page that a row publishes is evicted.
    (∀ bi < state.batch.length,
      ∀ loc ∈ state.capturer.nextRow ccfg (state.forward topLogical) (state.due ccfg) bi,
      ∀ page ∈ engine.gPages.victims cfg.maxBlocks pages misses, loc / (c4PageSize : ℤ) ≠ page) ∧
    -- A selected chunk that the recall does not ask for is mapped.
    (∀ bi ∈ state.due ccfg, ∀ pages ∈ (state.forward topLogical).chosen bi,
      ∀ req ∈ state.occupants[bi]?, ∀ number < req.formed, number / c4PageSize ∈ pages →
      state.Asked cfg ccfg bi req number ∨ 0 ≤ engine.chunkCellLut 0 (req.loc number))
  | .takePage _ _ | .finish _ | .decode _ => True

instance decidableAdmissible (cfg : Config) (ccfg : CapturerConfig) (state : ResidentServer) (op : ResidentOp) :
    Decidable (Admissible cfg ccfg state op) := by
  cases op <;> dsimp only [Admissible] <;> infer_instance

instance decidableSpared (cfg : Config) (ccfg : CapturerConfig) (state : ResidentServer) (op : ResidentOp) :
    Decidable (Spared cfg ccfg state op) := by
  cases op <;> dsimp only [Spared] <;> infer_instance

/-! ## The rows and their requests -/

theorem mem_live_of_occupant {req : Request} (mem : req ∈ state.occupants) :
    req ∈ state.server.live := by
  obtain ⟨id, _, found⟩ := mem_filterMap.mp mem
  exact mem_of_find?_eq_some found

/-- The indices of a batch are those of its live requests. -/
theorem mem_reqIds (books : state.server.Books cfg) (batch : List ℕ) {ri : ℕ} :
    ri ∈ ({ state with batch := batch } : ResidentServer).reqIds ↔
      ∃ req ∈ state.server.live, req.id ∈ batch ∧ req.reqPoolIdx = ri := by
  simp only [reqIds, occupants, mem_map, mem_filterMap]
  constructor
  · rintro ⟨req, ⟨id, inBatch, found⟩, index⟩
    have sameId : req.id = id := by simpa using find?_some found
    exact ⟨req, mem_of_find?_eq_some found, sameId ▸ inBatch, index⟩
  · rintro ⟨req, mem, inBatch, index⟩
    refine ⟨req, ⟨req.id, inBatch, ?_⟩, index⟩
    have present : (state.server.live.find? (·.id = req.id)).isSome :=
      find?_isSome.mpr ⟨req, mem, decide_eq_true rfl⟩
    obtain ⟨found, shape⟩ := Option.isSome_iff_exists.mp present
    have sameId : found.id = req.id := by simpa using find?_some shape
    rw [shape, books.eq_of_id (mem_of_find?_eq_some shape) mem sameId]

section

variable (alive : ∀ id ∈ state.batch, id ∈ state.server.live.map Request.id)

include alive

/-- A batch of live requests has an occupant in every row. -/
theorem occupants_ids : state.occupants.map Request.id = state.batch := by
  unfold occupants
  generalize state.batch = batch at alive ⊢
  induction batch with
  | nil => rfl
  | cons id rest ih =>
    obtain ⟨req, mem, same⟩ := mem_map.mp (alive id (mem_cons_self ..))
    have present : (state.server.live.find? (·.id = id)).isSome :=
      find?_isSome.mpr ⟨req, mem, decide_eq_true same⟩
    obtain ⟨found, shape⟩ := Option.isSome_iff_exists.mp present
    have sameId : found.id = id := by simpa using find?_some shape
    simp only [filterMap_cons, shape, map_cons, sameId,
      ih (forall_mem_cons.mp alive).2]

theorem occupants_length : state.occupants.length = state.batch.length := by
  rw [← length_map Request.id, occupants_ids alive]

theorem reqIds_length : state.reqIds.length = state.batch.length := by
  rw [reqIds, length_map, occupants_length alive]

theorem reqIds_ne_nil (nonempty : state.batch ≠ []) : state.reqIds ≠ [] := by
  intro empty
  have length := reqIds_length alive
  rw [empty] at length
  exact nonempty (length_eq_zero_iff.mp length.symm)

end

/-- Changing requests in place keeps them in their rows. -/
private theorem occupants_map (change : Request → Request) (sameId : ∀ req, (change req).id = req.id)
    (server : Server) (live : server.live = state.server.live.map change) :
    { state with server := server }.occupants = state.occupants.map change := by
  simp only [occupants, live, find?_map, map_filterMap]
  congr 1
  funext id
  simp only [Function.comp_def, sameId]

/-- Two live requests have different indices. -/
theorem eq_of_index {req other : Request} (indices : state.server.live.Pairwise (·.reqPoolIdx ≠ ·.reqPoolIdx))
    (mem : req ∈ state.server.live) (mem' : other ∈ state.server.live)
    (same : req.reqPoolIdx = other.reqPoolIdx) : req = other := by
  have symmetric : Std.Symm fun first second : Request => first.reqPoolIdx ≠ second.reqPoolIdx :=
    ⟨fun _ _ => Ne.symm⟩
  by_contra different
  exact indices.forall mem mem' different same

/-! ## The invariant -/

/-- The published locations of a row that still holds its request are mapped and on its pages, and
rows publish different pages. -/
structure Published (engine : Engine Stamp) (live : List Request) (rows : ℕ → List ℤ)
    (reqIds : List ℕ) : Prop where
  mapped : ∀ bi ri, reqIds[bi]? = some ri → ∀ req ∈ live, req.reqPoolIdx = ri →
    ∀ chunk : ℕ, (chunk : ℤ) ∈ rows bi →
      chunk / c4PageSize ∈ req.pages ∧ 0 ≤ engine.chunkCellLut 0 chunk
  apart : ∀ bi bj, bi ≠ bj → ∀ chunk other : ℕ, (chunk : ℤ) ∈ rows bi → (other : ℤ) ∈ rows bj →
    chunk / c4PageSize ≠ other / c4PageSize
  within : ∀ bi, reqIds.length ≤ bi → rows bi = []

/-- Between the two hooks of a forward. -/
structure InForward (ccfg : CapturerConfig) (state : ResidentServer) : Prop where
  distinct : state.batch.Nodup
  alive : ∀ id ∈ state.batch, id ∈ state.server.live.map Request.id
  bounded : state.batch.length ≤ ccfg.maxBs
  tracked : state.capturer.allocated = true → state.capturer.prevRowOccupant = some state.reqIds

/-- A decode step leaves the requests in their rows. -/
theorem InForward.decode (now : InForward ccfg state) (rows : List BatchRow) :
    InForward ccfg (state.step cfg ccfg (.decode rows)) := by
  have rowsKept := state.occupants_map
    (fun req => if .forms req.id ∈ rows then { req with formed := req.formed + 1 } else req)
    (fun req => by split_ifs <;> rfl) (state.server.step cfg (.decode rows)) rfl
  refine ⟨now.distinct, fun id mem => ?_, now.bounded, fun allocated => (now.tracked allocated).trans ?_⟩
  · obtain ⟨req, old, rfl⟩ := mem_map.mp (now.alive id mem)
    refine mem_map.mpr ⟨_, mem_map_of_mem old, ?_⟩
    split_ifs <;> rfl
  · simp only [reqIds, step, rowsKept, map_map]
    congr 2
    funext req
    simp only [Function.comp_apply]
    split_ifs <;> rfl

structure Inv (cfg : Config) (ccfg : CapturerConfig) (state : ResidentServer) : Prop where
  settled : state.server.engine.PagesSettled cfg
  books : state.server.Books cfg
  indices : state.server.live.Pairwise (·.reqPoolIdx ≠ ·.reqPoolIdx)
  staged : ∀ bi, state.capturer.pendingCount bi = none
  counted : ∀ bi, state.capturer.residentCountBuf bi = (state.capturer.residentPoolLocBuf bi).length
  blank : state.capturer.allocated = false →
    state.capturer.prevRowOccupant = none ∧ ∀ bi, state.capturer.residentPoolLocBuf bi = []
  inBuffer : ∀ bi, ccfg.maxBs ≤ bi → state.capturer.residentPoolLocBuf bi = []
  published : ∀ reqIds, state.capturer.prevRowOccupant = some reqIds →
    Published state.server.engine state.server.live state.capturer.residentPoolLocBuf reqIds
  current : state.running = true → InForward ccfg state

/-- A step that keeps the chunks of live requests mapped, and lets requests only grow or end. -/
theorem Published.frame {engine after : Engine Stamp} {live live' : List Request} {rows : ℕ → List ℤ}
    {reqIds : List ℕ} (published : Published engine live rows reqIds)
    (grown : ∀ req' ∈ live', req'.reqPoolIdx ∈ reqIds →
      ∃ req ∈ live, req.reqPoolIdx = req'.reqPoolIdx ∧ req.pages ⊆ req'.pages)
    (kept : ∀ req ∈ live, ∀ chunk, chunk / c4PageSize ∈ req.pages →
      0 ≤ engine.chunkCellLut 0 chunk → 0 ≤ after.chunkCellLut 0 chunk) :
    Published after live' rows reqIds := by
  refine ⟨fun bi ri row req' mem same chunk shown => ?_, published.apart, published.within⟩
  obtain ⟨req, present, index, pages⟩ := grown req' mem (same ▸ mem_of_getElem? row)
  obtain ⟨mine, mapped⟩ := published.mapped bi ri row req present (index.trans same) chunk shown
  exact ⟨pages mine, kept req present chunk mine mapped⟩

namespace Inv

variable {req other : Request}

theorem init (cfg : Config) (ccfg : CapturerConfig) (prebuilt : Bool) :
    Inv cfg ccfg (ResidentServer.init prebuilt) where
  settled := ⟨SlotPool.fresh_wellFormed _, WholePages.init cfg _ Stamp.blank none⟩
  books := Server.Books.init cfg
  indices := List.Pairwise.nil
  staged _ := rfl
  counted _ := rfl
  blank _ := ⟨rfl, fun _ => rfl⟩
  inBuffer _ _ := rfl
  published _ present := by contradiction
  current running := by contradiction

/-- Calls of the engine that spare the pages of live requests. -/
theorem kept_of_spares {after : Engine Stamp} (inv : Inv cfg ccfg state)
    (spares : Spares cfg (fun page => ∃ req ∈ state.server.live, page ∈ req.pages)
      state.server.engine after) (mem : req ∈ state.server.live) (chunk : ℕ)
    (mine : chunk / c4PageSize ∈ req.pages) :
    0 ≤ state.server.engine.chunkCellLut 0 chunk → 0 ≤ after.chunkCellLut 0 chunk := by
  have bound := (inv.books.layout req mem).inMirror _ mine
  exact spares.mapped chunk (chunk_lt_of_page bound rfl) ⟨req, mem, mine⟩

/-! ### Between forwards -/

theorem commit (inv : Inv cfg ccfg state) {reqPoolIdx promptLen : ℕ} {pages : List ℕ}
    (admissible : Admissible cfg ccfg state (.commit reqPoolIdx promptLen pages))
    (spared : Spared cfg ccfg state (.commit reqPoolIdx promptLen pages)) :
    Inv cfg ccfg (state.step cfg ccfg (.commit reqPoolIdx promptLen pages)) := by
  obtain ⟨idle, unshared, allowed⟩ := admissible
  have spares : Spares cfg (fun page => ∃ req ∈ state.server.live, page ∈ req.pages)
      state.server.engine (state.server.step cfg (.commit reqPoolIdx promptLen pages)).engine :=
    (Untouched.commit fun page new ⟨req, mem, mine⟩ => (allowed.2.2 page new).2 req mem mine).spares
  refine ⟨spares.settled inv.settled, inv.books.commit allowed, ?_, inv.staged, inv.counted, inv.blank,
    inv.inBuffer, fun reqIds present => ?_, fun running => ?_⟩
  · exact List.Pairwise.cons (fun req mem => (unshared req mem).symm) inv.indices
  · refine (inv.published reqIds present).frame ?_ fun req mem => inv.kept_of_spares spares mem
    refine forall_mem_cons.mpr ⟨fun carried => ?_, fun req mem _ => ⟨req, mem, rfl, List.Subset.refl _⟩⟩
    refine absurd carried fun carried => spared ?_
    rw [show state.capturer.prevRowOccupant = some reqIds from present]
    exact carried
  · exact absurd running (by simp [step, idle])

theorem takePage (inv : Inv cfg ccfg state) {id page : ℕ}
    (admissible : Admissible cfg ccfg state (.takePage id page)) :
    Inv cfg ccfg (state.step cfg ccfg (.takePage id page)) := by
  obtain ⟨idle, allowed⟩ := admissible
  refine ⟨inv.settled, inv.books.takePage allowed, ?_, inv.staged, inv.counted, inv.blank,
    inv.inBuffer, fun reqIds present => ?_, fun running => ?_⟩
  · refine pairwise_map.mpr (inv.indices.imp fun different => ?_)
    split_ifs <;> exact different
  · refine (inv.published reqIds present).frame (fun grown mem _ => ?_) fun _ _ _ _ mapped => mapped
    obtain ⟨req, old, rfl⟩ := mem_map.mp mem
    refine ⟨req, old, ?_⟩
    split_ifs
    · exact ⟨rfl, subset_append_left ..⟩
    · exact ⟨rfl, List.Subset.refl _⟩
  · exact absurd running (by simp [step, idle])

theorem finish (inv : Inv cfg ccfg state) {id : ℕ} (idle : state.running = false) :
    Inv cfg ccfg (state.step cfg ccfg (.finish id)) := by
  refine ⟨inv.settled, inv.books.finish id, inv.indices.filter _, inv.staged, inv.counted, inv.blank,
    inv.inBuffer, fun reqIds present => ?_, fun running => ?_⟩
  · refine (inv.published reqIds present).frame (fun req mem _ => ?_) fun _ _ _ _ mapped => mapped
    exact ⟨req, (mem_filter.mp mem).1, rfl, List.Subset.refl _⟩
  · exact absurd running (by simp [step, idle])

theorem decode (own : cfg.ownReserve = true) (inv : Inv cfg ccfg state) {rows : List BatchRow}
    (allowed : state.server.Admissible cfg (.decode rows)) :
    Inv cfg ccfg (state.step cfg ccfg (.decode rows)) := by
  have spares : Spares cfg (fun page => ∃ req ∈ state.server.live, page ∈ req.pages)
      state.server.engine (state.server.step cfg (.decode rows)).engine := .storeDecode own _
  refine ⟨spares.settled inv.settled, inv.books.decode allowed, ?_, inv.staged, inv.counted, inv.blank,
    inv.inBuffer, fun reqIds present => ?_, fun running => ?_⟩
  · refine pairwise_map.mpr (inv.indices.imp fun different => ?_)
    split_ifs <;> exact different
  · refine (inv.published reqIds present).frame (fun grown mem _ => ?_)
      fun req mem => inv.kept_of_spares spares mem
    obtain ⟨req, old, rfl⟩ := mem_map.mp mem
    refine ⟨req, old, ?_⟩
    split_ifs <;> exact ⟨rfl, List.Subset.refl _⟩
  · exact (inv.current running).decode rows

/-! ### Before a forward -/

section Begin

/-- The pages that rows publish and the reset keeps. -/
def KeptPage (ccfg : CapturerConfig) (capturer : Capturer) (reqIds : List ℕ) (page : ℕ) : Prop :=
  ∃ bi, bi ∉ capturer.resetRows ccfg reqIds ∧
    ∃ chunk : ℕ, (chunk : ℤ) ∈ capturer.residentPoolLocBuf bi ∧ chunk / c4PageSize = page

variable {reqIds : List ℕ} (inv : Inv cfg ccfg state) (bounded : reqIds.length ≤ ccfg.maxBs)

include inv bounded

/-- Rows publish different pages, so no blanked row publishes a kept page. -/
private theorem not_keptPage_of_reset {bi : ℕ} (reset : bi ∈ state.capturer.resetRows ccfg reqIds) {chunk : ℕ}
    (shown : (chunk : ℤ) ∈ state.capturer.residentPoolLocBuf bi) :
    ¬ KeptPage ccfg state.capturer reqIds (chunk / c4PageSize) := by
  rintro ⟨bj, kept, other, shown', same⟩
  obtain ⟨_, occupants, tracked, _⟩ := shown_before inv.inBuffer bounded shown' kept
  have different : bi ≠ bj := fun equal => kept (equal ▸ reset)
  exact (inv.published occupants tracked).apart bi bj different chunk other shown shown' same.symm

private theorem not_keptPage_of_recorded (disjoint : state.OwnerSpared cfg ccfg reqIds) {ri : ℕ}
    (gone : ri ∈ state.capturer.vanished cfg reqIds) {page : ℕ}
    (recorded : page ∈ (state.server.engine.reqOwnedPages.get? (ri : ℤ)).getD []) :
    ¬ KeptPage ccfg state.capturer reqIds page := by
  rintro ⟨bi, kept, chunk, shown, same⟩
  obtain ⟨inBatch, _⟩ := shown_before inv.inBuffer bounded shown kept
  refine disjoint ri gone page recorded bi inBatch kept chunk shown ?_
  rw [← same]
  simp only [c4PageSize]
  omega

theorem reset_untouched (paged : cfg.pageRecall = true) (engine : Engine Stamp) :
    Untouched cfg (KeptPage ccfg state.capturer reqIds) engine
      ({ state.capturer with cachedReqIds := some reqIds }.resetChangedRows cfg ccfg engine reqIds).2 :=
  resetChangedRows_untouched paged fun _ reset _ shown => inv.not_keptPage_of_reset bounded reset shown

theorem vanished_untouched (disjoint : state.OwnerSpared cfg ccfg reqIds) :
    Untouched cfg (KeptPage ccfg state.capturer reqIds) state.server.engine
      ((state.capturer.vanished cfg reqIds).foldl
        (fun engine (ri : ℕ) => (engine.releaseOwnedPages cfg ri).1) state.server.engine) :=
  foldl_releaseOwned_untouched fun _ gone _ recorded => inv.not_keptPage_of_recorded bounded disjoint gone recorded

/-- After the reset the surviving rows publish for the requests of the new batch. -/
private theorem reset_published {engine : Engine Stamp} {rows : ℕ → List ℤ}
    (spares : Spares cfg (KeptPage ccfg state.capturer reqIds) state.server.engine engine)
    (blanked : ∀ bi, rows bi = if bi ∈ state.capturer.resetRows ccfg reqIds then []
      else state.capturer.residentPoolLocBuf bi) : Published engine state.server.live rows reqIds := by
  have before : ∀ bi, ∀ loc ∈ rows bi, loc ∈ state.capturer.residentPoolLocBuf bi ∧
      bi ∉ state.capturer.resetRows ccfg reqIds := by
    intro bi loc shown
    rw [blanked bi] at shown
    split_ifs at shown with reset
    · contradiction
    · exact ⟨shown, reset⟩
  constructor
  · intro bi ri row req mem index chunk shown
    obtain ⟨old, kept⟩ := before bi chunk shown
    obtain ⟨_, occupants, tracked, same⟩ := shown_before inv.inBuffer bounded old kept
    obtain ⟨mine, mapped⟩ :=
      (inv.published occupants tracked).mapped bi ri (same.trans row) req mem index chunk old
    have bound := (inv.books.layout req mem).inMirror _ mine
    exact ⟨mine, spares.mapped chunk (chunk_lt_of_page bound rfl) ⟨bi, kept, chunk, old, rfl⟩ mapped⟩
  · intro bi bj different chunk other shown shown'
    obtain ⟨old, kept⟩ := before bi chunk shown
    obtain ⟨_, occupants, tracked, _⟩ := shown_before inv.inBuffer bounded old kept
    exact (inv.published occupants tracked).apart bi bj different chunk other old (before bj other shown').1
  · intro bi beyond
    refine eq_nil_iff_forall_not_mem.mpr fun loc shown => ?_
    obtain ⟨old, kept⟩ := before bi loc shown
    have := (shown_before inv.inBuffer bounded old kept).1
    omega

/-- The reset path of `on_forward_begin`, on an engine that owner release may have changed. -/
theorem reset (paged : cfg.pageRecall = true) (allocated : state.capturer.allocated = true) {engine : Engine Stamp}
    (untouched : Untouched cfg (KeptPage ccfg state.capturer reqIds) state.server.engine engine) {batch : List ℕ}
    (distinct : batch.Nodup) (alive : ∀ id ∈ batch, id ∈ state.server.live.map Request.id)
    (fits : batch.length ≤ ccfg.maxBs) (rows : ({ state with batch := batch } : ResidentServer).reqIds = reqIds) :
    let result := { state.capturer with cachedReqIds := some reqIds }.resetChangedRows cfg ccfg engine reqIds
    Inv cfg ccfg ⟨{ state.server with engine := result.2 }, result.1, batch, true⟩ := by
  intro result
  have all := (untouched.trans (inv.reset_untouched bounded paged engine)).spares
  obtain ⟨present, occupants, staged, counts, locs⟩ := resetChangedRows_rows cfg ccfg
    { state.capturer with cachedReqIds := some reqIds } engine reqIds
  constructor
  · exact all.settled inv.settled
  · exact inv.books.withEngine _
  · exact inv.indices
  · exact fun bi => staged bi (inv.staged bi)
  · intro bi
    rw [counts, locs]
    split_ifs
    · rfl
    · exact inv.counted bi
  · intro missing
    exact absurd (present.symm.trans missing) (by simp [allocated])
  · intro bi outside
    rw [locs]
    split_ifs
    · rfl
    · exact inv.inBuffer bi outside
  · intro tracked same
    obtain rfl := Option.some.inj (occupants.symm.trans same)
    exact inv.reset_published bounded all locs
  · exact fun _ => ⟨distinct, alive, fits, fun _ => occupants.trans (congrArg some rows.symm)⟩

end Begin

theorem forwardBegin (paged : cfg.pageRecall = true) (inv : Inv cfg ccfg state) {batch : List ℕ}
    (admissible : Admissible cfg ccfg state (.forwardBegin batch))
    (spared : Spared cfg ccfg state (.forwardBegin batch)) :
    Inv cfg ccfg (state.step cfg ccfg (.forwardBegin batch)) := by
  obtain ⟨_, nonempty, bounded, distinct, alive⟩ := admissible
  have length : ({ state with batch := batch } : ResidentServer).reqIds.length = batch.length :=
    reqIds_length alive
  have fits := length.le.trans bounded
  simp only [step, onForwardBegin]
  split_ifs with quiet owner
  · refine ⟨inv.settled, inv.books.withEngine _, inv.indices, inv.staged, inv.counted, inv.blank,
      inv.inBuffer, inv.published, fun _ => ⟨distinct, alive, bounded, fun allocated => ?_⟩⟩
    have someRow : ({ state with batch := batch } : ResidentServer).reqIds ≠ [] := reqIds_ne_nil alive nonempty
    simp only [Bool.or_eq_true, Bool.not_eq_true', List.isEmpty_iff, decide_eq_true_eq] at quiet
    exact (quiet.resolve_left fun early => early.elim (fun off => by simp [off] at allocated) someRow)
  · have allocated : state.capturer.allocated = true := by simp_all
    exact inv.reset fits paged allocated (inv.vanished_untouched fits (spared owner)) distinct alive bounded rfl
  · have allocated : state.capturer.allocated = true := by simp_all
    exact inv.reset fits paged allocated (.refl ..) distinct alive bounded rfl

end Inv

end ResidentServer

end FlashMemory
