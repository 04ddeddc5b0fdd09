import FlashMemory.Soundness.Requests
import FlashMemory.Collections.Run

/-! # Isolation of the requests of a decode server

The table is keyed by physical locations, and pages move from one request to the next. A page that
becomes a prompt page is discarded at admission. A page taken later still carries the entries of its
earlier owner, and only the decode store of each chunk replaces them. A chunk whose store is funneled
to the sink leaves the old entry in place, and the request then reads its predecessor's bytes. The
mirror can leak too: a missed page is copied whole, and the mirror holds no decode chunk of the
current owner.

A run in which no step leaks is one where a funneled chunk has no entry, decode stores keep to cells
that no other live decode chunk uses, and a recall copies no page with a live decode chunk outside
the decode region. In such a run every chunk that a live request formed is either unmapped or mapped
to bytes produced for it.
-/

namespace FlashMemory

open List Engine

/-! ## The property -/

namespace Server

variable {cfg : Config} {server : Server}

/-- Every chunk formed by a live request is unmapped, or mapped to bytes produced for it. -/
def Isolated (cfg : Config) (server : Server) : Prop :=
  ∀ req ∈ server.live, ∀ layer < cfg.c4LayerNum, ∀ number < req.formed,
    let found := server.engine.remapCompressedLoc cfg layer (req.loc number)
    found = -1 ∨ ∃ cell : ℕ, found = cell ∧
      server.engine.reserveBuf layer cell = .written req.id layer (req.loc number)

/-- The row is stored at a cell of its own, not funneled to the sink. -/
def Placed (cfg : Config) (server : Server) (row : DecodeRow (ℕ → Stamp)) : Prop :=
  server.engine.DecodeValid cfg (Engine.atLayer row 0)

instance decidablePlaced (cfg : Config) (server : Server) (row : DecodeRow (ℕ → Stamp)) :
    Decidable (server.Placed cfg row) :=
  inferInstanceAs (Decidable (server.engine.DecodeValid cfg _))

/-- The rows share at most the sink. -/
def NoClash (cfg : Config) (server : Server) (first second : DecodeRow (ℕ → Stamp)) : Prop :=
  server.engine.stepCell cfg first = server.engine.stepCell cfg second →
    ¬ server.Placed cfg first ∧ ¬ server.Placed cfg second

instance noClash_symm (cfg : Config) (server : Server) : Std.Symm (server.NoClash cfg) :=
  ⟨fun _ _ clear same => (clear same.symm).symm⟩

instance decidableNoClash (cfg : Config) (server : Server) : DecidableRel (server.NoClash cfg) :=
  fun _ _ => inferInstanceAs (Decidable (_ → _))

/-- The step cannot expose an earlier owner's bytes or mix two chunks. -/
def LeakFree (cfg : Config) (server : Server) : ServerOp → Prop
  | .decode batch =>
    -- A funneled chunk has no old entry.
    (∀ req ∈ server.live, .forms req.id ∈ batch → ¬ server.Placed cfg req.nextRow →
      server.engine.chunkCellLut 0 (req.loc req.formed) = -1) ∧
    -- No row is stored over a live decode chunk, nor over another row that is placed.
    (∀ row ∈ server.rows batch, ∀ req ∈ server.live, ∀ number < req.formed, req.prefillChunks ≤ number →
      server.engine.chunkCellLut 0 (req.loc number) ≠ server.engine.stepCell cfg row) ∧
    (server.rows batch).Pairwise (server.NoClash cfg)
  | .recallResident kept =>
    -- A page that is copied has its live decode chunks in the decode region.
    ∀ req ∈ server.live, ∀ number < req.formed, req.prefillChunks ≤ number →
      req.loc number / c4PageSize ∈ server.engine.pageMisses cfg (uniquePages kept) →
      cfg.lutTruth = true ∨ req.loc number / c4PageSize ∉ server.engine.gPages.slots.keys →
      cfg.decodeBase ≤ server.engine.chunkCellLut 0 (req.loc number)
  | .commit _ _ _ | .takePage _ _ | .release _ | .finish _ => True

instance decidableLeakFree (cfg : Config) (server : Server) : ∀ op, Decidable (LeakFree cfg server op) := by
  rintro (_ | _) <;> dsimp only [LeakFree] <;> infer_instance

/-! ## The invariant of a live request -/

structure RequestInv (cfg : Config) (engine : Engine Stamp) (req : Request) : Prop where
  /-- Prompt chunks are in the recall region at most, and the mirror holds their bytes. -/
  recalled : ∀ number < req.prefillChunks, engine.chunkCellLut 0 (req.loc number) < cfg.decodeBase ∧
    ∀ layer, engine.hostMirror layer (req.loc number) = .written req.id layer (req.loc number)
  /-- Decode chunks are unmapped, or in the decode region with their own bytes. -/
  decoded : ∀ number < req.formed, req.prefillChunks ≤ number →
    engine.chunkCellLut 0 (req.loc number) = -1 ∨
    cfg.decodeBase ≤ engine.chunkCellLut 0 (req.loc number) ∧ ∀ layer < cfg.c4LayerNum,
      engine.reserveBuf layer (engine.chunkCellLut 0 (req.loc number)).toNat =
        .written req.id layer (req.loc number)

namespace RequestInv

variable {engine after : Engine Stamp} {req : Request} {number : ℕ}

section

variable (inv : RequestInv cfg engine req)

include inv

/-- A call that leaves prompt chunks below `decode_base` with their mirror rows, and either drops the
entry of a decode chunk or keeps the entry and the bytes. -/
theorem frame
    (recalled : ∀ number < req.prefillChunks, after.chunkCellLut 0 (req.loc number) < cfg.decodeBase ∧
      ∀ layer, after.hostMirror layer (req.loc number) = engine.hostMirror layer (req.loc number))
    (decoded : ∀ number < req.formed, req.prefillChunks ≤ number →
      after.chunkCellLut 0 (req.loc number) = -1 ∨
      after.chunkCellLut 0 (req.loc number) = engine.chunkCellLut 0 (req.loc number) ∧
        (cfg.decodeBase ≤ engine.chunkCellLut 0 (req.loc number) → ∀ layer < cfg.c4LayerNum,
          after.reserveBuf layer (engine.chunkCellLut 0 (req.loc number)).toNat =
            engine.reserveBuf layer (engine.chunkCellLut 0 (req.loc number)).toNat)) : RequestInv cfg after req := by
  refine ⟨?_, ?_⟩
  · intro number early
    obtain ⟨below, mirror⟩ := recalled number early
    exact ⟨below, fun layer => (mirror layer).trans ((inv.recalled number early).2 layer)⟩
  · intro number formed late
    rcases decoded number formed late with gone | ⟨same, bytes⟩
    · exact Or.inl gone
    rw [same]
    refine (inv.decoded number formed late).imp_right fun ⟨above, held⟩ => ⟨above, fun layer below => ?_⟩
    rw [bytes above layer below]
    exact held layer below

/-- Dropping entries is harmless, and so is rewriting the mirror elsewhere. -/
theorem clearCols (layout : req.Layout cfg) {cols : List ℕ}
    (lut : after.chunkCellLut = (engine.clearCols cols).chunkCellLut) (reserve : after.reserveBuf = engine.reserveBuf)
    (mirror : ∀ layer chunk, chunk / c4PageSize ∈ req.pages →
      after.hostMirror layer chunk = engine.hostMirror layer chunk) : RequestInv cfg after req := by
  apply inv.frame
  · intro number early
    have formed := Nat.lt_of_lt_of_le early layout.prompt
    refine ⟨?_, fun layer => mirror layer _ (layout.page_mem formed)⟩
    have below := (inv.recalled number early).1
    rw [lut, clearCols_lut]
    split_ifs <;> omega
  · intro number formed _
    rw [lut, clearCols_lut, reserve]
    split_ifs
    · exact Or.inl rfl
    · exact Or.inr ⟨rfl, fun _ _ _ => rfl⟩

theorem afterRecall {kept : List ℤ} {pairs : List (ℕ × ℕ)} (valid : engine.gPages.WellFormed cfg.maxBlocks)
    (ranged : LocsInRange cfg kept) (spec : PageRecall cfg engine after kept pairs)
    (guarded : ∀ number < req.formed, req.prefillChunks ≤ number →
      req.loc number / c4PageSize ∈ engine.pageMisses cfg (uniquePages kept) →
      cfg.lutTruth = true ∨ req.loc number / c4PageSize ∉ engine.gPages.slots.keys →
      cfg.ownReserve = true ∧ cfg.decodeBase ≤ engine.chunkCellLut 0 (req.loc number)) : RequestInv cfg after req := by
  have below := spec.below valid ranged
  apply inv.frame
  · intro number early
    refine ⟨?_, fun layer => by rw [spec.swap.mirror]⟩
    have before := (inv.recalled number early).1
    rcases spec.swap.lut_cases 0 (req.loc number) with ⟨cell, mem, value⟩ | ⟨_, value⟩
    · rw [value]
      exact Int.ofNat_lt.mpr (below _ mem)
    · rw [value]
      split_ifs <;> omega
  · intro number formed late
    rcases spec.swap.lut_cases 0 (req.loc number) with ⟨cell, mem, _⟩ | ⟨_, value⟩
    · exact absurd mem (spec.uncopied ranged (guarded number formed late) cell)
    rw [value]
    split_ifs
    · exact Or.inl rfl
    refine Or.inr ⟨rfl, fun above layer _ => ?_⟩
    rcases spec.swap.reserve_cases layer (engine.chunkCellLut 0 (req.loc number)).toNat with
      ⟨pair, mem, same, _⟩ | ⟨_, held⟩
    · have := below pair mem
      omega
    · exact held

theorem takePage (layout : req.Layout cfg) (page : ℕ) :
    RequestInv cfg engine { req with pages := req.pages ++ [page] } := by
  have same : ∀ number < req.formed,
      ({ req with pages := req.pages ++ [page] } : Request).loc number = req.loc number :=
    fun number formed => Request.loc_takePage page (Nat.lt_of_lt_of_le formed layout.room)
  refine ⟨?_, ?_⟩
  · intro number early
    rw [same number (Nat.lt_of_lt_of_le early layout.prompt)]
    exact inv.recalled number early
  · intro number formed late
    rw [same number formed]
    exact inv.decoded number formed late

/-- One more chunk. -/
theorem grow
    (new : engine.chunkCellLut 0 (req.loc req.formed) = -1 ∨
      cfg.decodeBase ≤ engine.chunkCellLut 0 (req.loc req.formed) ∧ ∀ layer < cfg.c4LayerNum,
        engine.reserveBuf layer (engine.chunkCellLut 0 (req.loc req.formed)).toNat =
          .written req.id layer (req.loc req.formed)) :
    RequestInv cfg engine { req with formed := req.formed + 1 } := by
  refine ⟨inv.recalled, ?_⟩
  intro number formed late
  rcases Nat.lt_succ_iff_lt_or_eq.mp formed with old | rfl
  · exact inv.decoded number old late
  · exact new

end

end RequestInv

/-! ## Admission -/

section Admit

variable {engine : Engine Stamp} {req : Request}

private theorem commitEngine_reserveBuf : (commitEngine cfg engine req).reserveBuf = engine.reserveBuf := by
  simp only [commitEngine, registerDecodeReq]
  split_ifs <;> rfl

theorem commitEngine_hostMirror (layer chunk : ℕ) : (commitEngine cfg engine req).hostMirror layer chunk =
    if chunk / c4PageSize ∈ req.promptPages then req.transferred layer chunk
    else engine.hostMirror layer chunk := by
  simp only [commitEngine, registerDecodeReq]
  split_ifs <;> simp_all [discardCopiedPages, transferPages]

/-- The discard covers everything that the transfer wrote. -/
theorem commitEngine_cache (cache : engine.PageCache cfg fun _ => False)
    (inMirror : ∀ page ∈ req.promptPages, page < cfg.nLogicalPages) :
    (commitEngine cfg engine req).PageCache cfg fun _ => False := by
  have written : (engine.transferPages req.transferred req.promptPages).PageCache cfg
      fun chunk => chunk / c4PageSize ∈ req.promptPages :=
    ⟨cache.pool, cache.inRange, cache.coherent.transfer _ fun _ current => ⟨id, current⟩⟩
  refine (written.discard _ fun chunk outside _ stale => ?_).register _ _
  exact outside ((mem_mirrorPages (inMirror _ stale)).mpr stale)

/-- A request starts with every prompt chunk unmapped and in the mirror. -/
theorem commitEngine_new (inMirror : ∀ page ∈ req.pages, page < cfg.nLogicalPages)
    (room : req.promptLen ≤ 4 * c4PageSize * req.pages.length) (fresh : req.formed = req.prefillChunks) :
    RequestInv cfg (commitEngine cfg engine req) req := by
  refine ⟨?_, ?_⟩
  · intro number early
    have onPrompt := Request.prompt_page_mem room early
    have bound := inMirror _ (mem_of_mem_take onPrompt)
    constructor
    · rw [commitEngine_lut, clearCols_lut,
        if_pos ((mem_pageCols (chunk_lt_of_page bound rfl)).mpr
          ((mem_mirrorPages bound).mpr onPrompt))]
      omega
    · intro layer
      rw [commitEngine_hostMirror, if_pos onPrompt, Request.transferred, if_pos]
      exact mem_map_of_mem (mem_range.mpr early)
  · intro number formed late
    omega

/-- A request that shares no page with the admitted one is not affected. -/
theorem commitEngine_old {other : Request} (layout : other.Layout cfg) (inv : RequestInv cfg engine other)
    (apart : ∀ page ∈ req.pages, page ∉ other.pages) :
    RequestInv cfg (commitEngine cfg engine req) other := by
  refine inv.clearCols layout commitEngine_lut commitEngine_reserveBuf fun layer chunk mine => ?_
  rw [commitEngine_hostMirror, if_neg]
  exact fun onPrompt => apart _ (mem_of_mem_take onPrompt) mine

end Admit

/-! ## The invariant of the server -/

structure Inv (cfg : Config) (server : Server) : Prop where
  cache : server.engine.PageCache cfg fun _ => False
  uniform : ∀ layer < cfg.c4LayerNum, server.engine.chunkCellLut layer = server.engine.chunkCellLut 0
  books : Books cfg server
  each : ∀ req ∈ server.live, RequestInv cfg server.engine req

namespace Inv

variable {req other : Request} {batch : List BatchRow}

theorem init (cfg : Config) : Inv cfg Server.init where
  cache := PageCache.init cfg _ Stamp.blank none
  uniform _ _ := rfl
  books := Books.init cfg
  each _ mem := by contradiction

/-! ### A decode step -/

/-- The chunks formed before the step keep their entries and their bytes. -/
private theorem decode_old (ownReserve : cfg.ownReserve = true) (inv : Inv cfg server)
    (admissible : Admissible cfg server (.decode batch))
    (safe : LeakFree cfg server (.decode batch)) (mem : req ∈ server.live) :
    RequestInv cfg (server.engine.storeDecodeAllLayers cfg (server.rows batch)) req := by
  have own := inv.each req mem
  have layout := inv.books.layout req mem
  have kept : ∀ number < req.formed,
      (server.engine.storeDecodeAllLayers cfg (server.rows batch)).chunkCellLut 0 (req.loc number) =
        server.engine.chunkCellLut 0 (req.loc number) := fun _ => inv.books.decode_kept admissible mem
  apply own.frame
  · intro number early
    rw [kept number (Nat.lt_of_lt_of_le early layout.prompt), storeDecodeAllLayers_hostMirror]
    exact ⟨(own.recalled number early).1, fun _ => rfl⟩
  · intro number formed late
    refine Or.inr ⟨kept number formed, fun above layer below => ?_⟩
    rcases storeDecodeAllLayers_reserve_cases cfg server.engine (server.rows batch) below
      (server.engine.chunkCellLut 0 (req.loc number)).toNat with ⟨row, rowMember, cell, _⟩ | ⟨_, value⟩
    · have apart := safe.2.1 row rowMember req mem number formed late
      have nonneg : 0 ≤ server.engine.stepCell cfg row := decodeCell_nonneg ownReserve _
      omega
    · exact value

section

variable (ownReserve : cfg.ownReserve = true) (layers : 0 < cfg.c4LayerNum) (inv : Inv cfg server)
  (admissible : Admissible cfg server (.decode batch)) (safe : LeakFree cfg server (.decode batch))
include ownReserve layers inv admissible safe

/-- The chunk formed in the step is entered with its bytes, or has no entry. -/
private theorem decode_new (mem : req ∈ server.live) (forms : .forms req.id ∈ batch) :
    let after := server.engine.storeDecodeAllLayers cfg (server.rows batch)
    let entry := after.chunkCellLut 0 (req.loc req.formed)
    entry = -1 ∨ cfg.decodeBase ≤ entry ∧ ∀ layer < cfg.c4LayerNum,
      after.reserveBuf layer entry.toNat = .written req.id layer (req.loc req.formed) := by
  intro after entry
  have room := admissible req mem forms
  have inMirror := chunk_lt_of_page
    ((inv.books.layout req mem).inMirror _ (Request.loc_page_mem room)) rfl
  have present := inv.books.nextRow_mem mem forms
  rcases storeDecodeAllLayers_lut_cases cfg server.engine (server.rows batch) 0
    (req.loc req.formed) with ⟨_, row, rowMember, column, value⟩ | ⟨unwritten, value⟩
  · -- The row is the request's own, and no other row shares its cell.
    obtain ⟨_, rfl, placed, _⟩ := inv.books.row_of_column admissible rowMember mem room column
    have nonneg : 0 ≤ server.engine.stepCell cfg req.nextRow := decodeCell_nonneg ownReserve _
    have above := decodeBase_le_decodeCell cfg server.engine (atLayer req.nextRow 0)
    refine Or.inr ⟨?_, fun layer below => ?_⟩
    · simp only [entry, after, value]
      simp only [stepCell] at nonneg ⊢
      omega
    simp only [entry, after, value]
    rcases storeDecodeAllLayers_reserve_cases cfg server.engine (server.rows batch) below
      (server.engine.stepCell cfg req.nextRow).toNat with ⟨row, rowMember, cell, bytes⟩ | ⟨untouched, _⟩
    · have cellNonneg : 0 ≤ server.engine.stepCell cfg row := decodeCell_nonneg ownReserve _
      have same : row = req.nextRow := by
        by_contra different
        exact (safe.2.2.forall rowMember present different (by omega)).2 placed
      rw [bytes, same]
      rfl
    · exact absurd rfl (untouched _ present)
  · -- Without a row of its own the chunk was funneled, so it had no entry.
    refine Or.inl (value.trans (safe.1 req mem forms fun placed => ?_))
    exact unwritten layers _ present (decodeCol_of_valid inMirror placed rfl)

/-! ### Every step -/

theorem decode : Inv cfg (server.step cfg (.decode batch)) := by
  refine ⟨inv.cache.storeDecodeAllLayers _, ?_, inv.books.decode admissible, ?_⟩
  · intro layer below
    simp only [step, storeDecodeAllLayers_lut, below, layers, ↓reduceIte, inv.uniform layer below]
  · intro grown mem
    obtain ⟨req, present, rfl⟩ := mem_map.mp mem
    have old := inv.decode_old ownReserve admissible safe present
    split_ifs with forms
    · exact old.grow (inv.decode_new ownReserve layers admissible safe present forms)
    · exact old

end

theorem takePage (inv : Inv cfg server) {id page : ℕ} (admissible : Admissible cfg server (.takePage id page)) :
    Inv cfg (server.step cfg (.takePage id page)) := by
  refine ⟨inv.cache, inv.uniform, inv.books.takePage admissible, fun grown mem => ?_⟩
  obtain ⟨req, present, rfl⟩ := mem_map.mp mem
  split_ifs
  · exact (inv.each req present).takePage (inv.books.layout req present) page
  · exact inv.each req present

theorem commit (inv : Inv cfg server) {reqPoolIdx promptLen : ℕ} {pages : List ℕ}
    (admissible : Admissible cfg server (.commit reqPoolIdx promptLen pages)) :
    Inv cfg (server.step cfg (.commit reqPoolIdx promptLen pages)) := by
  have books := inv.books.commit admissible
  obtain ⟨_, room, each⟩ := admissible
  have inMirror := fun page mem => (each page mem).1
  refine ⟨commitEngine_cache inv.cache fun page mem => inMirror page (mem_of_mem_take mem),
    ?_, books, ?_⟩
  · intro layer below
    funext chunk
    simp only [step, commitEngine_lut, clearCols_lut, inv.uniform layer below]
  · refine forall_mem_cons.mpr ⟨commitEngine_new inMirror room rfl, fun req mem => ?_⟩
    exact commitEngine_old (inv.books.layout req mem) (inv.each req mem) fun page mine =>
      (each page mine).2 req mem

theorem next (ownReserve : cfg.ownReserve = true) (paged : cfg.pageRecall = true)
    (layers : 0 < cfg.c4LayerNum) (inv : Inv cfg server) {op : ServerOp}
    (admissible : Admissible cfg server op) (safe : LeakFree cfg server op) :
    Inv cfg (server.step cfg op) := by
  cases op with
  | commit reqPoolIdx promptLen pages => exact inv.commit admissible
  | takePage id page => exact inv.takePage admissible
  | decode batch => exact inv.decode ownReserve layers admissible safe
  | recallResident kept =>
    obtain ⟨pairs, spec⟩ := recallGlobalPages_spec inv.cache.pool admissible
    simp only [step, recallResidentGlobal, paged, ↓reduceIte]
    refine ⟨inv.cache.afterRecall admissible, fun layer below => ?_, inv.books.withEngine _,
      fun req mem => ?_⟩
    · rw [spec.swap.lut layer, spec.swap.lut 0, inv.uniform layer below]
    · exact (inv.each req mem).afterRecall inv.cache.pool admissible spec fun number formed late missed copied =>
        ⟨ownReserve, safe req mem number formed late missed copied⟩
  | release locs =>
    have cache := inv.cache.release paged locs
    simp only [step, releaseReqPoolLocs, paged, ↓reduceIte] at cache ⊢
    split_ifs at cache ⊢
    · exact inv
    · refine ⟨cache, fun layer below => ?_, inv.books.withEngine _,
      fun req mem => ?_⟩
      · funext chunk
        simp only [clearCols_lut, inv.uniform layer below]
      · exact (inv.each req mem).clearCols (inv.books.layout req mem) rfl rfl fun _ _ _ => rfl
  | finish id =>
    exact ⟨inv.cache, inv.uniform, inv.books.finish id, fun req mem =>
      inv.each req (mem_filter.mp mem).1⟩

theorem isolated (inv : Inv cfg server) : Isolated cfg server := by
  intro req mem layer below number formed
  have own := inv.each req mem
  have inMirror := (inv.books.layout req mem).loc_lt formed
  have entry : server.engine.chunkCellLut layer (req.loc number) =
      server.engine.chunkCellLut 0 (req.loc number) := congrFun (inv.uniform layer below) _
  simp only [remapCompressedLoc, Int.natCast_nonneg, ↓reduceIte, Int.toNat_natCast, true_and,
    clampCol_of_lt inMirror]
  split_ifs with mapped
  · refine Or.inr ⟨_, (Int.toNat_of_nonneg mapped).symm, ?_⟩
    rcases Nat.lt_or_ge number req.prefillChunks with early | late
    · -- A prompt chunk is a copy of its mirror row.
      obtain ⟨recalled, mirror⟩ := own.recalled number early
      rw [← mirror layer]
      exact (inv.cache.coherent layer).fresh _ _ (Int.toNat_of_nonneg mapped).symm (by omega) id
    · rcases own.decoded number formed late with gone | ⟨_, held⟩
      · omega
      · rw [entry]
        exact held layer below
  · exact Or.inl rfl

end Inv

/-- In every run whose steps are leak free, each chunk that a live request formed is unmapped or mapped
to bytes produced for it. -/
theorem requests_isolated {cfg : Config} (ownReserve : cfg.ownReserve = true)
    (paged : cfg.pageRecall = true) (history : List ServerOp)
    (allowed : Along (step cfg) (fun server op => Admissible cfg server op ∧ LeakFree cfg server op)
      Server.init history) :
    Isolated cfg (run (step cfg) Server.init history) := by
  rcases Nat.eq_zero_or_pos cfg.c4LayerNum with none | layers
  · intro _ _ layer below
    omega
  · exact (allowed.invariant (Inv.init cfg) fun _ _ inv ok => inv.next ownReserve paged layers ok.1 ok.2).isolated

/-- Two requests share the server; the first ends and its page becomes a prompt page again. -/
def churn : List ServerOp :=
  [.commit 0 8 [0], .decode [.forms 0, .idle 5 3], .recallResident [1], .recallResident [130], .commit 1 16 [2],
    .decode [.forms 0, .idle 1 9], .finish 0, .release [0], .commit 0 12 [0], .takePage 2 3,
    .decode [.forms 2], .recallResident [128]]

theorem requests_isolated_on_churn : Isolated .smallPaged (run (step .smallPaged) Server.init churn) :=
  requests_isolated (by decide) (by decide) churn (by decide)

/-- Request 0 stores a decode chunk at location 128 and ends. Request 1 takes the same page later, and
its chunk at 128 is funneled to the sink: the entry still leads to the bytes of request 0. -/
theorem successor_reads_earlier_owner :
    let history : List ServerOp := [.commit 0 512 [1, 3], .takePage 0 2, .decode [.forms 0],
      .release [64, 128, 192], .finish 0, .commit 0 256 [1], .takePage 1 2, .decode [.forms 1]]
    Along (step .smallPaged) (Admissible .smallPaged) Server.init history ∧
      ¬ Isolated .smallPaged (run (step .smallPaged) Server.init history) := by
  refine ⟨by decide, fun isolated => ?_⟩
  have found := isolated ⟨1, 0, 256, [1, 2], 65⟩ (by decide) 0 (by decide) 64 (by decide)
  rcases found with unmapped | ⟨cell, mapped, bytes⟩
  · exact absurd unmapped (by decide)
  · obtain rfl : cell = 117 := Int.ofNat_inj.mp (mapped.symm.trans (by decide))
    exact absurd bytes (by decide)

end Server

end FlashMemory
