import FlashMemory.Soundness.IndexBlocks
import FlashMemory.Soundness.Selectable
import FlashMemory.Soundness.RowIsolation

/-! # What the indexer scores with offloaded keys

After a side-band the captured indexer scores a row page by page, through a table of blocks of the index
reserve. The table is written for the due rows only, from the entries of the pages' first chunks, and the keys
in a block are those of the last recall together with those that decode steps stored there since. So three
things go wrong. The first chunk of a page may be in the decode region, and then the table names a block that
the reserve does not have. A page may be recalled after decode formed chunks on it: the mirror has no keys for
them. And as for the chunks themselves, a published page may be evicted or taken for resident.

In a run in which no side-band does one of these, every row is scored with the keys of its pages.
-/

namespace FlashMemory

open List Capturer ResidentServer

open Engine (InBlock KeysHeld NoArrivals Stores PageCache)

/-! ## The engine after a side-band -/

theorem Engine.recallGlobalPages_nil {α : Type*} (cfg : Config) (engine : Engine α) :
    engine.recallGlobalPages cfg [] = (engine, .ok 0) := by
  have none : uniquePages [] = [] := by decide
  simp only [recallGlobalPages, none, pageMisses, filter_nil, ↓reduceIte]

/-- In every case the engine is left as by one recall of the union. -/
theorem Capturer.onForwardEnd_engine {α : Type*} {cfg : Config} (ccfg : CapturerConfig) (capturer : Capturer)
    (engine : Engine α) (reqIds : List ℕ) (forward : Forward) (paged : cfg.pageRecall = true) :
    let resolved := capturer.resolveIds ccfg reqIds
    let due := (capturer.dueRows ccfg reqIds).2
    (capturer.onForwardEnd cfg ccfg engine reqIds forward).2.1 =
      ((recordOwners cfg ccfg engine resolved forward due).recallGlobalPages cfg
        (unionLocs cfg ccfg engine resolved forward due)).1 := by
  intro resolved due
  simp only [onForwardEnd, sidebandWork, Engine.recallResidentGlobal, paged, ↓reduceIte]
  split_ifs with none empty
  · simp only [due, none, recordOwners, unionLocs, foldl_nil, flatMap_nil, Engine.recallGlobalPages_nil]
  · simp only [resolved, due, empty, Engine.recallGlobalPages_nil]
  · cases shape : (recordOwners cfg ccfg engine resolved forward due).recallGlobalPages cfg
      (unionLocs cfg ccfg engine resolved forward due) with
    | mk after outcome => cases outcome <;> rfl

namespace IndexServer

variable {cfg : Config} {ccfg : CapturerConfig} {full : List ℕ} {state : IndexServer} {req : Request} {bi : ℕ}
  {topLogical : ℕ → Option (List ℕ)}

/-- A request with this number is live and has formed the chunk. -/
def Keyed (live : List Request) (id chunk : ℕ) : Prop :=
  ∃ req ∈ live, req.id = id ∧ ∃ number < req.formed, req.loc number = chunk

/-- Every page that a row of the batch scores has a block below the sink, and in every offloaded layer the
block holds the keys of the chunks that live requests formed on the page. -/
def ScoresRight (cfg : Config) (full : List ℕ) (state : IndexServer) : Prop :=
  ∀ bi < state.resident.batch.length, ∀ k < state.resident.capturer.residentCountBuf bi / c4PageSize,
    let page := (state.paged.residentIdPageTable bi).getD k 0
    let block := state.residentIdPageTableReserve bi k
    block < cfg.maxBlocks ∧ ∀ layer < cfg.c4LayerNum, layer ∉ full → ∀ id chunk,
      Keyed state.resident.server.live id chunk → chunk / c4PageSize = page →
        state.indexReserveBuf layer (block * c4PageSize + chunk % c4PageSize) = .written id layer chunk

/-- What a step must not do to the keys. -/
def IndexSafe (cfg : Config) (ccfg : CapturerConfig) (state : IndexServer) : ResidentOp → Prop
  | .forwardEnd topLogical =>
    let resident := state.resident
    -- A selected page is in the history, and its first chunk is not in the decode region.
    (∀ bi ∈ resident.due ccfg, ∀ pages ∈ (resident.forward topLogical).chosen bi,
      ∀ req ∈ resident.occupants[bi]?, ∀ page ∈ pages, page * c4PageSize < req.formed ∧
        state.engine.chunkCellLut 0 (req.loc (page * c4PageSize)) < cfg.decodeBase) ∧
    -- A missed page has no chunk that decode formed.
    ∀ req ∈ resident.server.live, ∀ number < req.formed, req.prefillChunks ≤ number →
      req.loc number / c4PageSize ∉
        state.engine.pageMisses cfg (uniquePages (resident.union cfg ccfg topLogical))
  -- No chunk is formed at location 0, which stands for none.
  | .decode rows => ∀ req ∈ state.resident.server.live, .forms req.id ∈ rows → 0 < req.loc req.formed
  | .commit _ _ _ | .takePage _ _ | .finish _ | .forwardBegin _ => True

instance decidableIndexSafe (cfg : Config) (ccfg : CapturerConfig) (state : IndexServer) :
    ∀ op, Decidable (IndexSafe cfg ccfg state op) := by
  rintro (_ | _) <;> dsimp only [IndexSafe] <;> infer_instance

/-! ## The invariant -/

/-- The table of a row names the blocks of pages that the row publishes for the request. -/
def Tabled (cfg : Config) (state : IndexServer) (bi : ℕ) (req : Request) : Prop :=
  ∀ k < state.resident.capturer.residentCountBuf bi / c4PageSize,
    let page := (state.paged.residentIdPageTable bi).getD k 0
    ((page * c4PageSize : ℕ) : ℤ) ∈ state.resident.capturer.residentPoolLocBuf bi ∧
      (∃ number < req.formed, req.loc number = page * c4PageSize) ∧
      InBlock cfg state.engine page (state.residentIdPageTableReserve bi k)

structure Inv (cfg : Config) (ccfg : CapturerConfig) (full : List ℕ) (state : IndexServer) : Prop where
  rows : ResidentServer.Inv cfg ccfg state.resident
  cache : PageCache cfg (fun _ => True) state.engine
  mirror : ∀ req ∈ state.resident.server.live, ∀ number < req.prefillChunks, ∀ layer, layer ∉ full →
    state.indexHostMirror layer (req.loc number) = .written req.id layer (req.loc number)
  held : KeysHeld cfg full state.engine state.indexReserveBuf (Keyed state.resident.server.live)
  tabled : ∀ reqIds, state.resident.capturer.prevRowOccupant = some reqIds → ∀ (bi ri : ℕ),
    reqIds[bi]? = some ri → ∀ req ∈ state.resident.server.live, req.reqPoolIdx = ri → Tabled cfg state bi req

/-- The pages of formed chunks are pages of the mirror. -/
theorem Keyed.inMirror {server : Server} (books : server.Books cfg) {id chunk : ℕ} (key : Keyed server.live id chunk) :
    chunk / c4PageSize < cfg.nLogicalPages := by
  obtain ⟨req, mem, _, number, formed, rfl⟩ := key
  have layout := books.layout req mem
  exact layout.inMirror _ (layout.page_mem formed)

/-- A row keeps its table when its first chunks keep their entries. -/
theorem Tabled.frame {after : IndexServer} {req' : Request} (tabled : Tabled cfg state bi req)
    (counts : after.resident.capturer.residentCountBuf bi = state.resident.capturer.residentCountBuf bi)
    (locs : after.resident.capturer.residentPoolLocBuf bi = state.resident.capturer.residentPoolLocBuf bi)
    (pages : after.paged.residentIdPageTable bi = state.paged.residentIdPageTable bi)
    (blocks : after.residentIdPageTableReserve bi = state.residentIdPageTableReserve bi)
    (grown : ∀ number < req.formed, number < req'.formed ∧ req'.loc number = req.loc number)
    (entries : ∀ page number, number < req.formed → req.loc number = page * c4PageSize →
      ((page * c4PageSize : ℕ) : ℤ) ∈ state.resident.capturer.residentPoolLocBuf bi →
      after.engine.chunkCellLut 0 (page * c4PageSize) = state.engine.chunkCellLut 0 (page * c4PageSize)) :
    Tabled cfg after bi req' := by
  intro k below
  rw [counts] at below
  obtain ⟨shown, ⟨number, formed, first⟩, home⟩ := tabled k below
  simp only [locs, pages, blocks]
  refine ⟨shown, ⟨number, (grown number formed).1, (grown number formed).2.trans first⟩, ?_⟩
  exact home.congr (entries _ number formed first shown)

theorem transferIndex_prompt (room : req.promptLen ≤ 4 * c4PageSize * req.pages.length) (mirror : ℕ → ℕ → Stamp)
    {number layer : ℕ} (early : number < req.prefillChunks) (offloaded : layer ∉ full) :
    transferIndex full req mirror layer (req.loc number) = .written req.id layer (req.loc number) := by
  have prompt : req.loc number ∈ (List.range req.prefillChunks).map req.loc :=
    mem_map_of_mem (mem_range.mpr early)
  rw [transferIndex, if_pos ⟨offloaded, Request.prompt_page_mem room early⟩, Request.transferred, if_pos prompt]

private theorem transferIndex_of_not_mem (mirror : ℕ → ℕ → Stamp) (layer : ℕ) {chunk : ℕ}
    (outside : chunk / c4PageSize ∉ req.promptPages) : transferIndex full req mirror layer chunk = mirror layer chunk :=
  if_neg fun inside => outside inside.2

namespace Inv

theorem init (cfg : Config) (ccfg : CapturerConfig) (full : List ℕ) (prebuilt : Bool) :
    Inv cfg ccfg full (IndexServer.init prebuilt) where
  rows := ResidentServer.Inv.init cfg ccfg prebuilt
  cache := PageCache.init cfg _ Stamp.blank none
  mirror _ mem := by contradiction
  held _ _ _ key := by
    obtain ⟨_, mem, _⟩ := key
    contradiction
  tabled _ present := by contradiction

/-- The first chunk of a page is on the page of its request. -/
theorem page_mem (inv : Inv cfg ccfg full state) (mem : req ∈ state.resident.server.live) {number page : ℕ}
    (formed : number < req.formed) (first : req.loc number = page * c4PageSize) : page ∈ req.pages := by
  have mine := (inv.rows.books.layout req mem).page_mem formed
  rwa [first, Engine.firstChunk_page] at mine

/-! ### Between forwards -/

section Commit

variable {reqPoolIdx promptLen : ℕ} {pages : List ℕ}

/-- The request that is committed. -/
def newRequest (state : IndexServer) (reqPoolIdx promptLen : ℕ) (pages : List ℕ) : Request :=
  ⟨state.resident.server.nextId, reqPoolIdx, promptLen, pages, promptLen / 4⟩

/-- The pages of the prompt have no block after the discard. -/
private theorem not_inBlock_commit {engine : Engine Stamp} {page block : ℕ} (bound : page < cfg.nLogicalPages)
    (prompt : page ∈ req.promptPages) : ¬ InBlock cfg (Server.commitEngine cfg engine req) page block := by
  intro home
  have entry := home.entry
  rw [Server.commitEngine_lut, Engine.clearCols_lut, if_pos] at entry
  · omega
  · rw [Engine.mem_pageCols (Engine.chunk_lt_of_page bound (Engine.firstChunk_page page)), Engine.firstChunk_page]
    exact (Server.mem_mirrorPages bound).mpr prompt

theorem commit (inv : Inv cfg ccfg full state)
    (admissible : ResidentServer.Admissible cfg ccfg state.resident (.commit reqPoolIdx promptLen pages))
    (spared : Spared cfg ccfg state.resident (.commit reqPoolIdx promptLen pages)) :
    Inv cfg ccfg full (state.step cfg ccfg full (.commit reqPoolIdx promptLen pages)) := by
  have next := inv.rows.commit admissible spared
  obtain ⟨_, _, _, room, each⟩ := admissible
  let new := newRequest state reqPoolIdx promptLen pages
  have fits : new.promptLen ≤ 4 * c4PageSize * new.pages.length := room
  have apart : ∀ req ∈ state.resident.server.live, ∀ page ∈ req.pages, page ∉ new.pages :=
    fun req mem page mine new => (each page new).2 req mem mine
  refine ⟨next, inv.cache.commit new, ?_, ?_, ?_⟩
  · refine forall_mem_cons.mpr ⟨fun number early layer offloaded => ?_, fun req mem number early layer offloaded => ?_⟩
    · exact transferIndex_prompt fits _ early offloaded
    · have layout := inv.rows.books.layout req mem
      have mine := layout.page_mem (Nat.lt_of_lt_of_le early layout.prompt)
      refine Eq.trans (transferIndex_of_not_mem _ layer fun prompt => ?_)
        (inv.mirror req mem number early layer offloaded)
      exact apart req mem _ mine (mem_of_mem_take prompt)
  · refine inv.held.frame (.commit new) (fun id chunk key => key.inMirror next.books) fun id chunk key => ?_
    have bound := key.inMirror next.books
    obtain ⟨req, mem, sameId, number, formed, rfl⟩ := key
    rcases mem_cons.mp mem with rfl | mem
    · have prompt := Request.prompt_page_mem fits formed
      exact Or.inr fun block => not_inBlock_commit bound prompt
    · exact Or.inl ⟨req, mem, sameId, number, formed, rfl⟩
  · intro reqIds present bi ri row req mem index
    rcases mem_cons.mp mem with rfl | mem
    · have sameIndex : reqPoolIdx = ri := index
      refine absurd (mem_of_getElem? row) fun carried => spared ?_
      rw [show state.resident.capturer.prevRowOccupant = some reqIds from present, sameIndex]
      exact carried
    · refine (inv.tabled reqIds present bi ri row req mem index).frame rfl rfl rfl rfl
        (fun number formed => ⟨formed, rfl⟩) fun page number formed first _ => ?_
      have mine := inv.page_mem mem formed first
      have bound := (inv.rows.books.layout req mem).inMirror page mine
      have untouched : Engine.Untouched cfg (fun page => ∃ req ∈ state.resident.server.live, page ∈ req.pages)
          state.engine (Server.commitEngine cfg state.engine new) :=
        .commit fun page new ⟨req, mem, mine⟩ => apart req mem page mine new
      refine untouched.entries 0 _ (Engine.chunk_lt_of_page bound (Engine.firstChunk_page page)) ?_
      exact ⟨req, mem, (Engine.firstChunk_page page).symm ▸ mine⟩

end Commit

/-! ### Requests that grow or end -/

/-- The same request, with the chunks that it had and perhaps more. -/
structure Grown (req req' : Request) : Prop where
  sameId : req'.id = req.id
  index : req'.reqPoolIdx = req.reqPoolIdx
  prompt : req'.promptLen = req.promptLen
  formed : req.formed ≤ req'.formed
  loc : ∀ number < req.formed, req'.loc number = req.loc number

theorem Grown.refl (req : Request) : Grown req req := ⟨rfl, rfl, rfl, le_rfl, fun _ _ => rfl⟩

section

variable (inv : Inv cfg ccfg full state)
include inv

/-- A step of the requests that leaves the capturer, the mirror and the entries of first chunks alone. -/
theorem grow {after : IndexServer}
    (rows : ResidentServer.Inv cfg ccfg after.resident) (cache : PageCache cfg (fun _ => True) after.engine)
    (held : KeysHeld cfg full after.engine after.indexReserveBuf (Keyed after.resident.server.live))
    (grown : ∀ req' ∈ after.resident.server.live, ∃ req ∈ state.resident.server.live, Grown req req')
    (capturer : after.resident.capturer = state.resident.capturer)
    (mirror : after.indexHostMirror = state.indexHostMirror)
    (pages : after.paged.residentIdPageTable = state.paged.residentIdPageTable)
    (blocks : after.residentIdPageTableReserve = state.residentIdPageTableReserve)
    (entries : ∀ req ∈ state.resident.server.live, ∀ page number, number < req.formed →
      req.loc number = page * c4PageSize →
      after.engine.chunkCellLut 0 (page * c4PageSize) = state.engine.chunkCellLut 0 (page * c4PageSize)) :
    Inv cfg ccfg full after := by
  refine ⟨rows, cache, fun req' mem number early layer offloaded => ?_, held, ?_⟩
  · obtain ⟨req, old, grown⟩ := grown req' mem
    have early' : number < req.prefillChunks := by rwa [Request.prefillChunks, ← grown.prompt]
    have formed := Nat.lt_of_lt_of_le early' (inv.rows.books.layout req old).prompt
    rw [mirror, grown.loc number formed, grown.sameId]
    exact inv.mirror req old number early' layer offloaded
  · intro reqIds present bi ri row req' mem index
    obtain ⟨req, old, grown⟩ := grown req' mem
    rw [capturer] at present
    refine (inv.tabled reqIds present bi ri row req old (grown.index.symm.trans index)).frame (by rw [capturer])
      (by rw [capturer]) (by rw [pages]) (by rw [blocks])
      (fun number formed => ⟨Nat.lt_of_lt_of_le formed grown.formed, grown.loc number formed⟩)
      fun page number formed first _ => entries req old page number formed first

theorem takePage {id page : ℕ}
    (admissible : ResidentServer.Admissible cfg ccfg state.resident (.takePage id page)) :
    Inv cfg ccfg full (state.step cfg ccfg full (.takePage id page)) := by
  have next := inv.rows.takePage admissible
  have grown : ∀ req ∈ state.resident.server.live,
      Grown req (if req.id = id then { req with pages := req.pages ++ [page] } else req) := by
    intro req mem
    split_ifs
    · refine ⟨rfl, rfl, rfl, le_rfl, fun number formed => Request.loc_takePage page ?_⟩
      exact Nat.lt_of_lt_of_le formed (inv.rows.books.layout req mem).room
    · exact .refl req
  refine inv.grow next inv.cache ?_ (fun req' mem => ?_) rfl rfl rfl rfl fun _ _ _ _ _ _ => rfl
  · refine inv.held.frame (.refl cfg _) (fun _ _ key => key.inMirror next.books) fun other chunk key => Or.inl ?_
    obtain ⟨req', mem, sameId, number, formed, here⟩ := key
    obtain ⟨req, old, rfl⟩ := mem_map.mp mem
    have formed' : number < req.formed := by
      split_ifs at formed <;> exact formed
    exact ⟨req, old, (grown req old).sameId.symm.trans sameId, number, formed',
      ((grown req old).loc number formed').symm.trans here⟩
  · obtain ⟨req, old, rfl⟩ := mem_map.mp mem
    exact ⟨req, old, grown req old⟩

theorem finish {id : ℕ} (idle : state.resident.running = false) :
    Inv cfg ccfg full (state.step cfg ccfg full (.finish id)) := by
  have kept : ∀ req ∈ state.resident.server.live.filter (·.id ≠ id), req ∈ state.resident.server.live :=
    fun req mem => (mem_filter.mp mem).1
  have next : ResidentServer.Inv cfg ccfg (state.resident.step cfg ccfg (.finish id)) := inv.rows.finish idle
  refine inv.grow next inv.cache ?_ (fun req mem => ⟨req, kept req mem, .refl req⟩) rfl rfl rfl rfl
    fun _ _ _ _ _ _ => rfl
  refine inv.held.frame (.refl cfg _) (fun _ _ key => key.inMirror next.books) fun other chunk key => ?_
  obtain ⟨req, mem, found⟩ := key
  exact Or.inl ⟨req, kept req mem, found⟩

end

/-! ### A decode step -/

section Decode

variable {rows : List BatchRow}

theorem decode (own : cfg.ownReserve = true) (inv : Inv cfg ccfg full state)
    (allowed : state.resident.server.Admissible cfg (.decode rows))
    (safe : IndexSafe cfg ccfg state (.decode rows)) :
    Inv cfg ccfg full (state.step cfg ccfg full (.decode rows)) := by
  have next := inv.rows.decode own allowed
  have books := inv.rows.books
  have ranged : ∀ row ∈ state.resident.server.rows rows, 0 < row.c4OutLoc →
      row.c4OutLoc.toNat / c4PageSize < cfg.nLogicalPages := by
    intro row stored positive
    obtain ⟨req, mem, forms, rfl⟩ := Server.forms_of_row stored positive
    exact (books.layout req mem).inMirror _ (Request.loc_page_mem (allowed req mem forms))
  refine inv.grow next (inv.cache.storeDecodeAllLayers _) ?_ (fun req' mem => ?_) rfl rfl rfl rfl
    fun req mem page number formed first => first ▸ books.decode_kept allowed mem formed
  · refine inv.held.decode inv.cache ranged (fun _ _ key => key.inMirror next.books) (fun id chunk key => ?_)
      fun id chunk key row stored stores layer => ?_
    · obtain ⟨req', mem, sameId, number, formed, here⟩ := key
      obtain ⟨req, old, rfl⟩ := mem_map.mp mem
      split_ifs at sameId formed here with forms
      · rcases Nat.lt_succ_iff_lt_or_eq.mp formed with before | rfl
        · exact Or.inl ⟨req, old, sameId, number, before, here⟩
        · refine Or.inr ⟨req.nextRow, books.nextRow_mem old forms, ?_, congrArg Int.ofNat here⟩
          exact here ▸ safe req old forms
      · exact Or.inl ⟨req, old, sameId, number, formed, here⟩
    · obtain ⟨req', mem, sameId, number, formed, here⟩ := key
      have room := Nat.lt_of_lt_of_le formed (next.books.layout req' mem).room
      obtain ⟨req, old, rfl⟩ := mem_map.mp mem
      have facts : req.id = id ∧ number < c4PageSize * req.pages.length ∧ req.loc number = chunk := by
        split_ifs at sameId room here <;> exact ⟨sameId, room, here⟩
      obtain ⟨positive, place⟩ := stores
      obtain ⟨_, rfl, rfl⟩ := books.row_of_loc allowed stored (by omega) old facts.2.1
        (place.trans (congrArg Int.ofNat facts.2.2.symm))
      rw [Request.nextRow, facts.2.2, facts.1]
  · obtain ⟨req, old, rfl⟩ := mem_map.mp mem
    refine ⟨req, old, ?_⟩
    split_ifs
    · exact ⟨rfl, rfl, rfl, Nat.le_succ _, fun _ _ => rfl⟩
    · exact .refl req

end Decode

/-! ### Before a forward -/

section Begin

variable {batch : List ℕ}

/-- The entries of the pages that surviving rows publish are left alone. -/
private theorem begin_untouched (paged : cfg.pageRecall = true) (inv : Inv cfg ccfg full state) {reqIds : List ℕ}
    (bounded : reqIds.length ≤ ccfg.maxBs)
    (spared : cfg.ownerRelease = true → state.resident.OwnerSpared cfg ccfg reqIds) :
    Engine.Untouched cfg (ResidentServer.Inv.KeptPage ccfg state.resident.capturer reqIds) state.engine
      ({ state.resident.capturer with cachedReqIds := some reqIds }.resetChangedRows cfg ccfg
        (state.resident.capturer.releaseVanished cfg state.engine reqIds) reqIds).2 := by
  refine .trans ?_ (inv.rows.reset_untouched bounded paged _)
  unfold releaseVanished
  split_ifs with release
  · exact inv.rows.vanished_untouched bounded (spared release)
  · exact .refl ..

section

variable (paged : cfg.pageRecall = true) (inv : Inv cfg ccfg full state)
  (admissible : ResidentServer.Admissible cfg ccfg state.resident (.forwardBegin batch))
  (spared : ResidentServer.Spared cfg ccfg state.resident (.forwardBegin batch))

include paged inv admissible spared

private theorem forwardBegin_tabled :
    let after := state.step cfg ccfg full (.forwardBegin batch)
    ∀ reqIds, after.resident.capturer.prevRowOccupant = some reqIds → ∀ (bi ri : ℕ),
      reqIds[bi]? = some ri → ∀ req ∈ after.resident.server.live, req.reqPoolIdx = ri → Tabled cfg after bi req := by
  obtain ⟨_, nonempty, bounded, _, alive⟩ := admissible
  have someRow : ({ state.resident with batch := batch } : ResidentServer).reqIds ≠ [] :=
    reqIds_ne_nil alive nonempty
  have length : ({ state.resident with batch := batch } : ResidentServer).reqIds.length = batch.length :=
    reqIds_length alive
  generalize ids : ({ state.resident with batch := batch } : ResidentServer).reqIds = current at someRow length
  intro after reqIds present bi ri row req mem index
  have capturer : after.resident.capturer =
      (state.resident.capturer.onForwardBegin cfg ccfg state.engine current).1 := by rw [← ids]; rfl
  have engine : after.engine = (state.resident.capturer.onForwardBegin cfg ccfg state.engine current).2 := by
    rw [← ids]; rfl
  have table : after.paged.residentIdPageTable bi =
      if bi ∈ state.resident.capturer.blankedRows ccfg current then [] else state.paged.residentIdPageTable bi := by
    rw [← ids]; rfl
  obtain ⟨counts, locs⟩ := onForwardBegin_rows cfg ccfg state.resident.capturer state.engine current bi
  rw [← capturer] at counts locs
  rcases onForwardBegin_cases cfg ccfg state.resident.capturer state.engine someRow with
    ⟨quiet, noted⟩ | ⟨allocated, changed, reset⟩
  · -- Nothing is blanked and nothing is released.
    have kept : bi ∉ state.resident.capturer.blankedRows ccfg current := by
      rw [blankedRows, if_pos]
      · exact not_mem_nil
      · cases shape : state.resident.capturer.allocated with
        | false => rfl
        | true => simp [noted shape]
    rw [if_neg kept] at counts locs table
    rw [capturer, quiet] at present
    refine (inv.tabled reqIds present bi ri row req mem index).frame counts locs table rfl
      (fun _ formed => ⟨formed, rfl⟩) fun _ _ _ _ _ => ?_
    rw [engine, quiet]
  · have blanked : state.resident.capturer.blankedRows ccfg current =
        state.resident.capturer.resetRows ccfg current := if_neg (by simp [allocated, changed, someRow])
    obtain ⟨_, occupants, _⟩ := resetChangedRows_rows cfg ccfg
      { state.resident.capturer with cachedReqIds := some current }
      (state.resident.capturer.releaseVanished cfg state.engine current) current
    rw [← reset, ← capturer, present] at occupants
    obtain rfl := Option.some.inj occupants
    rw [blanked] at counts locs table
    by_cases gone : bi ∈ state.resident.capturer.resetRows ccfg reqIds
    · rw [if_pos gone] at counts
      intro k below
      rw [counts, Nat.zero_div] at below
      exact absurd below (Nat.not_lt_zero k)
    · rw [if_neg gone] at counts locs table
      have inBatch := (List.getElem?_eq_some_iff.mp row).1
      obtain ⟨_, old, tracked, sameRow⟩ := kept_row (by omega) (by omega) gone
      refine (inv.tabled old tracked bi ri (sameRow.trans row) req mem index).frame counts locs table rfl
        (fun _ formed => ⟨formed, rfl⟩) fun page number formed first shown => ?_
      rw [engine, reset]
      have bound := (inv.rows.books.layout req mem).loc_lt formed
      rw [first] at bound
      exact (inv.begin_untouched paged (by omega) (ids ▸ spared)).entries 0 _ bound ⟨bi, gone, _, shown, rfl⟩

theorem forwardBegin : Inv cfg ccfg full (state.step cfg ccfg full (.forwardBegin batch)) := by
  have arrivals : NoArrivals cfg state.engine (state.step cfg ccfg full (.forwardBegin batch)).engine :=
    onForwardBegin_rule (NoArrivals cfg state.engine) (.refl cfg _)
      (fun _ locs none => none.trans (.release paged locs)) fun _ ri none => none.trans (.releaseOwned ri)
  refine ⟨inv.rows.forwardBegin paged admissible spared, ?_, inv.mirror, ?_,
    inv.forwardBegin_tabled paged admissible spared⟩
  · exact onForwardBegin_rule (PageCache cfg fun _ => True) inv.cache
      (fun _ locs cache => cache.release paged locs) fun _ ri cache => cache.releaseOwned ri
  · exact inv.held.frame arrivals (fun _ _ key => key.inMirror inv.rows.books) fun _ _ key => Or.inl key

end

end Begin

/-! ### After a forward -/

section End

/-- The engine with the ownership records of the side-band. -/
def noted (cfg : Config) (ccfg : CapturerConfig) (state : IndexServer) (topLogical : ℕ → Option (List ℕ)) :
    Engine Stamp :=
  Capturer.recordOwners cfg ccfg state.engine (state.resident.capturer.resolveIds ccfg state.resident.reqIds)
    (state.resident.forward topLogical) (state.resident.due ccfg)

theorem noted_tables (cfg : Config) (ccfg : CapturerConfig) (state : IndexServer) (topLogical : ℕ → Option (List ℕ)) :
    (noted cfg ccfg state topLogical).chunkCellLut = state.engine.chunkCellLut ∧
      (noted cfg ccfg state topLogical).gPages = state.engine.gPages :=
  recordOwners_frame cfg ccfg state.engine _ _ _

/-- What a side-band does to the engine and to the keys: one recall, and the copies of its pages. -/
structure Recalled (cfg : Config) (ccfg : CapturerConfig) (full : List ℕ) (state after : IndexServer)
    (topLogical : ℕ → Option (List ℕ)) : Prop where
  recalled : ∃ pairs, Engine.PageRecall cfg (noted cfg ccfg state topLogical) after.engine
    (state.resident.union cfg ccfg topLogical) pairs
  cache : PageCache cfg (fun _ => True) after.engine
  copied : after.indexReserveBuf = Engine.copyIndexPages cfg full state.indexHostMirror
    ((noted cfg ccfg state topLogical).newPages cfg (state.resident.union cfg ccfg topLogical)) state.indexReserveBuf
  blocks : ∀ bi, after.residentIdPageTableReserve bi = if bi ∈ state.resident.due ccfg then
      fun k => after.engine.reserveBlock cfg ((after.paged.residentIdPageTable bi).getD k 0)
    else state.residentIdPageTableReserve bi

/-- A selection that fits is recalled without raising, so its pages are copied. -/
private theorem recallIndex_eq (paged : cfg.pageRecall = true) (valid : state.engine.gPages.WellFormed cfg.maxBlocks)
    (fits : (uniquePages (state.resident.union cfg ccfg topLogical)).length ≤ cfg.maxBlocks) :
    state.recallIndex cfg ccfg (state.resident.forward topLogical) =
      ((noted cfg ccfg state topLogical).newPages cfg (state.resident.union cfg ccfg topLogical),
        decide (state.resident.due ccfg ≠ [])) := by
  have pool := (noted_tables cfg ccfg state topLogical).2
  obtain ⟨count, ok⟩ := Engine.recallGlobalPages_ok (pool ▸ valid) fits
  simp only [recallIndex]
  split_ifs with none empty
  · have idle : state.resident.due ccfg = [] := none
    simp only [union, unionLocs, idle, flatMap_nil, Engine.newPages_nil, ne_eq,
      not_true, decide_false]
  · have union : state.resident.union cfg ccfg topLogical = [] := empty
    have some : state.resident.due ccfg ≠ [] := none
    rw [union, Engine.newPages_nil, decide_eq_true some]
  · have some : state.resident.due ccfg ≠ [] := none
    rw [decide_eq_true some]
    cases shape : (noted cfg ccfg state topLogical).recallResidentGlobal cfg
        (state.resident.union cfg ccfg topLogical) with
    | mk after outcome =>
      obtain rfl : outcome = .ok count := by
        rw [Engine.recallResidentGlobal, if_pos paged] at shape
        rw [← ok, shape]
      simp only [noted, union, due, IndexServer.engine] at shape ⊢
      simp only [shape]

/-- A side-band, with what it does to the rows. -/
structure Ended (cfg : Config) (ccfg : CapturerConfig) (full : List ℕ) (state after : IndexServer)
    (topLogical : ℕ → Option (List ℕ)) : Prop extends Recalled cfg ccfg full state after topLogical where
  ranged : Engine.LocsInRange cfg (state.resident.union cfg ccfg topLogical)
  rewritten : ResidentServer.Inv.Rewritten ccfg state.resident topLogical after.resident.capturer
  refreshed : ResidentServer.Inv.Refreshed cfg ccfg state.resident topLogical after.engine
  table : ∀ bi, after.paged.residentIdPageTable bi = state.paged.nextTable ccfg topLogical bi

theorem forwardEnd_ended (paged : cfg.pageRecall = true) (sized : ccfg.c4LogicalSize = cfg.mirrorChunks)
    (inv : Inv cfg ccfg full state)
    (admissible : ResidentServer.Admissible cfg ccfg state.resident (.forwardEnd topLogical)) :
    Ended cfg ccfg full state (state.step cfg ccfg full (.forwardEnd topLogical)) topLogical := by
  have now := inv.rows.current admissible.1
  have ranged : Engine.LocsInRange cfg (state.resident.union cfg ccfg topLogical) :=
    ResidentServer.Inv.union_ranged sized inv.rows now
  have fits := ResidentServer.Inv.union_fits sized inv.rows now admissible
  obtain ⟨lut, pool⟩ := noted_tables cfg ccfg state topLogical
  have cache : PageCache cfg (fun _ => True) (noted cfg ccfg state topLogical) := inv.cache.congr lut pool
  have engine : (state.step cfg ccfg full (.forwardEnd topLogical)).engine =
      ((noted cfg ccfg state topLogical).recallGlobalPages cfg (state.resident.union cfg ccfg topLogical)).1 :=
    onForwardEnd_engine ccfg state.resident.capturer state.engine state.resident.reqIds _ paged
  have index := recallIndex_eq paged inv.cache.pool fits
  obtain ⟨capturer, after, result, rewritten, refreshed⟩ := inv.rows.onForwardEnd_spec sized now paged admissible
  refine ⟨⟨?_, ?_, ?_, fun bi => ?_⟩, ranged, ?_, ?_, fun _ => rfl⟩
  · rw [engine]
    exact Engine.recallGlobalPages_spec cache.pool ranged
  · rw [engine]
    exact cache.afterRecall ranged
  · simp only [step, index]
  · simp only [step, index, decide_eq_true_eq]
    exact if_congr (and_iff_right_of_imp fun due => ne_nil_of_mem due) rfl rfl
  · rwa [show (state.step cfg ccfg full (.forwardEnd topLogical)).resident.capturer =
      capturer from congrArg Prod.fst result]
  · rwa [show (state.step cfg ccfg full (.forwardEnd topLogical)).engine = after from congrArg (·.2.1) result]

section

variable {after : IndexServer} (ended : Ended cfg ccfg full state after topLogical) (inv : Inv cfg ccfg full state)

include ended inv

/-- The recall copies only pages whose keys are all in the mirror. -/
theorem held_ended (sized : ccfg.c4LogicalSize = cfg.mirrorChunks)
    (admissible : ResidentServer.Admissible cfg ccfg state.resident (.forwardEnd topLogical))
    (safe : IndexSafe cfg ccfg state (.forwardEnd topLogical)) :
    KeysHeld cfg full after.engine after.indexReserveBuf (Keyed state.resident.server.live) := by
  obtain ⟨pairs, spec⟩ := ended.recalled
  obtain ⟨lut, pool⟩ := noted_tables cfg ccfg state topLogical
  have fits := ResidentServer.Inv.union_fits sized inv.rows (inv.rows.current admissible.1) admissible
  have valid : (noted cfg ccfg state topLogical).gPages.WellFormed cfg.maxBlocks := pool ▸ inv.cache.pool
  have enough : ((noted cfg ccfg state topLogical).pageServing cfg
      (state.resident.union cfg ccfg topLogical)).exhausted = false :=
    SlotPool.serve_not_exhausted Engine.pageMisses_selected valid fits
  have before : KeysHeld cfg full (noted cfg ccfg state topLogical) state.indexReserveBuf
      (Keyed state.resident.server.live) :=
    inv.held.frame (.congr lut) (fun _ _ key => key.inMirror inv.rows.books) fun _ _ key => Or.inl key
  rw [ended.copied]
  refine before.copy spec ended.cache ended.ranged enough (fun _ _ key => key.inMirror inv.rows.books) ?_
  rintro id chunk ⟨req, mem, rfl, number, formed, rfl⟩ missed layer offloaded
  rw [Engine.pageMisses, lut] at missed
  refine inv.mirror req mem number ?_ layer offloaded
  by_contra late
  exact safe.2 req mem number formed (not_lt.mp late) missed

variable (now : InForward ccfg state.resident)
  (spared : ResidentServer.Spared cfg ccfg state.resident (.forwardEnd topLogical))
  (row : state.resident.occupants[bi]? = some req)

include now spared row

/-- A row that is not rewritten keeps its pages, and they keep their blocks. -/
private theorem tabled_kept
    (idle : (if bi ∈ state.resident.due ccfg then (state.resident.forward topLogical).chosen bi else none) = none) :
    Tabled cfg after bi req := by
  have mem := mem_live_of_occupant (mem_of_getElem? row)
  obtain ⟨pairs, spec⟩ := ended.recalled
  obtain ⟨lut, pool⟩ := noted_tables cfg ccfg state topLogical
  have sameRow : state.resident.capturer.nextRow ccfg (state.resident.forward topLogical) (state.resident.due ccfg) bi =
      state.resident.capturer.residentPoolLocBuf bi := by simp only [nextRow, idle]
  have sameTable : after.paged.residentIdPageTable bi = state.paged.residentIdPageTable bi := by
    rw [ended.table, PagedServer.nextTable]
    split
    · rfl
    · next pages chosen => exact absurd (chosen.symm.trans idle) (Option.some_ne_none pages)
  intro k below
  rw [ended.rewritten.counted, ended.rewritten.rows, sameRow, ← inv.rows.counted] at below
  have allocated : state.resident.capturer.allocated = true := by
    by_contra missing
    rw [inv.rows.counted, (inv.rows.blank (Bool.not_eq_true _ ▸ missing)).2 bi] at below
    exact absurd below (Nat.not_lt_zero k)
  obtain ⟨shown, ⟨number, formed, first⟩, home⟩ := inv.tabled _ (now.tracked allocated) bi _
    (reqIds_row row) req mem rfl k below
  have bound := (inv.rows.books.layout req mem).inMirror _ (inv.page_mem mem formed first)
  have home' : InBlock cfg after.engine ((state.paged.residentIdPageTable bi).getD k 0)
      (state.residentIdPageTableReserve bi k) := by
    refine spec.inBlock_kept ended.ranged bound (home.congr (by rw [lut])) fun evicted => ?_
    rw [pool, Engine.pageMisses, lut] at evicted
    refine spared.2.1 bi (now.row_lt row) _ (sameRow.symm ▸ shown) _ evicted ?_
    simp only [c4PageSize]
    omega
  rw [ended.rewritten.rows, sameRow, sameTable, ended.blocks, sameTable]
  refine ⟨shown, ⟨number, formed, first⟩, ?_⟩
  split_ifs
  · simpa only [home'.reserveBlock bound] using home'
  · exact home'

variable (sized : ccfg.c4LogicalSize = cfg.mirrorChunks) (safe : IndexSafe cfg ccfg state (.forwardEnd topLogical))

include sized safe

/-- A row that is rewritten gets the blocks of its new pages. -/
private theorem tabled_selected (due : bi ∈ state.resident.due ccfg) {topPages : List ℕ}
    (chosen : (state.resident.forward topLogical).chosen bi = some topPages) : Tabled cfg after bi req := by
  have mem := mem_live_of_occupant (mem_of_getElem? row)
  have layout := inv.rows.books.layout req mem
  have serves := forward_serves row topLogical
  obtain ⟨pairs, spec⟩ := ended.recalled
  obtain ⟨lut, pool⟩ := noted_tables cfg ccfg state topLogical
  have newRow : state.resident.capturer.nextRow ccfg (state.resident.forward topLogical) (state.resident.due ccfg) bi =
      (state.resident.forward topLogical).selectedLocs ccfg bi topPages := by
    simp only [nextRow, due, chosen, ↓reduceIte]
  have newTable : after.paged.residentIdPageTable bi =
      (state.resident.forward topLogical).selectedPages ccfg bi topPages := by
    rw [ended.table, PagedServer.nextTable]
    split
    · next none => exact absurd (none.symm.trans ((if_pos due).trans chosen)) (Option.some_ne_none topPages).symm
    · next found same => rw [Option.some.inj (same.symm.trans ((if_pos due).trans chosen))]; rfl
  intro k below
  rw [ended.rewritten.counted, ended.rewritten.rows, newRow, Forward.selectedLocs_length,
    Nat.mul_div_cancel _ (by decide)] at below
  generalize logical : topPages[k] = number
  obtain ⟨inHistory, early⟩ := safe.1 bi due topPages chosen req row number (logical ▸ getElem_mem below)
  have phys : min ((state.resident.forward topLogical).physPage bi number) (ccfg.c4LogicalSize / c4PageSize - 1) =
      req.pages.getD number 0 := by
    have held := layout.inMirror _ (layout.page_mem inHistory)
    rw [Request.loc_page, Engine.firstChunk_page] at held
    rw [serves.pages, sized]
    simp only [Config.mirrorChunks, c4PageSize] at held ⊢
    omega
  have first : req.loc (number * c4PageSize) = req.pages.getD number 0 * c4PageSize := by
    rw [Request.loc, Engine.firstChunk_page, Engine.firstChunk_mod, Nat.add_zero]
  have entry : ((state.resident.forward topLogical).selectedPages ccfg bi topPages).getD k 0 =
      req.pages.getD number 0 := by
    rw [Forward.selectedPages, getD_eq_getElem _ _ (by rwa [length_map]), getElem_map, logical, phys]
  have shown : ((req.pages.getD number 0 * c4PageSize : ℕ) : ℤ) ∈
      (state.resident.forward topLogical).selectedLocs ccfg bi topPages := by
    refine mem_flatMap.mpr ⟨number, logical ▸ getElem_mem below, ?_⟩
    refine mem_map.mpr ⟨0, mem_range.mpr (by decide), ?_⟩
    rw [serves.history, if_pos (by rwa [Nat.add_zero]), phys, Nat.add_zero]
  obtain ⟨mine, mapped⟩ := inv.rows.nextRow_mapped sized now spared ended.refreshed row (newRow.symm ▸ shown)
  rw [Engine.firstChunk_page] at mine
  obtain ⟨block, home⟩ := ended.cache.inBlock mapped
    (spec.below_kept ended.ranged (pool ▸ inv.cache.pool) (by rwa [lut, ← first]))
  rw [ended.rewritten.rows, newRow, newTable, ended.blocks, if_pos due, newTable]
  simp only [entry, home.reserveBlock (layout.inMirror _ mine)]
  exact ⟨shown, ⟨number * c4PageSize, inHistory, first⟩, home⟩

theorem tabled_ended : Tabled cfg after bi req := by
  by_cases due : bi ∈ state.resident.due ccfg
  · cases chosen : (state.resident.forward topLogical).chosen bi with
    | none => exact inv.tabled_kept ended now spared row ((if_pos due).trans chosen)
    | some topPages => exact inv.tabled_selected ended now spared row sized safe due chosen
  · exact inv.tabled_kept ended now spared row (if_neg due)

end

variable (paged : cfg.pageRecall = true) (sized : ccfg.c4LogicalSize = cfg.mirrorChunks)
  (inv : Inv cfg ccfg full state)
  (admissible : ResidentServer.Admissible cfg ccfg state.resident (.forwardEnd topLogical))
  (spared : ResidentServer.Spared cfg ccfg state.resident (.forwardEnd topLogical))
  (safe : IndexSafe cfg ccfg state (.forwardEnd topLogical))

include paged sized inv admissible spared safe

theorem forwardEnd : Inv cfg ccfg full (state.step cfg ccfg full (.forwardEnd topLogical)) := by
  have now := inv.rows.current admissible.1
  have ended := inv.forwardEnd_ended paged sized admissible
  have held := inv.held_ended ended sized admissible safe
  refine ⟨inv.rows.forwardEnd paged sized admissible spared, ended.cache, inv.mirror, held, ?_⟩
  intro reqIds present bi ri row req mem index
  have noted := ended.rewritten.occupants.symm.trans present
  have allocated : state.resident.capturer.allocated = true := by
    by_contra missing
    rw [(inv.rows.blank (Bool.not_eq_true _ ▸ missing)).1] at noted
    contradiction
  obtain rfl := Option.some.inj ((now.tracked allocated).symm.trans noted)
  obtain ⟨occupant, found, sameIndex⟩ := Option.map_eq_some_iff.mp (by rwa [reqIds, getElem?_map] at row)
  have live := mem_live_of_occupant (mem_of_getElem? found)
  obtain rfl := eq_of_index inv.rows.indices live mem (sameIndex.trans index.symm)
  exact inv.tabled_ended ended now spared found sized safe

private theorem scoresRight : ScoresRight cfg full (state.step cfg ccfg full (.forwardEnd topLogical)) := by
  have now := inv.rows.current admissible.1
  have ended := inv.forwardEnd_ended paged sized admissible
  intro bi inBatch k below page block
  obtain ⟨req, _, row⟩ := now.occupant_of_row inBatch
  obtain ⟨_, _, home⟩ := inv.tabled_ended ended now spared row sized safe k below
  refine ⟨home.bound, fun layer inside offloaded id chunk key onPage => ?_⟩
  exact inv.held_ended ended sized admissible safe id chunk block key (onPage ▸ home) layer inside offloaded

end End

theorem next (own : cfg.ownReserve = true) (paged : cfg.pageRecall = true)
    (sized : ccfg.c4LogicalSize = cfg.mirrorChunks) (inv : Inv cfg ccfg full state) {op : ResidentOp}
    (admissible : ResidentServer.Admissible cfg ccfg state.resident op)
    (spared : Spared cfg ccfg state.resident op) (safe : IndexSafe cfg ccfg state op) :
    Inv cfg ccfg full (state.step cfg ccfg full op) := by
  cases op with
  | commit reqPoolIdx promptLen pages => exact inv.commit admissible spared
  | takePage id page => exact inv.takePage admissible
  | finish id => exact inv.finish admissible
  | forwardBegin batch => exact inv.forwardBegin paged admissible spared
  | decode rows => exact inv.decode own admissible.2 safe
  | forwardEnd topLogical => exact inv.forwardEnd paged sized admissible spared safe

end Inv

/-- In every run in which side-bands spare the published pages and the keys, after every forward each row of
the batch is scored with the keys of its pages, in every offloaded layer. -/
theorem index_scores_right {cfg : Config} {ccfg : CapturerConfig} (own : cfg.ownReserve = true)
    (paged : cfg.pageRecall = true) (sized : ccfg.c4LogicalSize = cfg.mirrorChunks) (full : List ℕ)
    (prebuilt : Bool) (history : List ResidentOp) (topLogical : ℕ → Option (List ℕ))
    (allowed : Along (step cfg ccfg full)
      (fun state op => ResidentServer.Admissible cfg ccfg state.resident op ∧
        ResidentServer.Spared cfg ccfg state.resident op ∧ IndexSafe cfg ccfg state op)
      (init prebuilt) (history ++ [.forwardEnd topLogical])) :
    ScoresRight cfg full (run (step cfg ccfg full) (init prebuilt) (history ++ [.forwardEnd topLogical])) := by
  obtain ⟨before, last, _⟩ := along_append.mp allowed
  have inv : Inv cfg ccfg full (run (step cfg ccfg full) (init prebuilt) history) :=
    before.invariant (Inv.init cfg ccfg full prebuilt)
      fun _ _ inv ok => inv.next own paged sized ok.1 ok.2.1 ok.2.2
  rw [run_append]
  exact inv.scoresRight paged sized last.1 last.2.1 last.2.2

/-- A prompt whose last page is not full is recalled, decode adds a key to that page, and another request joins. -/
def joining : List ResidentOp :=
  [.commit 0 16 [1], .forwardBegin [0], .decode [.idle 0 17], .forwardEnd fun _ => some [0],
    .forwardBegin [0], .decode [.forms 0], .forwardEnd fun _ => some [0],
    .commit 1 12 [2], .forwardBegin [0, 1], .decode [.forms 0, .idle 1 13]]

theorem index_scores_right_on_joining :
    let cfg := { Config.small 3 10 2 with globalMode := true, pageRecall := true, lutTruth := true }
    ScoresRight cfg [1] (run (step cfg ResidentServer.smallCapturer [1]) (init true)
      (joining ++ [.forwardEnd fun _ => some [0]])) :=
  index_scores_right (by decide) (by decide) (by decide) [1] true joining _ (by decide)

/-- The 64 chunks of a prompt fill page 1, so the next chunk is the first of page 2. Decode stores it in the
decode region, and the table names the block of its decode cell, which is the sink block. -/
theorem decode_page_has_no_block :
    let cfg := { Config.small 3 10 1 with globalMode := true, pageRecall := true, localfix := true }
    let history : List ResidentOp := [.commit 0 256 [1], .takePage 0 2,
      .forwardBegin [0], .decode [.forms 0], .forwardEnd fun _ => some [1]]
    Along (step cfg ResidentServer.smallCapturer [])
        (fun state op => ResidentServer.Admissible cfg ResidentServer.smallCapturer state.resident op)
        (init true) history ∧
      ¬ ScoresRight cfg [] (run (step cfg ResidentServer.smallCapturer []) (init true) history) := by
  refine ⟨by decide, fun scores => ?_⟩
  exact absurd (scores 0 (by decide) 0 (by decide)).1 (by decide)

end IndexServer

end FlashMemory
