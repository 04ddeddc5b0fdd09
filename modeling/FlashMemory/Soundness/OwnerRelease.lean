import FlashMemory.Soundness.PageClaims

/-! # Owner release

With `OWNER_RELEASE` the capturer notes which pages each index recalled, and when an index is missing
from the next batch, it gives all of them back. A request is not told apart from an earlier one with the
same index. If an index is taken again before a batch has gone without it, the records of both requests
stay in one set, and the pages of the first one, which may long belong to others, go when the second one
ends. As long as that does not happen, and the buffers exist before the first forward, the release is exact:
it touches no page that a live request recalled, and it leaves no record of a request that ended.
-/

namespace FlashMemory

open List Engine Capturer ResidentServer

/-! ## What the calls touch -/

namespace Capturer

variable {α : Type*} {cfg : Config} {ccfg : CapturerConfig} {capturer : Capturer} {engine : Engine α}
  {reqIds : List ℕ}

/-- The pages that the calls of `release_owned_pages` pop and clear. -/
def ownedReleases (cfg : Config) (capturer : Capturer) (engine : Engine α) (reqIds : List ℕ) : List ℕ :=
  (capturer.vanished cfg reqIds).flatMap fun (ri : ℕ) => (engine.reqOwnedPages.get? (ri : ℤ)).getD []

theorem mem_ownedReleases {page : ℕ} : page ∈ capturer.ownedReleases cfg engine reqIds ↔
    ∃ ri ∈ capturer.vanished cfg reqIds, engine.Records ri page := by
  rw [ownedReleases, mem_flatMap]
  rfl

/-- With owner release a row reset releases nothing. -/
theorem resetChangedRows_engine_of_owner (release : cfg.ownerRelease = true) :
    (capturer.resetChangedRows cfg ccfg engine reqIds).2 = engine := by
  simp only [resetChangedRows, releaseRows, release, Bool.true_or, ↓reduceIte]

end Capturer

/-! ## What requests have recalled -/

/-- A request, under its index, recalled a page. -/
structure PageRecalled where
  id : ℕ
  reqPoolIdx : ℕ
  page : ℕ
deriving DecidableEq, Repr

/-- A server with the history of its recalls. -/
structure OwnedServer where
  resident : ResidentServer
  recalled : List PageRecalled

namespace ResidentServer

/-- What the next `on_forward_end` recalls for the requests of its due rows. -/
def recalls (cfg : Config) (ccfg : CapturerConfig) (state : ResidentServer)
    (topLogical : ℕ → Option (List ℕ)) : List PageRecalled :=
  (state.due ccfg).flatMap fun bi =>
    match state.occupants[bi]? with
    | none => []
    | some req =>
      (uniquePages (Capturer.keptOfRow cfg ccfg state.server.engine
        (state.capturer.resolveIds ccfg state.reqIds) (state.forward topLogical) bi)).map
          fun page => ⟨req.id, req.reqPoolIdx, page⟩

/-- Requests leave the batch only when they end. -/
def Stays (state : ResidentServer) : ResidentOp → Prop
  | .forwardBegin batch => ∀ req ∈ state.server.live, req.id ∈ state.batch → req.id ∈ batch
  | _ => True

instance decidableStays (state : ResidentServer) : ∀ op, Decidable (Stays state op) := by
  rintro (_ | _) <;> dsimp only [Stays] <;> infer_instance

/-- The pages that owner release touches when the forward begins. -/
def touched (cfg : Config) (state : ResidentServer) (batch : List ℕ) : List ℕ :=
  state.capturer.ownedReleases cfg state.server.engine { state with batch := batch }.reqIds

variable {cfg : Config} {ccfg : CapturerConfig} {state : ResidentServer} {batch : List ℕ}

/-- Owner release is all that the beginning of a forward does to the engine. -/
theorem Tracked.forwardBegin_engine (release : cfg.ownerRelease = true) (tracked : Tracked cfg ccfg state)
    (scheduled : Scheduled cfg ccfg state (.forwardBegin batch)) :
    (state.step cfg ccfg (.forwardBegin batch)).server.engine =
      state.capturer.releaseVanished cfg state.server.engine { state with batch := batch }.reqIds := by
  obtain ⟨_, nonempty, _, _, alive⟩ := scheduled
  have someRow : ({ state with batch := batch } : ResidentServer).reqIds ≠ [] := reqIds_ne_nil alive nonempty
  rcases onForwardBegin_cases cfg ccfg state.capturer state.server.engine someRow with
    ⟨result, quiet⟩ | ⟨_, _, result⟩
  · have none : state.capturer.vanished cfg { state with batch := batch }.reqIds = [] := by
      refine eq_nil_iff_forall_not_mem.mpr fun ri gone => ?_
      obtain ⟨carried, missing⟩ := mem_vanished.mp gone
      rw [noted, quiet (tracked.early release)] at carried
      exact missing carried
    rw [releaseVanished, if_pos release, none]
    exact congrArg Prod.snd result
  · exact (congrArg Prod.snd result).trans (resetChangedRows_engine_of_owner release)

/-- What is recorded once a forward has begun belongs to an index of its batch. -/
theorem Tracked.records_forwardBegin (release : cfg.ownerRelease = true) (paged : cfg.pageRecall = true)
    (tracked : Tracked cfg ccfg state) (scheduled : Scheduled cfg ccfg state (.forwardBegin batch)) {ri page : ℕ} :
    (state.step cfg ccfg (.forwardBegin batch)).server.engine.Records ri page ↔
      ri ∈ ({ state with batch := batch } : ResidentServer).reqIds ∧ state.server.engine.Records ri page := by
  rw [tracked.forwardBegin_engine release scheduled, records_releaseVanished paged]
  refine and_congr_left fun recorded => ?_
  have carried := (tracked.listed ri page recorded).2
  simp only [release, true_imp_iff, mem_vanished, carried, true_and, not_not]

end ResidentServer

namespace OwnedServer

variable {cfg : Config} {ccfg : CapturerConfig} {state : OwnedServer}

def init (prebuilt : Bool) : OwnedServer := ⟨ResidentServer.init prebuilt, []⟩

def step (cfg : Config) (ccfg : CapturerConfig) (state : OwnedServer) : ResidentOp → OwnedServer
  | .forwardEnd topLogical =>
    ⟨state.resident.step cfg ccfg (.forwardEnd topLogical),
      state.recalled ++ state.resident.recalls cfg ccfg topLogical⟩
  | op => ⟨state.resident.step cfg ccfg op, state.recalled⟩

/-- The beginning of a forward releases exactly what the requests that ended have recalled. -/
structure ReleasesExactly (cfg : Config) (ccfg : CapturerConfig) (state : OwnedServer) (batch : List ℕ) :
    Prop where
  /-- A page that a live request owns and has recalled is not touched. -/
  spares : ∀ req ∈ state.resident.server.live, ∀ page ∈ req.pages,
    ⟨req.id, req.reqPoolIdx, page⟩ ∈ state.recalled → page ∉ state.resident.touched cfg batch
  /-- A request of the last batch has ended: all pages recorded for it are given back. -/
  covers : ∀ entry ∈ state.recalled, entry.id ∈ state.resident.batch →
    entry.id ∉ state.resident.server.live.map Request.id → entry.page ∈ state.resident.touched cfg batch
  /-- A touched page loses its block and its entries, any other page keeps them. -/
  drops : Engine.Drops cfg (· ∈ state.resident.touched cfg batch) state.resident.server.engine
    (state.resident.step cfg ccfg (.forwardBegin batch)).server.engine
  /-- What is still recorded was recalled by the live request with that index. -/
  records : ∀ ri page, (state.resident.step cfg ccfg (.forwardBegin batch)).server.engine.Records ri page →
    ∃ req ∈ state.resident.server.live, req.id ∈ batch ∧ req.reqPoolIdx = ri ∧
      ⟨req.id, ri, page⟩ ∈ state.recalled

/-! ## The invariant -/

structure Owned (cfg : Config) (ccfg : CapturerConfig) (state : OwnedServer) : Prop where
  tracked : state.resident.Tracked cfg ccfg
  numbered : ∀ entry ∈ state.recalled, entry.id < state.resident.server.nextId
  recorded : ∀ entry ∈ state.recalled, entry.id ∈ state.resident.batch →
    state.resident.server.engine.Records entry.reqPoolIdx entry.page
  mine : ∀ entry ∈ state.recalled, ∀ req ∈ state.resident.server.live, req.id = entry.id →
    req.reqPoolIdx = entry.reqPoolIdx ∧ req.Uses entry.page ∧ req.id ∈ state.resident.batch
  /-- The index of a request that ended since the last forward is not taken. -/
  ended : ∀ entry ∈ state.recalled, entry.id ∈ state.resident.batch →
    entry.id ∉ state.resident.server.live.map Request.id →
    ∀ req ∈ state.resident.server.live, req.reqPoolIdx ≠ entry.reqPoolIdx
  source : ∀ ri page, state.resident.server.engine.Records ri page →
    ∃ entry ∈ state.recalled, entry.id ∈ state.resident.batch ∧ entry.reqPoolIdx = ri ∧ entry.page = page

namespace Owned

theorem init (cfg : Config) (ccfg : CapturerConfig) : Owned cfg ccfg (OwnedServer.init true) where
  tracked := .init cfg ccfg fun _ => rfl
  numbered _ mem := by contradiction
  recorded _ mem := by contradiction
  mine _ mem := by contradiction
  ended _ mem := by contradiction
  source _ _ recorded := by contradiction

/-! ### Between forwards -/

section

variable (owned : Owned cfg ccfg state)
include owned

theorem commit {reqPoolIdx promptLen : ℕ} {pages : List ℕ}
    (scheduled : state.resident.Scheduled cfg ccfg (.commit reqPoolIdx promptLen pages))
    (fresh : state.resident.FreshIndex (.commit reqPoolIdx promptLen pages)) :
    Owned cfg ccfg (state.step cfg ccfg (.commit reqPoolIdx promptLen pages)) := by
  have records := commitEngine_reqOwnedPages cfg state.resident.server.engine
    ⟨state.resident.server.nextId, reqPoolIdx, promptLen, pages, promptLen / 4⟩
  refine ⟨owned.tracked.commit scheduled fresh, ?_, ?_, ?_, ?_, ?_⟩
  · exact fun entry mem => Nat.lt_succ_of_lt (owned.numbered entry mem)
  · exact fun entry mem inBatch => (records_congr records).mpr (owned.recorded entry mem inBatch)
  · intro entry mem
    refine forall_mem_cons.mpr ⟨fun same => ?_, owned.mine entry mem⟩
    exact absurd same (owned.numbered entry mem).ne'
  · intro entry mem inBatch gone
    have before := owned.ended entry mem inBatch fun alive => gone (mem_cons_of_mem _ alive)
    refine forall_mem_cons.mpr ⟨fun same => ?_, before⟩
    have carried := (owned.tracked.listed _ _ (owned.recorded entry mem inBatch)).2
    exact fresh ((show reqPoolIdx = entry.reqPoolIdx from same) ▸ carried)
  · exact fun ri page recorded => owned.source ri page ((records_congr records).mp recorded)

theorem takePage {id page : ℕ} (scheduled : state.resident.Scheduled cfg ccfg (.takePage id page)) :
    Owned cfg ccfg (state.step cfg ccfg (.takePage id page)) := by
  refine ⟨owned.tracked.takePage scheduled, owned.numbered, owned.recorded, ?_, ?_, owned.source⟩
  · intro entry mem grown present
    obtain ⟨req, old, rfl⟩ := mem_map.mp present
    intro same
    split_ifs at same ⊢
    · obtain ⟨index, uses, inBatch⟩ := owned.mine entry mem req old same
      exact ⟨index, (Tracked.uses_takePage (owned.tracked.books.layout req old) page).mpr uses, inBatch⟩
    · exact owned.mine entry mem req old same
  · intro entry mem inBatch gone grown present
    obtain ⟨req, old, rfl⟩ := mem_map.mp present
    have before := owned.ended entry mem inBatch (fun alive => gone ?_) req old
    · split_ifs <;> exact before
    · obtain ⟨other, present', same⟩ := mem_map.mp alive
      refine mem_map.mpr ⟨_, mem_map_of_mem present', ?_⟩
      split_ifs <;> exact same

theorem finish {id : ℕ} (idle : state.resident.running = false) :
    Owned cfg ccfg (state.step cfg ccfg (.finish id)) := by
  have kept := fun req (mem : req ∈ state.resident.server.live.filter (·.id ≠ id)) =>
    mem_filter.mp mem
  refine ⟨owned.tracked.finish idle, owned.numbered, owned.recorded, ?_, ?_, owned.source⟩
  · exact fun entry mem req present => owned.mine entry mem req (kept req present).1
  · intro entry mem inBatch gone req present index
    obtain ⟨alive, other⟩ := kept req present
    refine owned.ended entry mem inBatch (fun before => ?_) req alive index
    -- The request that just ended had the index, and indices are not shared.
    obtain ⟨holder, present', same⟩ := mem_map.mp before
    obtain ⟨index', _, _⟩ := owned.mine entry mem holder present' same
    obtain rfl := eq_of_index owned.tracked.indices alive present' (index.trans index'.symm)
    exact gone (mem_map.mpr ⟨req, present, same⟩)

/-! ### During a forward -/

theorem decode {rows : List BatchRow}
    (scheduled : state.resident.Scheduled cfg ccfg (.decode rows)) :
    Owned cfg ccfg (state.step cfg ccfg (.decode rows)) := by
  have records := storeDecodeAllLayers_reqOwnedPages cfg state.resident.server.engine
    (state.resident.server.rows rows)
  have now := owned.tracked.current scheduled.1
  refine ⟨owned.tracked.decode scheduled, owned.numbered, ?_, ?_, ?_, ?_⟩
  · exact fun entry mem inBatch => (records_congr records).mpr (owned.recorded entry mem inBatch)
  · intro entry mem grown present
    obtain ⟨req, old, rfl⟩ := mem_map.mp present
    intro same
    split_ifs at same ⊢
    · obtain ⟨index, ⟨number, formed, onPage⟩, inBatch⟩ := owned.mine entry mem req old same
      exact ⟨index, ⟨number, Nat.lt_succ_of_lt formed, onPage⟩, inBatch⟩
    · exact owned.mine entry mem req old same
  · intro entry mem inBatch gone
    obtain ⟨req, present, same⟩ := mem_map.mp (now.alive _ inBatch)
    refine absurd (mem_map.mpr ⟨_, mem_map_of_mem present, ?_⟩) gone
    split_ifs <;> exact same
  · exact fun ri page recorded => owned.source ri page ((records_congr records).mp recorded)

end

section Begin

variable {batch : List ℕ} (release : cfg.ownerRelease = true) (paged : cfg.pageRecall = true)
  (owned : Owned cfg ccfg state) (scheduled : state.resident.Scheduled cfg ccfg (.forwardBegin batch))
  (stays : state.resident.Stays (.forwardBegin batch))

include release paged owned scheduled stays

/-- A record that survives was made for a live request: the index of one that ended is not in the batch. -/
theorem records_live {ri page : ℕ}
    (recorded : (state.resident.step cfg ccfg (.forwardBegin batch)).server.engine.Records ri page) :
    ∃ req ∈ state.resident.server.live, req.id ∈ batch ∧ req.reqPoolIdx = ri ∧
      ⟨req.id, ri, page⟩ ∈ state.recalled := by
  obtain ⟨present, before⟩ := (owned.tracked.records_forwardBegin release paged scheduled).mp recorded
  obtain ⟨entry, mem, inBatch, rfl, rfl⟩ := owned.source ri page before
  obtain ⟨holder, here, _, index⟩ := (mem_reqIds owned.tracked.books batch).mp present
  by_cases alive : entry.id ∈ state.resident.server.live.map Request.id
  · obtain ⟨req, live, same⟩ := mem_map.mp alive
    refine ⟨req, live, stays req live (same ▸ inBatch), (owned.mine entry mem req live same).1, ?_⟩
    rw [same]
    exact mem
  · exact absurd index (owned.ended entry mem inBatch alive holder here)

theorem releasesExactly : ReleasesExactly cfg ccfg state batch := by
  have tracked := owned.tracked
  refine ⟨?_, ?_, ?_, fun ri page => owned.records_live release paged scheduled stays⟩
  · intro req live page _ recalled gone
    obtain ⟨ri, vanished, recorded⟩ := mem_ownedReleases.mp gone
    obtain ⟨_, uses, inBatch⟩ := owned.mine _ recalled req live rfl
    have index := tracked.exclusive ri page (Or.inl recorded) req live inBatch uses
    exact (mem_vanished.mp vanished).2 ((mem_reqIds tracked.books batch).mpr
      ⟨req, live, stays req live inBatch, index⟩)
  · intro entry mem inBatch ended
    have recorded := owned.recorded entry mem inBatch
    refine mem_ownedReleases.mpr ⟨entry.reqPoolIdx, mem_vanished.mpr ⟨?_, fun present => ?_⟩, recorded⟩
    · exact (tracked.listed _ _ recorded).2
    · obtain ⟨holder, here, _, index⟩ := (mem_reqIds tracked.books batch).mp present
      exact owned.ended entry mem inBatch ended holder here index
  · rw [tracked.forwardBegin_engine release scheduled, releaseVanished, if_pos release]
    exact (foldl_releaseOwned_drops release paged _).congr fun page => mem_ownedReleases.symm

theorem forwardBegin : Owned cfg ccfg (state.step cfg ccfg (.forwardBegin batch)) := by
  have tracked := owned.tracked
  have alive := scheduled.2.2.2.2
  refine ⟨tracked.forwardBegin paged scheduled, owned.numbered, ?_, ?_, ?_, ?_⟩
  · intro entry mem inBatch
    obtain ⟨req, present, same⟩ := mem_map.mp (alive _ inBatch)
    obtain ⟨index, _, before⟩ := owned.mine entry mem req present same
    refine (tracked.records_forwardBegin release paged scheduled).mpr ⟨?_, owned.recorded entry mem (same ▸ before)⟩
    exact (mem_reqIds tracked.books batch).mpr ⟨req, present, stays req present before, index⟩
  · intro entry mem req present same
    obtain ⟨index, uses, before⟩ := owned.mine entry mem req present same
    exact ⟨index, uses, stays req present before⟩
  · exact fun entry _ inBatch gone => absurd (alive _ inBatch) gone
  · intro ri page recorded
    obtain ⟨req, _, inBatch, _, recalled⟩ := owned.records_live release paged scheduled stays recorded
    exact ⟨_, recalled, inBatch, rfl, rfl⟩

end Begin

private theorem mem_recalls {topLogical : ℕ → Option (List ℕ)} {resident : ResidentServer} {entry : PageRecalled} :
    entry ∈ resident.recalls cfg ccfg topLogical ↔ ∃ bi ∈ resident.due ccfg, ∃ req,
      resident.occupants[bi]? = some req ∧ entry.id = req.id ∧ entry.reqPoolIdx = req.reqPoolIdx ∧
      entry.page ∈ uniquePages (keptOfRow cfg ccfg resident.server.engine
        (resident.capturer.resolveIds ccfg resident.reqIds) (resident.forward topLogical) bi) := by
  simp only [recalls, mem_flatMap]
  refine exists_congr fun bi => and_congr_right fun _ => ?_
  cases resident.occupants[bi]? with
  | none => simp
  | some req =>
    simp only [mem_map, Option.some.injEq, exists_eq_left']
    constructor
    · rintro ⟨page, kept, rfl⟩
      exact ⟨rfl, rfl, kept⟩
    · rintro ⟨id, index, kept⟩
      exact ⟨entry.page, kept, by rw [← id, ← index]⟩

theorem forwardEnd (release : cfg.ownerRelease = true) (paged : cfg.pageRecall = true)
    (sized : ccfg.c4LogicalSize = cfg.mirrorChunks) (owned : Owned cfg ccfg state)
    {topLogical : ℕ → Option (List ℕ)} (running : state.resident.running = true) :
    Owned cfg ccfg (state.step cfg ccfg (.forwardEnd topLogical)) := by
  have tracked := owned.tracked
  have now := tracked.current running
  have noted := now.tracked (tracked.early release)
  obtain ⟨_, _, _, _, _, records⟩ := onForwardEnd_frame cfg ccfg state.resident.capturer
    state.resident.server.engine state.resident.reqIds (state.resident.forward topLogical)
  have resolved : state.resident.capturer.resolveIds ccfg state.resident.reqIds = state.resident.reqIds := by
    rw [resolveIds, tracked.cached _ noted]
    simp
  -- What is recorded is what was recorded and what is recalled now.
  have recorded : ∀ ri page,
      (state.step cfg ccfg (.forwardEnd topLogical)).resident.server.engine.Records ri page ↔
      state.resident.server.engine.Records ri page ∨
        ∃ entry ∈ state.resident.recalls cfg ccfg topLogical, entry.reqPoolIdx = ri ∧ entry.page = page := by
    intro ri page
    refine (records_congr records).trans (records_recordOwners.trans (or_congr_right ?_))
    simp only [release, paged, true_and, mem_recalls]
    constructor
    · rintro ⟨bi, due, index, kept⟩
      obtain ⟨req, _, row⟩ := now.occupant_of_row (now.due_lt due)
      refine ⟨⟨req.id, req.reqPoolIdx, page⟩, ⟨bi, due, req, row, rfl, rfl, kept⟩, ?_, rfl⟩
      rw [index, resolved, getD_eq_getElem?_getD, reqIds_row row, Option.getD_some]
    · rintro ⟨entry, ⟨bi, due, req, row, _, index, kept⟩, rfl, rfl⟩
      refine ⟨bi, due, ?_, kept⟩
      rw [index, resolved, getD_eq_getElem?_getD, reqIds_row row, Option.getD_some]
  have recalls : ∀ entry ∈ state.resident.recalls cfg ccfg topLogical, ∃ req ∈ state.resident.server.live,
      req.id ∈ state.resident.batch ∧ entry.id = req.id ∧ entry.reqPoolIdx = req.reqPoolIdx ∧ req.Uses entry.page := by
    intro entry mem
    obtain ⟨bi, due, req, row, id, index, kept⟩ := mem_recalls.mp mem
    obtain ⟨other, live, row', uses⟩ := Tracked.uses_of_kept sized tracked.books now due kept
    obtain rfl := Option.some.inj (row.symm.trans row')
    have inBatch : req.id ∈ state.resident.occupants.map Request.id :=
      mem_map_of_mem (mem_of_getElem? row)
    rw [occupants_ids now.alive] at inBatch
    exact ⟨req, live, inBatch, id, index, uses⟩
  refine ⟨tracked.forwardEnd sized running, ?_, ?_, ?_, ?_, ?_⟩
  · refine forall_mem_append.mpr ⟨owned.numbered, fun entry mem => ?_⟩
    obtain ⟨req, live, _, id, _⟩ := recalls entry mem
    exact id ▸ tracked.books.numbered req live
  · intro entry mem inBatch
    rcases mem_append.mp mem with old | new
    · exact (recorded _ _).mpr (Or.inl (owned.recorded entry old inBatch))
    · exact (recorded _ _).mpr (Or.inr ⟨entry, new, rfl, rfl⟩)
  · refine forall_mem_append.mpr ⟨owned.mine, fun entry mem req live same => ?_⟩
    obtain ⟨other, live', inBatch, id, index, uses⟩ := recalls entry mem
    obtain rfl := tracked.books.eq_of_id live live' (same.trans id)
    exact ⟨index.symm, uses, inBatch⟩
  · exact fun entry _ inBatch gone => absurd (now.alive _ inBatch) gone
  · intro ri page record
    rcases (recorded ri page).mp record with old | ⟨entry, mem, index, onPage⟩
    · obtain ⟨entry, mem, rest⟩ := owned.source ri page old
      exact ⟨entry, mem_append_left _ mem, rest⟩
    · obtain ⟨req, _, inBatch, id, _⟩ := recalls entry mem
      exact ⟨entry, mem_append_right _ mem, id ▸ inBatch, index, onPage⟩

end Owned

section

variable (release : cfg.ownerRelease = true) (paged : cfg.pageRecall = true)
  (sized : ccfg.c4LogicalSize = cfg.mirrorChunks)
include release paged sized

theorem Owned.next (owned : Owned cfg ccfg state) {op : ResidentOp}
    (scheduled : state.resident.Scheduled cfg ccfg op) (stays : state.resident.Stays op)
    (fresh : state.resident.FreshIndex op) : Owned cfg ccfg (state.step cfg ccfg op) := by
  cases op with
  | commit reqPoolIdx promptLen pages => exact owned.commit scheduled fresh
  | takePage id page => exact owned.takePage scheduled
  | finish id => exact owned.finish scheduled
  | forwardBegin batch => exact owned.forwardBegin release paged scheduled stays
  | decode rows => exact owned.decode scheduled
  | forwardEnd topLogical => exact owned.forwardEnd release paged sized scheduled

/-- If no index is taken again while a row carries it, and the buffers are prebuilt, owner release is
exact at the beginning of every forward. -/
theorem owner_release_exact (history : List ResidentOp) (batch : List ℕ)
    (allowed : Along (step cfg ccfg) (fun state op => state.resident.Scheduled cfg ccfg op ∧
      state.resident.Stays op ∧ state.resident.FreshIndex op)
      (init true) (history ++ [.forwardBegin batch])) :
    ReleasesExactly cfg ccfg (run (step cfg ccfg) (init true) history) batch := by
  obtain ⟨before, last, _⟩ := along_append.mp allowed
  have owned : Owned cfg ccfg (run (step cfg ccfg) (init true) history) :=
    before.invariant (Owned.init cfg ccfg) fun _ _ owned ok => owned.next release paged sized ok.1 ok.2.1 ok.2.2
  exact owned.releasesExactly release paged last.1 last.2.1

end

/-- Request 0 ends, its page goes to request 2, and the next forward gives it back before request 2 has
recalled it. -/
theorem owner_release_exact_on_handover :
    let cfg := { Config.small 3 10 1 with globalMode := true, pageRecall := true, ownerRelease := true }
    let history : List ResidentOp := [.commit 0 16 [1], .commit 1 12 [2], .forwardBegin [0, 1],
      .decode [.forms 0, .idle 1 13], .forwardEnd fun _ => some [0], .finish 0, .commit 2 16 [1]]
    let state := run (step cfg ResidentServer.smallCapturer) (init true) history
    state.resident.touched cfg [1, 2] = [1] ∧ ReleasesExactly cfg ResidentServer.smallCapturer state [1, 2] :=
  ⟨by decide, owner_release_exact (by decide) (by decide) (by decide) _ _ (by decide)⟩

/-- Request 1 takes the index of request 0 before any batch has gone without it, and page 1 goes on to
request 2. When request 1 ends, page 1 is still recorded for its index, and request 2 loses it. -/
theorem reused_index_releases_live_page :
    let cfg := { Config.small 3 10 1 with globalMode := true, pageRecall := true, ownerRelease := true }
    let history : List ResidentOp := [.commit 0 16 [1],
      .forwardBegin [0], .decode [.forms 0], .forwardEnd fun _ => some [0], .finish 0, .commit 0 16 [2],
      .forwardBegin [1], .decode [.forms 1], .forwardEnd fun _ => some [0], .commit 1 16 [1],
      .forwardBegin [1, 2], .decode [.forms 1, .forms 2], .forwardEnd fun _ => some [0], .finish 1]
    let state := run (step cfg ResidentServer.smallCapturer) (init true) history
    Along (step cfg ResidentServer.smallCapturer)
        (fun state op => state.resident.Scheduled cfg ResidentServer.smallCapturer op ∧ state.resident.Stays op)
        (init true) (history ++ [.forwardBegin [2]]) ∧
      ¬ ReleasesExactly cfg ResidentServer.smallCapturer state [2] := by
  refine ⟨by decide, fun exact => ?_⟩
  exact exact.spares ⟨2, 1, 16, [1], 5⟩ (by decide) 1 (by decide) (by decide) (by decide)

end OwnedServer

end FlashMemory
