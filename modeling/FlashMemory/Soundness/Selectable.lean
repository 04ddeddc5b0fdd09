import FlashMemory.Soundness.RowSelection
import Mathlib.Algebra.Order.BigOperators.Group.List
import Mathlib.Algebra.Order.Ring.Nat

/-! # What attention may select, it can read

The captured graph picks among the locations that the capturer published for a row, and reads a
location through the table. Four things can leave a published location unmapped. A page that was
discarded by a new transfer and still owns a block is taken for resident by the recall unless
`LUT_TRUTH` is on. The recall protects the pages of the due rows from eviction, not those published
for the other rows. Decode chunks are not recalled, so those that were funneled to the sink stay
unmapped. And a row is reset by comparing pool indices, so a request that gets the index of the row's
finished occupant inherits its published locations.

In a spared run no step does one of these. After every forward of a spared run, all published
locations of the batch are mapped in every layer.
-/

namespace FlashMemory

open List Engine Capturer

namespace ResidentServer

variable {cfg : Config} {ccfg : CapturerConfig} {state : ResidentServer} {req : Request}

/-- Every location that a row of the batch offers is mapped in every layer. -/
def Readable (cfg : Config) (state : ResidentServer) : Prop :=
  ∀ bi < state.batch.length, ∀ col < state.capturer.residentCountBuf bi,
    let loc := (state.capturer.residentPoolLocBuf bi).getD col (-1)
    0 ≤ loc → ∀ layer < cfg.c4LayerNum, 0 ≤ state.server.engine.remapCompressedLoc cfg layer loc

namespace Inv

/-! ### After a forward -/

section End

variable {topLogical : ℕ → Option (List ℕ)} {after : Engine Stamp} {bi bj : ℕ}

section

variable (sized : ccfg.c4LogicalSize = cfg.mirrorChunks) (inv : Inv cfg ccfg state) (now : InForward ccfg state)

include sized inv now

/-- What is recalled are chunks of selected pages of the due rows' requests. -/
theorem mem_union {loc : ℤ} :
    loc ∈ state.union cfg ccfg topLogical ↔ ∃ bi ∈ state.due ccfg, ∃ req, state.occupants[bi]? = some req ∧
      ∃ pages, (state.forward topLogical).chosen bi = some pages ∧ ∃ number < req.formed,
        number / c4PageSize ∈ pages ∧
        (state.limit cfg ccfg bi < 0 ∨ (number : ℤ) < state.limit cfg ccfg bi) ∧ loc = req.loc number := by
  simp only [union, unionLocs, mem_flatMap]
  refine exists_congr fun bi => and_congr_right fun due => ?_
  obtain ⟨req, mem, row⟩ := now.occupant_of_row (now.due_lt due)
  have kept := fun pages => @Forward.mem_keptLocs cfg ccfg (state.forward topLogical) req bi pages
    (forward_serves row topLogical) (inv.books.layout req mem) sized (state.limit cfg ccfg bi) loc
  simp only [keptOfRow]
  cases shape : (state.forward topLogical).chosen bi with
  | none => simp
  | some pages =>
    refine (kept pages).trans ⟨fun found => ⟨req, row, pages, rfl, found⟩, ?_⟩
    rintro ⟨other, row', pages', same, found⟩
    obtain rfl := Option.some.inj (row.symm.trans row')
    obtain rfl := Option.some.inj same
    exact found

theorem union_ranged : LocsInRange cfg (state.union cfg ccfg topLogical) := by
  intro loc mem
  obtain ⟨bi, _, req, row, _, _, number, formed, _, _, rfl⟩ := (mem_union sized inv now).mp mem
  have live := mem_live_of_occupant (mem_of_getElem? row)
  exact Int.ofNat_lt.mpr ((inv.books.layout req live).loc_lt formed)

/-- The batch selects at most `K_max` pages per live request. -/
theorem union_fits (admissible : Admissible cfg ccfg state (.forwardEnd topLogical)) :
    (uniquePages (state.union cfg ccfg topLogical)).length ≤ cfg.maxBlocks := by
  obtain ⟨_, small, capacity⟩ := admissible
  have covered : uniquePages (state.union cfg ccfg topLogical) ⊆ (state.due ccfg).flatMap fun bi =>
      (((state.forward topLogical).chosen bi).getD []).map ((state.forward topLogical).physPage bi) := by
    intro page mem
    obtain ⟨chunk, present, rfl⟩ := mem_uniquePages.mp mem
    obtain ⟨bi, due, req, row, pages, chosen, number, _, selected, _, same⟩ := (mem_union sized inv now).mp present
    refine mem_flatMap.mpr ⟨bi, due, ?_⟩
    rw [chosen, Int.ofNat_inj.mp same, Request.loc_page, ← (forward_serves row topLogical).pages]
    exact mem_map_of_mem selected
  have each : ∀ bi ∈ state.due ccfg, (((state.forward topLogical).chosen bi).getD []).length ≤ ccfg.pageKmax := by
    intro bi due
    cases shape : (state.forward topLogical).chosen bi with
    | none => exact Nat.zero_le _
    | some pages =>
      simp only [Forward.chosen] at shape
      split_ifs at shape
      exact small bi (now.due_lt due) pages shape
  have batched : state.batch.length ≤ state.server.live.length := by
    have bound := (subperm_of_subset now.distinct now.alive).length_le
    rwa [length_map] at bound
  have rows : (state.due ccfg).length ≤ state.batch.length := by
    have bound := (dueRows_spec ccfg state.capturer state.reqIds).2.length_le
    rwa [length_range, reqIds_length now.alive] at bound
  calc (uniquePages (state.union cfg ccfg topLogical)).length
      ≤ ((state.due ccfg).flatMap fun bi => (((state.forward topLogical).chosen bi).getD []).map
          ((state.forward topLogical).physPage bi)).length :=
        (subperm_of_subset (uniquePages_nodup _) covered).length_le
    _ ≤ (state.due ccfg).length * ccfg.pageKmax := by
        rw [length_flatMap]
        refine (sum_le_card_nsmul _ ccfg.pageKmax ?_).trans_eq ?_
        · intro size mem
          obtain ⟨bi, due, rfl⟩ := mem_map.mp mem
          rw [length_map]
          exact each bi due
        · rw [length_map]
          rfl
    _ ≤ ccfg.pageKmax * state.server.live.length := by
        rw [Nat.mul_comm]
        exact Nat.mul_le_mul_left _ (rows.trans batched)
    _ ≤ cfg.maxBlocks := capacity

end

/-- What the side-band leaves of the engine. -/
structure Refreshed (cfg : Config) (ccfg : CapturerConfig) (state : ResidentServer)
    (topLogical : ℕ → Option (List ℕ)) (after : Engine Stamp) : Prop where
  spares :
    let pages := uniquePages (state.union cfg ccfg topLogical)
    Engine.Spares cfg (· ∉ state.server.engine.gPages.victims cfg.maxBlocks pages
      (state.server.engine.pageMisses cfg pages)) state.server.engine after
  fetched :
    let pages := uniquePages (state.union cfg ccfg topLogical)
    ∀ page ∈ pages, (page ∈ state.server.engine.pageMisses cfg pages →
        cfg.lutTruth = true ∨ page ∉ state.server.engine.gPages.slots.keys) →
      state.server.engine.chunkCellLut 0 (page * c4PageSize) < cfg.decodeBase →
      ∀ chunk, chunk / c4PageSize = page → 0 ≤ after.chunkCellLut 0 chunk

/-- What the side-band leaves of the capturer. -/
structure Rewritten (ccfg : CapturerConfig) (state : ResidentServer)
    (topLogical : ℕ → Option (List ℕ)) (capturer : Capturer) : Prop where
  occupants : capturer.prevRowOccupant = state.capturer.prevRowOccupant
  staged : ∀ bi, capturer.pendingCount bi = none
  rows : ∀ bi, capturer.residentPoolLocBuf bi =
    state.capturer.nextRow ccfg (state.forward topLogical) (state.due ccfg) bi
  counted : ∀ bi, capturer.residentCountBuf bi = (capturer.residentPoolLocBuf bi).length
  blank : capturer.allocated = false → state.capturer.allocated = false ∧
    ∀ bi ∈ state.due ccfg, (state.forward topLogical).chosen bi = none

section

variable (sized : ccfg.c4LogicalSize = cfg.mirrorChunks) (inv : Inv cfg ccfg state) (now : InForward ccfg state)

include sized inv now

/-- What a row publishes after the side-band is mapped and on the pages of its request. -/
theorem nextRow_mapped (spared : Spared cfg ccfg state (.forwardEnd topLogical))
    (refreshed : Refreshed cfg ccfg state topLogical after) (row : state.occupants[bi]? = some req) {chunk : ℕ}
    (shown : (chunk : ℤ) ∈ state.capturer.nextRow ccfg (state.forward topLogical) (state.due ccfg) bi) :
    chunk / c4PageSize ∈ req.pages ∧ 0 ≤ after.chunkCellLut 0 chunk := by
  obtain ⟨copied, unevicted, others⟩ := spared
  have mem := mem_live_of_occupant (mem_of_getElem? row)
  have layout := inv.books.layout req mem
  have kept : chunk / c4PageSize ∈ req.pages → 0 ≤ state.server.engine.chunkCellLut 0 chunk →
      0 ≤ after.chunkCellLut 0 chunk := by
    intro mine
    refine refreshed.spares.mapped chunk (chunk_lt_of_page (layout.inMirror _ mine) rfl) fun evicted => ?_
    refine unevicted bi (now.row_lt row) chunk shown _ evicted ?_
    simp only [c4PageSize]
    omega
  simp only [nextRow] at shown
  split at shown
  · -- The row keeps what it published before.
    cases allocated : state.capturer.allocated with
    | false =>
      rw [(inv.blank allocated).2 bi] at shown
      contradiction
    | true =>
      obtain ⟨mine, mapped⟩ := (inv.published _ (now.tracked allocated)).mapped bi _ (reqIds_row row)
        req mem rfl chunk shown
      exact ⟨mine, kept mine mapped⟩
  · -- The row publishes a chunk of a page that it selected.
    next pages chosen =>
    split_ifs at chosen with due
    obtain ⟨number, formed, selected, rfl⟩ :=
      Forward.mem_selectedLocs (forward_serves row topLogical) layout sized shown
    have mine := layout.page_mem formed
    refine ⟨mine, (others bi due pages chosen req row number formed selected).elim ?_ (kept mine)⟩
    rintro ⟨early, recalled⟩
    have firstFormed : number / c4PageSize * c4PageSize < req.formed :=
      Nat.lt_of_le_of_lt (Nat.div_mul_le_self ..) formed
    have samePage : req.loc (number / c4PageSize * c4PageSize) / c4PageSize = req.loc number / c4PageSize := by
      rw [Request.loc_page, Request.loc_page, firstChunk_page]
    have first : req.loc number / c4PageSize * c4PageSize = req.loc (number / c4PageSize * c4PageSize) := by
      rw [Request.loc_page, Request.loc, firstChunk_page, Nat.mul_mod_left, Nat.add_zero]
    have asked : req.loc number / c4PageSize ∈ uniquePages (state.union cfg ccfg topLogical) := by
      refine mem_uniquePages.mpr ⟨_, (mem_union sized inv now).mpr ?_, samePage⟩
      exact ⟨bi, due, req, row, pages, chosen, _, firstFormed, by rwa [firstChunk_page], early, rfl⟩
    exact refreshed.fetched _ asked (copied _) (first.symm ▸ recalled) _ rfl

theorem onForwardEnd_spec (paged : cfg.pageRecall = true)
    (admissible : Admissible cfg ccfg state (.forwardEnd topLogical)) :
    ∃ capturer after, state.capturer.onForwardEnd cfg ccfg state.server.engine state.reqIds
        (state.forward topLogical) = (capturer, after, .ok ()) ∧
      Rewritten ccfg state topLogical capturer ∧ Refreshed cfg ccfg state topLogical after := by
  obtain ⟨⟨steps, globalStep, cached, bookkept⟩, _⟩ := dueRows_spec ccfg state.capturer state.reqIds
  have inBuffer : ∀ bi ∈ state.due ccfg, bi < ccfg.maxBs := fun bi due =>
    Nat.lt_of_lt_of_le (now.due_lt due) now.bounded
  simp only [onForwardEnd]
  rw [bookkept]
  split_ifs with none
  · have idle : state.due ccfg = [] := none
    refine ⟨_, _, rfl, ⟨rfl, inv.staged, fun bi => ?_, inv.counted, fun off => ⟨off, ?_⟩⟩,
      (Engine.Untouched.refl ..).spares, ?_⟩
    · rw [nextRow_of_not_due (by simp [idle])]
    · simp [idle]
    · simp only [union, unionLocs, idle, flatMap_nil]
      exact fun page selected => absurd selected not_mem_nil
  · obtain ⟨after, result, spares, fetched⟩ := sidebandWork_spec
      { state.capturer with reqStep := steps, ofeGlobalStep := globalStep, cachedReqIds := cached }
      paged inv.settled (union_ranged sized inv now) (union_fits sized inv now admissible)
    refine ⟨_, after, result, ⟨rfl, fun _ => rfl, fun _ => rfl, ?_, fun off => ?_⟩, spares, fetched⟩
    · exact published_counts inv.staged inv.counted inBuffer
    · have unset := Bool.or_eq_false_iff.mp off
      refine ⟨unset.1, fun bi due => Option.not_isSome_iff_eq_none.mp ?_⟩
      exact any_eq_false.mp unset.2 bi due

private theorem nextRow_published (spared : Spared cfg ccfg state (.forwardEnd topLogical))
    (refreshed : Refreshed cfg ccfg state topLogical after)
    (tracked : state.capturer.prevRowOccupant = some state.reqIds) :
    Published after state.server.live
      (state.capturer.nextRow ccfg (state.forward topLogical) (state.due ccfg)) state.reqIds := by
  have rows := reqIds_length now.alive
  have within : ∀ bi, state.reqIds.length ≤ bi →
      state.capturer.nextRow ccfg (state.forward topLogical) (state.due ccfg) bi = [] := by
    intro bi beyond
    have idle : bi ∉ state.due ccfg := fun due => by
      have := now.due_lt due
      omega
    rw [nextRow_of_not_due idle]
    exact (inv.published _ tracked).within bi beyond
  have owner : ∀ bi, ∀ chunk : ℕ,
      (chunk : ℤ) ∈ state.capturer.nextRow ccfg (state.forward topLogical) (state.due ccfg) bi →
      ∃ req ∈ state.server.live, state.occupants[bi]? = some req ∧ chunk / c4PageSize ∈ req.pages := by
    intro bi chunk shown
    have inBatch : bi < state.batch.length := by
      by_contra outside
      rw [within bi (by omega)] at shown
      contradiction
    obtain ⟨req, mem, row⟩ := now.occupant_of_row inBatch
    exact ⟨req, mem, row, (inv.nextRow_mapped sized now spared refreshed row shown).1⟩
  refine ⟨fun bi ri row req mem index chunk shown => ?_, fun bi bj different chunk other shown shown' same => ?_,
    within⟩
  · obtain ⟨holder, present, row', _⟩ := owner bi chunk shown
    have sameIndex := Option.some.inj ((reqIds_row row').symm.trans row)
    obtain rfl := eq_of_index inv.indices mem present (index.trans sameIndex.symm)
    exact inv.nextRow_mapped sized now spared refreshed row' shown
  · obtain ⟨first, mem, row, mine⟩ := owner bi chunk shown
    obtain ⟨second, mem', row', mine'⟩ := owner bj other shown'
    obtain rfl := inv.books.eq_of_page mem mem' mine (same ▸ mine')
    exact different (now.eq_of_row row row')

end

section

variable (paged : cfg.pageRecall = true) (sized : ccfg.c4LogicalSize = cfg.mirrorChunks) (inv : Inv cfg ccfg state)
  (admissible : Admissible cfg ccfg state (.forwardEnd topLogical))
  (spared : Spared cfg ccfg state (.forwardEnd topLogical))

include paged sized inv admissible spared

theorem forwardEnd : Inv cfg ccfg (state.step cfg ccfg (.forwardEnd topLogical)) := by
  have now := inv.current admissible.1
  obtain ⟨capturer, after, result, rewritten, refreshed⟩ := inv.onForwardEnd_spec sized now paged admissible
  have rows : capturer.residentPoolLocBuf =
      state.capturer.nextRow ccfg (state.forward topLogical) (state.due ccfg) := funext rewritten.rows
  simp only [step, result]
  refine ⟨refreshed.spares.settled inv.settled, inv.books.withEngine _, inv.indices, rewritten.staged,
    rewritten.counted, fun off => ?_, fun bi outside => ?_, fun ids present => ?_, fun running => ?_⟩
  · obtain ⟨unset, unchosen⟩ := rewritten.blank off
    refine ⟨rewritten.occupants.trans (inv.blank unset).1, fun bi => ?_⟩
    have kept : (if bi ∈ state.due ccfg then (state.forward topLogical).chosen bi else none) = none := by
      split_ifs with due
      · exact unchosen bi due
      · rfl
    rw [rewritten.rows]
    simp only [nextRow, kept]
    exact (inv.blank unset).2 bi
  · have idle : bi ∉ state.due ccfg := fun due => by
      have := now.due_lt due
      have := now.bounded
      omega
    rw [rewritten.rows, nextRow_of_not_due idle]
    exact inv.inBuffer bi outside
  · have before := rewritten.occupants.symm.trans present
    have allocated : state.capturer.allocated = true := by
      by_contra unset
      rw [(inv.blank (Bool.not_eq_true _ ▸ unset)).1] at before
      contradiction
    have tracked := now.tracked allocated
    obtain rfl := Option.some.inj (tracked.symm.trans before)
    rw [rows]
    exact inv.nextRow_published sized now spared refreshed tracked
  · contradiction

theorem readable : Readable cfg (state.step cfg ccfg (.forwardEnd topLogical)) := by
  have now := inv.current admissible.1
  obtain ⟨capturer, after, result, rewritten, refreshed⟩ := inv.onForwardEnd_spec sized now paged admissible
  simp only [step, result]
  intro bi inBatch col below loc nonneg layer inside
  obtain ⟨chunk, shape⟩ := Int.eq_ofNat_of_zero_le nonneg
  have shown : (chunk : ℤ) ∈ state.capturer.nextRow ccfg (state.forward topLogical) (state.due ccfg) bi := by
    rw [← rewritten.rows, ← shape]
    simp only [rewritten.counted] at below
    simp only [loc, getD_eq_getElem _ _ below]
    exact getElem_mem below
  obtain ⟨req, mem, row⟩ := now.occupant_of_row inBatch
  obtain ⟨mine, mapped⟩ := inv.nextRow_mapped sized now spared refreshed row shown
  have inMirror := chunk_lt_of_page ((inv.books.layout req mem).inMirror _ mine) rfl
  rw [← congrFun ((refreshed.spares.settled inv.settled).pages.uniform layer inside) chunk] at mapped
  simp only [shape, remapCompressedLoc, Int.natCast_nonneg, ↓reduceIte, Int.toNat_natCast, true_and,
    clampCol_of_lt inMirror, mapped]

end

end End

theorem next (own : cfg.ownReserve = true) (paged : cfg.pageRecall = true)
    (sized : ccfg.c4LogicalSize = cfg.mirrorChunks) (inv : Inv cfg ccfg state) {op : ResidentOp}
    (admissible : Admissible cfg ccfg state op) (spared : Spared cfg ccfg state op) :
    Inv cfg ccfg (state.step cfg ccfg op) := by
  cases op with
  | commit reqPoolIdx promptLen pages => exact inv.commit admissible spared
  | takePage id page => exact inv.takePage admissible
  | finish id => exact inv.finish admissible
  | forwardBegin batch => exact inv.forwardBegin paged admissible spared
  | decode rows => exact inv.decode own admissible.2
  | forwardEnd topLogical => exact inv.forwardEnd paged sized admissible spared

end Inv

/-- In every spared run, after every forward, each location that a row of the batch offers is mapped
in every layer. -/
theorem selectable_readable {cfg : Config} {ccfg : CapturerConfig} (own : cfg.ownReserve = true)
    (paged : cfg.pageRecall = true) (sized : ccfg.c4LogicalSize = cfg.mirrorChunks) (prebuilt : Bool)
    (history : List ResidentOp) (topLogical : ℕ → Option (List ℕ))
    (allowed : Along (step cfg ccfg)
      (fun state op => Admissible cfg ccfg state op ∧ Spared cfg ccfg state op)
      (init prebuilt) (history ++ [.forwardEnd topLogical])) :
    Readable cfg (run (step cfg ccfg) (init prebuilt) (history ++ [.forwardEnd topLogical])) := by
  obtain ⟨before, last, _⟩ := along_append.mp allowed
  have inv : Inv cfg ccfg (run (step cfg ccfg) (init prebuilt) history) :=
    before.invariant (Inv.init cfg ccfg prebuilt) fun _ _ inv ok => inv.next own paged sized ok.1 ok.2
  rw [run_append]
  exact inv.readable paged sized last.1 last.2

/-- Two requests share the batch, the first ends, the second moves to its row, and a third one gets the
pages of the first. -/
def sharing : List ResidentOp :=
  [.commit 0 16 [1], .forwardBegin [0], .decode [.forms 0], .forwardEnd fun _ => some [0],
    .commit 1 12 [2], .forwardBegin [0, 1], .decode [.idle 0 21, .forms 1], .forwardEnd fun _ => some [0],
    .finish 0, .commit 2 16 [1], .forwardBegin [1, 2], .decode [.forms 1, .idle 2 17]]

theorem selectable_readable_on_sharing :
    let cfg := { Config.small 3 10 1 with globalMode := true, pageRecall := true, lutTruth := true }
    Readable cfg (run (step cfg smallCapturer) (init true) (sharing ++ [.forwardEnd fun _ => some [0]])) :=
  selectable_readable (by decide) (by decide) (by decide) true sharing _ (by decide)

/-- Page 1 is recalled for request 0, which then selects its other page and ends. Page 1 becomes the
prompt of request 1: its entries are discarded, its block is not given back, and the recall takes the
page for resident. -/
theorem reused_page_stays_unmapped :
    let cfg := { Config.small 3 10 1 with globalMode := true, pageRecall := true }
    let history : List ResidentOp := [.commit 0 260 [1, 3],
      .forwardBegin [0], .decode [.idle 0 261], .forwardEnd fun _ => some [0],
      .forwardBegin [0], .decode [.idle 0 262], .forwardEnd fun _ => some [1],
      .finish 0, .commit 1 16 [1],
      .forwardBegin [1], .decode [.idle 1 17], .forwardEnd fun _ => some [0]]
    Along (step cfg smallCapturer) (Admissible cfg smallCapturer) (init true) history ∧
      ¬ Readable cfg (run (step cfg smallCapturer) (init true) history) := by
  refine ⟨by decide, fun readable => ?_⟩
  exact absurd (readable 0 (by decide) 0 (by decide) (by decide) 0 (by decide)) (by decide)

end ResidentServer

end FlashMemory
