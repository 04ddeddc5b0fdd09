import FlashMemory.Soundness.CapturerSteps

/-! # What a row reset releases

`_reset_changed_rows` makes at most two calls of `release_req_pool_locs`: one for the rows beyond the new
batch and one for the rows whose occupant changed. With `SAFE_RELEASE` both leave out what the first rows
of the buffers publish, on the assumption that these rows already belong to the new batch. The buffers
are positional and nobody moves their rows, so what the first rows publish is what the previous batch
published there. The changed rows are among them, hence nothing of theirs is ever released, and what
the rows beyond the batch published is released even when its request only moved down.
-/

namespace FlashMemory.Capturer

open List

variable {α : Type*} {cfg : Config} {ccfg : CapturerConfig} {capturer : Capturer} {reqIds : List ℕ}

/-! ## The calls of a reset -/

/-- The argument of `release_req_pool_locs` for some rows. -/
def passedLocs (cfg : Config) (ccfg : CapturerConfig) (capturer : Capturer) (liveRows : ℕ)
    (rows : List ℕ) : List ℤ :=
  if cfg.ownerRelease || ccfg.noRowRelease then []
  else if ccfg.safeRelease then
    (capturer.rowLocs rows).filter (· ∉ capturer.rowLocs (List.range liveRows))
  else capturer.rowLocs rows

/-- The rows beyond the batch. -/
def tailRows (ccfg : CapturerConfig) (reqIds : List ℕ) : List ℕ :=
  List.range' reqIds.length (ccfg.maxBs - reqIds.length)

/-- The arguments of the calls that a reset makes, in order; the empty ones are skipped. -/
def resetPassed (cfg : Config) (ccfg : CapturerConfig) (capturer : Capturer) (reqIds : List ℕ) :
    List (List ℤ) :=
  [capturer.passedLocs cfg ccfg reqIds.length (tailRows ccfg reqIds),
    (capturer.blankRows (tailRows ccfg reqIds)).passedLocs cfg ccfg reqIds.length
      (capturer.changedRows ccfg reqIds)]

/-- A call of `release_req_pool_locs`, if there is something to release. -/
def releasePassed (cfg : Config) (engine : Engine α) (locs : List ℤ) : Engine α :=
  if locs = [] then engine else (engine.releaseReqPoolLocs cfg locs).1

private theorem releaseRows_eq (liveRows : ℕ) (engine : Engine α) (rows : List ℕ) :
    capturer.releaseRows cfg ccfg liveRows engine rows =
      releasePassed cfg engine (capturer.passedLocs cfg ccfg liveRows rows) := by
  unfold releaseRows passedLocs
  split_ifs <;> rfl

/-- A reset makes these calls and no others. -/
theorem resetChangedRows_engine (engine : Engine α) :
    (capturer.resetChangedRows cfg ccfg engine reqIds).2 =
      (capturer.resetPassed cfg ccfg reqIds).foldl (releasePassed cfg) engine := by
  simp only [resetChangedRows, releaseRows_eq]
  rfl

theorem mem_rowLocs {rows : List ℕ} {loc : ℤ} :
    loc ∈ capturer.rowLocs rows ↔ 0 ≤ loc ∧ ∃ bi ∈ rows, loc ∈ capturer.residentPoolLocBuf bi := by
  simp only [rowLocs, mem_filter, mem_flatMap, decide_eq_true_eq, and_comm]

private theorem mem_tailRows {bi : ℕ} : bi ∈ tailRows ccfg reqIds ↔ reqIds.length ≤ bi ∧ bi < ccfg.maxBs := by
  simp only [tailRows, mem_range'_1]
  omega

private theorem changedRows_lt {bi : ℕ} (changed : bi ∈ capturer.changedRows ccfg reqIds) : bi < reqIds.length :=
  lt_of_lt_of_le (mem_range.mp (mem_filter.mp changed).1) (min_le_left _ _)

/-! ## Safe release -/

section SafeRelease

variable (shared : cfg.ownerRelease = false) (releasing : ccfg.noRowRelease = false)
  (safe : ccfg.safeRelease = true)

include shared releasing safe

/-- The changed rows are among the first rows, so nothing of theirs is passed. -/
private theorem passedLocs_changedRows (other : Capturer) :
    other.passedLocs cfg ccfg reqIds.length (capturer.changedRows ccfg reqIds) = [] := by
  simp only [passedLocs, shared, releasing, safe, Bool.or_self, Bool.false_eq_true, ↓reduceIte]
  refine filter_eq_nil_iff.mpr fun loc mem => ?_
  obtain ⟨nonneg, bi, changed, shown⟩ := mem_rowLocs.mp mem
  have first : loc ∈ other.rowLocs (List.range reqIds.length) :=
    mem_rowLocs.mpr ⟨nonneg, bi, mem_range.mpr (changedRows_lt changed), shown⟩
  simpa using first

theorem mem_resetPassed {loc : ℤ} :
    (∃ locs ∈ capturer.resetPassed cfg ccfg reqIds, loc ∈ locs) ↔
      0 ≤ loc ∧ (∃ bi, reqIds.length ≤ bi ∧ bi < ccfg.maxBs ∧ loc ∈ capturer.residentPoolLocBuf bi) ∧
        ∀ bi < reqIds.length, loc ∉ capturer.residentPoolLocBuf bi := by
  simp only [resetPassed, passedLocs_changedRows shared releasing safe, mem_cons, not_mem_nil,
    or_false, exists_eq_or_imp, exists_eq_left, or_false]
  simp only [passedLocs, shared, releasing, safe, Bool.or_self, Bool.false_eq_true, ↓reduceIte,
    mem_filter, mem_rowLocs, mem_tailRows, mem_range, decide_eq_true_eq, not_and, not_exists]
  constructor
  · rintro ⟨⟨nonneg, bi, ⟨beyond, inBuffer⟩, shown⟩, unshown⟩
    exact ⟨nonneg, ⟨bi, beyond, inBuffer, shown⟩, unshown nonneg⟩
  · rintro ⟨nonneg, ⟨bi, beyond, inBuffer, shown⟩, unshown⟩
    exact ⟨⟨nonneg, bi, ⟨beyond, inBuffer⟩, shown⟩, fun _ => unshown⟩

end SafeRelease

/-! ## Batches of requests -/

section Batches

variable {ρ : Type*} {index : ρ → ℕ} {owns : ρ → ℤ → Prop} {previous : List ρ}

/-- The rows hold what the requests of the previous batch published, and a location belongs to one
request at a time. -/
structure Holds (ccfg : CapturerConfig) (capturer : Capturer) (index : ρ → ℕ) (owns : ρ → ℤ → Prop)
    (previous : List ρ) : Prop where
  distinct : previous.Nodup
  fits : previous.length ≤ ccfg.maxBs
  tracked : capturer.prevRowOccupant = some (previous.map index)
  owned : ∀ bi req, previous[bi]? = some req → ∀ loc ∈ capturer.residentPoolLocBuf bi, 0 ≤ loc → owns req loc
  exclusive : ∀ req other loc, owns req loc → owns other loc → req = other
  blank : ∀ bi, previous.length ≤ bi → capturer.residentPoolLocBuf bi = []

/-- `filter_batch` keeps the unfinished requests in order, and new ones are appended. -/
def nextBatch (previous : List ρ) (finished : ρ → Bool) (joined : List ρ) : List ρ :=
  previous.filter (!finished ·) ++ joined

/-- A reset releases nothing of a request that stays, and everything published by one that leaves. -/
def ReleasesGone (cfg : Config) (ccfg : CapturerConfig) (capturer : Capturer) (index : ρ → ℕ)
    (owns : ρ → ℤ → Prop) (previous next : List ρ) : Prop :=
  let passed := capturer.resetPassed cfg ccfg (next.map index)
  (∀ locs ∈ passed, ∀ loc ∈ locs, ∀ req ∈ previous, req ∈ next → ¬ owns req loc) ∧
    ∀ bi req, previous[bi]? = some req → req ∉ next →
      ∀ loc ∈ capturer.residentPoolLocBuf bi, 0 ≤ loc → ∃ locs ∈ passed, loc ∈ locs

theorem Holds.row_lt (holds : Holds ccfg capturer index owns previous) {bi : ℕ} {loc : ℤ}
    (shown : loc ∈ capturer.residentPoolLocBuf bi) : bi < previous.length := by
  by_contra beyond
  rw [holds.blank bi (not_lt.mp beyond)] at shown
  contradiction

/-- Rows of different requests publish different locations. -/
theorem Holds.eq_of_shown (holds : Holds ccfg capturer index owns previous) {bi bj : ℕ} {loc : ℤ}
    (nonneg : 0 ≤ loc) (shown : loc ∈ capturer.residentPoolLocBuf bi)
    (shown' : loc ∈ capturer.residentPoolLocBuf bj) : bi = bj := by
  have row := getElem?_eq_getElem (holds.row_lt shown)
  have row' := getElem?_eq_getElem (holds.row_lt shown')
  have same := holds.exclusive _ _ loc (holds.owned bi _ row loc shown nonneg)
    (holds.owned bj _ row' loc shown' nonneg)
  exact (holds.distinct.getElem_inj_iff).mp same

/-- `SAFE_RELEASE` releases exactly what is gone if and only if, among the rows that publish something,
the requests that leave are those beyond the new batch. -/
theorem safe_release_exact_iff (shared : cfg.ownerRelease = false) (releasing : ccfg.noRowRelease = false)
    (safe : ccfg.safeRelease = true) (holds : Holds ccfg capturer index owns previous)
    (finished : ρ → Bool) (joined : List ρ) :
    let next := nextBatch previous finished joined
    ReleasesGone cfg ccfg capturer index owns previous next ↔
      ∀ bi req, previous[bi]? = some req → (∃ loc ∈ capturer.residentPoolLocBuf bi, 0 ≤ loc) →
        (req ∈ next ↔ bi < next.length) := by
  intro next
  have passed : ∀ loc : ℤ, (∃ locs ∈ capturer.resetPassed cfg ccfg (next.map index), loc ∈ locs) ↔ _ :=
    fun _ => mem_resetPassed shared releasing safe
  simp only [length_map] at passed
  constructor
  · rintro ⟨spared, released⟩ bi req row ⟨loc, shown, nonneg⟩
    constructor
    · intro stays
      by_contra beyond
      obtain ⟨locs, called, member⟩ := (passed loc).mpr ⟨nonneg, ⟨bi, not_lt.mp beyond,
        (holds.row_lt shown).trans_le holds.fits, shown⟩, fun bj first shown' =>
          beyond (holds.eq_of_shown nonneg shown shown' ▸ first)⟩
      exact spared locs called loc member req (mem_of_getElem? row) stays
        (holds.owned bi req row loc shown nonneg)
    · intro first
      by_contra leaves
      exact ((passed loc).mp (released bi req row leaves loc shown nonneg)).2.2 bi first shown
  · intro leavers
    constructor
    · intro locs called loc member req _ stays owned
      obtain ⟨nonneg, ⟨bi, beyond, _, shown⟩, _⟩ := (passed loc).mp ⟨locs, called, member⟩
      have row := getElem?_eq_getElem (holds.row_lt shown)
      have same := holds.exclusive _ _ loc owned (holds.owned bi _ row loc shown nonneg)
      have := (leavers bi _ row ⟨loc, shown, nonneg⟩).mp (same ▸ stays)
      omega
    · intro bi req row leaves loc shown nonneg
      have beyond : next.length ≤ bi := by
        by_contra first
        exact leaves ((leavers bi req row ⟨loc, shown, nonneg⟩).mpr (not_le.mp first))
      refine (passed loc).mpr ⟨nonneg, ⟨bi, beyond, (holds.row_lt shown).trans_le holds.fits, shown⟩, ?_⟩
      intro bj first shown'
      have := holds.eq_of_shown nonneg shown shown'
      omega

end Batches

/-- Requests 0 and 1 publish one location each, on page 1 and on page 2. -/
def twoRows : Capturer :=
  { Capturer.init true with
    residentCountBuf := fun bi => if bi < 2 then 64 else 0
    residentPoolLocBuf := fun bi => if bi = 0 then [64] else if bi = 1 then [128] else []
    prevRowOccupant := some [0, 1] }

def safeCapturer : CapturerConfig where
  c4LogicalSize := 256
  interval := 1
  maxBs := 4
  pageKmax := 1
  staggerCycle := false
  safeRelease := true
  noRowRelease := false

private theorem twoRows_holds : Holds safeCapturer twoRows id (fun req loc => loc / 64 = (req : ℕ) + 1) [0, 1] where
  distinct := by decide
  fits := by decide
  tracked := rfl
  owned := by
    rintro (_ | _ | bi) req row loc shown _
    · obtain rfl : 0 = req := by simpa using row
      obtain rfl : loc = 64 := by simpa [twoRows] using shown
      decide
    · obtain rfl : 1 = req := by simpa using row
      obtain rfl : loc = 128 := by simpa [twoRows] using shown
      decide
    · simp at row
  exclusive req other loc first second := by omega
  blank bi beyond := by
    have : 2 ≤ bi := beyond
    have first : bi ≠ 0 := by omega
    have second : bi ≠ 1 := by omega
    simp [twoRows, first, second]

/-- Request 1 leaves the last row: exactly its location is released. -/
theorem safe_release_exact_on_last_row :
    ReleasesGone .smallPaged safeCapturer twoRows id (fun req loc => loc / 64 = (req : ℕ) + 1)
      [0, 1] (nextBatch [0, 1] (· = 1) []) := by
  refine (safe_release_exact_iff rfl rfl rfl twoRows_holds (· = 1) []).mpr ?_
  rintro (_ | _ | bi) req row _
  · obtain rfl : 0 = req := by simpa using row
    decide
  · obtain rfl : 1 = req := by simpa using row
    decide
  · simp at row

/-- Request 0 leaves and request 1 moves to its row: the location of request 1 is released, and that of
request 0 is not. -/
theorem safe_release_frees_moved_request :
    let next := nextBatch [0, 1] (· = 0) []
    twoRows.resetPassed .smallPaged safeCapturer next = [[128], []] ∧
      ¬ ReleasesGone .smallPaged safeCapturer twoRows id (fun req loc => loc / 64 = (req : ℕ) + 1) [0, 1] next := by
  refine ⟨by decide, fun exact => ?_⟩
  exact exact.1 [128] (by decide) 128 (by decide) 1 (by decide) (by decide) (by decide)

end FlashMemory.Capturer
