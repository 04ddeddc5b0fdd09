import FlashMemory.Model.Indexer
import FlashMemory.Collections.Run
import Mathlib.Tactic.NormNum

/-! # The remap in the indexer and the remap in the backend

Whether the written indices are cells is decided twice: the indexer writes cells with the native top-k and
`FUSED_REMAP`, and the backend skips its remap when there is a scratch and a table of cells. With a scratch
and the native top-k the two agree, and composing the tables first or last makes no difference as long as
the layer's entries are those of layer 0. Under page recall there is no scratch, and the indexer asks for a
table that does not exist. With a scratch and the custom top-k the indexer writes locations, and the
backend leaves them.
-/

namespace FlashMemory

/-! ## Composing the tables -/

section Compose

variable {α : Type*} {cfg : Config} {engine : Engine α} {clid : ℕ}

theorem remapCompressedLoc_neg : engine.remapCompressedLoc cfg clid (-1) = -1 := by
  simp [Engine.remapCompressedLoc]

/-- The remap after the gather is the gather of the remapped table. -/
theorem remap_gatherNative (kernel : TopkKernel (WithBot ℚ)) (logits : ℕ → WithBot ℚ) (buf count : ℕ)
    (table : ℕ → ℤ) :
    engine.remapCompressedLocs cfg clid (gatherNative kernel logits buf count table) =
      gatherNative kernel logits buf count fun col => engine.remapCompressedLoc cfg clid (table col) := by
  rw [Engine.remapCompressedLocs, gatherNative, gatherNative, List.map_map]
  apply List.map_congr_left
  intro raw _
  rw [Function.comp_apply]
  split_ifs
  · rfl
  · exact remapCompressedLoc_neg

/-- Below a count that is not above the width, the first columns are taken, and otherwise any columns are. -/
theorem lt_of_mem_topkTransform512 {kernel : TopkKernel (WithBot ℚ)} {logits : ℕ → WithBot ℚ} {buf count : ℕ} {raw : ℤ}
    (mem : raw ∈ topkTransform512 kernel logits buf count) (real : 0 ≤ raw) :
    raw.toNat < count ∨ sparseTopk < count := by
  unfold topkTransform512 at mem
  split_ifs at mem with short
  · obtain ⟨col, _, rfl⟩ := List.mem_map.mp mem
    split_ifs at real ⊢ with inside
    · exact .inl inside
    · omega
  · exact .inr (not_le.mp short)

/-- There are a kernel and logits for which the native top-k takes a column. -/
theorem exists_mem_topkTransform512 {col count : ℕ} (taken : col < count ∨ sparseTopk < count) :
    ∃ kernel logits, (col : ℤ) ∈ topkTransform512 kernel logits (col + 1) count := by
  refine ⟨.preferring (· = col), fun other => if other = col then (0 : ℚ) else ⊥, ?_⟩
  unfold topkTransform512
  split_ifs with short
  · have inside : col < count := taken.resolve_right short.not_gt
    exact List.mem_map.mpr ⟨col, List.mem_range.mpr (inside.trans_le short), if_pos inside⟩
  · refine List.mem_append_left _
      (List.mem_map.mpr ⟨col, mem_pick_preferring ?_ (min_le_right _ _) (Nat.lt_succ_self _) ?_, ?_⟩)
    · exact lt_min (by decide) (Nat.succ_pos _)
    · intro other _
      by_cases same : other = col
      · rw [same]
      · simp [same]
    · simp

/-- There are a kernel and logits for which the custom top-k takes a column below the count. -/
theorem exists_mem_rsCustomTopk {col count : ℕ} (inside : col < count) (table : ℕ → ℤ) :
    ∃ kernel logits, table col ∈ rsCustomTopk kernel logits (col + 1) count table := by
  have above : negHalf < ((0 : ℚ) : WithBot ℚ) := by
    rw [negHalf, WithBot.coe_lt_coe]
    norm_num
  have below : negLogit ≤ ((0 : ℚ) : WithBot ℚ) := by
    rw [negLogit, WithBot.coe_le_coe]
    norm_num
  refine ⟨.preferring (· = col), fun _ => (0 : ℚ), ?_⟩
  refine List.mem_append_left _
    (List.mem_map.mpr ⟨col, mem_pick_preferring ?_ (min_le_right _ _) (Nat.lt_succ_self _) ?_, ?_⟩)
  · exact lt_min (by decide) (Nat.succ_pos _)
  · intro other _
    rw [if_pos inside]
    split_ifs
    · exact le_rfl
    · exact below
  · simp only [if_pos inside, if_pos above]

theorem lt_of_negHalf_lt {logits : ℕ → WithBot ℚ} {count col : ℕ}
    (above : negHalf < if col < count then logits col else negLogit) : col < count := by
  by_contra outside
  rw [if_neg outside, negHalf, negLogit, WithBot.coe_lt_coe] at above
  norm_num at above

end Compose

/-! ## The buffers that exist -/

namespace ScoreBuffers

variable {α : Type*} {cfg : Config} {gates : IndexerGates} {clids : List ℕ} {buffers : ScoreBuffers}

/-- Under page recall there is no scratch and no table of cells; otherwise the buffers exist together. -/
structure Shaped (gates : IndexerGates) (buffers : ScoreBuffers) : Prop where
  paged : gates.pageRecall = true → buffers.residentKvScratch = .none ∧ buffers.colToCellBuf = .none
  packed : gates.pageRecall = false → buffers.residentKvScratch.isSome = true →
    buffers.residentPoolLocBuf.isSome = true ∧ buffers.colToCellBuf.isSome = true

private theorem shaped_none : Shaped gates .none :=
  ⟨fun _ => ⟨rfl, rfl⟩, fun _ some => nomatch some⟩

theorem Shaped.ensure (shaped : Shaped gates buffers) (clids : List ℕ) :
    Shaped gates (buffers.ensure gates clids) := by
  unfold ScoreBuffers.ensure
  split_ifs with resident paged
  · unfold ensurePageRecallBuffers
    split_ifs
    · exact shaped
    · exact ⟨fun _ => shaped.paged paged, fun packed => absurd (paged.symm.trans packed) Bool.noConfusion⟩
  · unfold ensureResidentScratch
    split_ifs
    · exact shaped
    · exact ⟨fun on => absurd on paged, fun _ _ => ⟨rfl, rfl⟩⟩
  · exact shaped

theorem Shaped.fill (shaped : Shaped gates buffers) (count : ℕ → ℕ) (locs : ℕ → ℕ → ℤ) :
    Shaped gates (buffers.fill count locs) := by
  constructor
  · exact shaped.paged
  · intro packed some
    obtain ⟨rows, cells⟩ := shaped.packed packed some
    exact ⟨by simpa [ScoreBuffers.fill] using rows, cells⟩

theorem Shaped.refresh (shaped : Shaped gates buffers) (engine : Engine α) :
    Shaped gates (buffers.refreshColToCell cfg engine) := by
  constructor
  · intro paged
    obtain ⟨scratch, cells⟩ := shaped.paged paged
    exact ⟨scratch, by simp [refreshColToCell, cells]⟩
  · intro packed some
    obtain ⟨rows, cells⟩ := shaped.packed packed some
    exact ⟨rows, by simpa [refreshColToCell] using cells⟩

theorem shaped_run (events : List (Event α)) : Shaped gates (run (step cfg gates clids) .none events) := by
  have along : Along (step cfg gates clids) (fun _ _ => True) ScoreBuffers.none events :=
    along_of_forall fun _ _ => trivial
  apply along.invariant shaped_none
  intro buffers event shaped _
  cases event with
  | ensure => exact shaped.ensure clids
  | fill count locs => exact shaped.fill count locs
  | refresh engine => exact shaped.refresh engine

/-- The backend skips its remap only where there is a scratch. -/
theorem active_of_fused (shaped : Shaped gates buffers) {clid : ℕ}
    (skips : buffers.fused { gates with fusedRemap := true } clid = true) :
    gates.pageRecall = false ∧ buffers.active gates clid = true := by
  simp only [fused, Bool.true_and, Bool.and_eq_true] at skips
  obtain ⟨⟨resident, present⟩, -⟩ := skips
  cases paged : gates.pageRecall with
  | true =>
    rw [(shaped.paged paged).1] at present
    exact absurd present Bool.false_ne_true
  | false => exact ⟨rfl, by simp only [active, resident, paged, present]; rfl⟩

theorem fused_of_active (packed : gates.pageRecall = false) {clid : ℕ} (taken : buffers.active gates clid = true)
    (table : buffers.colToCellBuf.isSome = true) :
    buffers.fused { gates with fusedRemap := true } clid = true := by
  simp only [active, packed, Bool.false_and, Bool.false_or, Bool.not_false, Bool.true_and, Bool.and_eq_true] at taken
  simp only [fused, taken.1, taken.2, table, Bool.and_self]

/-- Where there is a scratch, the refreshed table holds the cells of layer 0. -/
theorem refreshed_cells (shaped : Shaped gates buffers) (packed : gates.pageRecall = false) {clid : ℕ}
    (taken : buffers.active gates clid = true) (engine : Engine α) :
    ∃ locs, buffers.residentPoolLocBuf = some locs ∧ (buffers.refreshColToCell cfg engine).colToCellBuf =
      some fun bi col => engine.remapCompressedLoc cfg 0 (locs bi col) := by
  have scratch : buffers.residentKvScratch.isSome = true := by
    cases present : buffers.residentKvScratch with
    | none => simp [active, packed, present] at taken
    | some layers => rfl
  obtain ⟨rows, cells⟩ := shaped.packed packed scratch
  obtain ⟨locs, found⟩ := Option.isSome_iff_exists.mp rows
  obtain ⟨table, found'⟩ := Option.isSome_iff_exists.mp cells
  exact ⟨locs, found, by simp [refreshColToCell, found, found']⟩

end ScoreBuffers

/-! ## Fused and unfused -/

section Branches

variable {gates : IndexerGates} {kernel : TopkKernel (WithBot ℚ)} {buffers : ScoreBuffers} {clid bi : ℕ}
  {scores : RowScores}

theorem forwardC4Indexer_history (idle : buffers.active gates clid = false) :
    forwardC4Indexer gates kernel buffers clid bi scores =
      .ok (pageIndices scores.pageTable (topkTransform512 kernel scores.history scores.width scores.c4SeqLen)) := by
  rw [forwardC4Indexer, if_neg (Bool.eq_false_iff.mp idle)]

theorem forwardC4Indexer_locs (taken : buffers.active gates clid = true)
    (plain : (gates.rsNativeTopk && gates.fusedRemap) = false) :
    forwardC4Indexer gates kernel buffers clid bi scores =
      .ok (residentIndices gates.rsNativeTopk kernel scores.resident scores.buf (buffers.residentCountBuf bi)
        (buffers.residentPoolLocBuf.getD (fun _ _ => -1) bi)) := by
  rw [forwardC4Indexer, if_pos taken, if_neg (Bool.eq_false_iff.mp plain)]

section

variable (taken : buffers.active gates clid = true)
  (fuses : (gates.rsNativeTopk && gates.fusedRemap) = true)
include taken fuses

theorem forwardC4Indexer_cells {cells : ℕ → ℕ → ℤ} (table : buffers.colToCellBuf = some cells) :
    forwardC4Indexer gates kernel buffers clid bi scores =
      .ok (gatherNative kernel scores.resident scores.buf (buffers.residentCountBuf bi) (cells bi)) := by
  rw [forwardC4Indexer, if_pos taken, if_pos fuses, table]

theorem forwardC4Indexer_raises (table : buffers.colToCellBuf = none) :
    forwardC4Indexer gates kernel buffers clid bi scores = .error .attributeError := by
  rw [forwardC4Indexer, if_pos taken, if_pos fuses, table]

end

variable {α : Type*} {cfg : Config} {engine : Engine α} {written : List ℤ}

variable (writes : forwardC4Indexer gates kernel buffers clid bi scores = .ok written)
include writes

theorem attendedIndices_remapped (remaps : buffers.fused gates clid = false) :
    attendedIndices cfg gates kernel engine buffers clid bi scores =
      .ok (engine.remapCompressedLocs cfg clid written) := by
  rw [attendedIndices, writes, remaps]
  rfl

theorem attendedIndices_kept (skips : buffers.fused gates clid = true) :
    attendedIndices cfg gates kernel engine buffers clid bi scores = .ok written := by
  rw [attendedIndices, writes, skips]
  rfl

end Branches

variable {α : Type*}

/-- Under page recall the top-k is the custom one. With a scratch, the native top-k needs that the layer and layer 0
have the same cells for the locations that it may take, and the custom one that the remap leaves the locations as they
are. -/
def FusesAlike (cfg : Config) (gates : IndexerGates) (engine : Engine α) (buffers : ScoreBuffers) (clid bi : ℕ) :
    Prop :=
  if gates.pageRecall then gates.rsNativeTopk = false
  else ∀ locs, buffers.residentPoolLocBuf = some locs → ∀ col,
    if gates.rsNativeTopk then col < buffers.residentCountBuf bi ∨ sparseTopk < buffers.residentCountBuf bi →
      engine.remapCompressedLoc cfg clid (locs bi col) = engine.remapCompressedLoc cfg 0 (locs bi col)
    else col < buffers.residentCountBuf bi → engine.remapCompressedLoc cfg clid (locs bi col) = locs bi col

private theorem gatherNative_congr_iff {count : ℕ} {table table' : ℕ → ℤ} :
    (∀ kernel logits buf, gatherNative kernel logits buf count table = gatherNative kernel logits buf count table') ↔
      ∀ col, col < count ∨ sparseTopk < count → table col = table' col := by
  constructor
  · intro same col taken
    obtain ⟨kernel, logits, mem⟩ := exists_mem_topkTransform512 taken
    have entry := List.map_inj_left.mp (same kernel logits (col + 1)) col mem
    simpa using entry
  · intro alike kernel logits buf
    refine List.map_congr_left fun raw mem => ?_
    split_ifs with real
    · exact alike _ ((lt_of_mem_topkTransform512 mem real).imp_left (min_le_left _ _).trans_lt)
    · rfl

private theorem remap_rsCustomTopk_iff {cfg : Config} {engine : Engine α} {clid count : ℕ} {table : ℕ → ℤ} :
    (∀ kernel logits buf, engine.remapCompressedLocs cfg clid (rsCustomTopk kernel logits buf count table) =
      rsCustomTopk kernel logits buf count table) ↔
      ∀ col < count, engine.remapCompressedLoc cfg clid (table col) = table col := by
  constructor
  · intro same col inside
    obtain ⟨kernel, logits, mem⟩ := exists_mem_rsCustomTopk inside table
    exact List.map_inj_left.mp ((same kernel logits (col + 1)).trans (List.map_id _).symm) _ mem
  · intro alike kernel logits buf
    refine (List.map_congr_left fun loc mem => ?_).trans (List.map_id _)
    rcases List.mem_append.mp mem with taken | padding
    · obtain ⟨col, _, rfl⟩ := List.mem_map.mp taken
      split_ifs with above
      · exact alike col (lt_of_negHalf_lt above)
      · exact remapCompressedLoc_neg
    · rw [List.eq_of_mem_replicate padding]
      exact remapCompressedLoc_neg

/-- A row with equal scores. -/
def columnScores : RowScores where
  resident _ := (0 : ℚ)
  buf := 64
  history _ := ⊥
  width := 0
  c4SeqLen := 1
  pageTable := id

private theorem forall_scores_iff {agrees : TopkKernel (WithBot ℚ) → (ℕ → WithBot ℚ) → ℕ → Prop} :
    (∀ kernel (scores : RowScores), agrees kernel scores.resident scores.buf) ↔ ∀ kernel logits buf,
    agrees kernel logits buf :=
  ⟨fun all kernel logits buf => all kernel { columnScores with resident := logits, buf := buf },
  fun all kernel _ => all kernel _ _⟩

/-- Attention reads the same indices with `FUSED_REMAP` as without, and nothing raises, for all logits and whatever the
kernel does with ties, exactly if the two decisions fit where the score-resident branch is taken. -/
theorem fused_remap_agrees (cfg : Config) (gates : IndexerGates) (clids : List ℕ)
    (events : List (ScoreBuffers.Event α)) (engine : Engine α) (clid bi : ℕ) :
    let buffers := (run (ScoreBuffers.step cfg gates clids) .none events).refreshColToCell cfg engine
    (∀ kernel scores, ∃ indices,
      attendedIndices cfg { gates with fusedRemap := true } kernel engine buffers clid bi scores = .ok indices ∧
      attendedIndices cfg { gates with fusedRemap := false } kernel engine buffers clid bi scores = .ok indices) ↔
    (buffers.active gates clid = true → FusesAlike cfg gates engine buffers clid bi) := by
  intro buffers
  have before : (run (ScoreBuffers.step cfg gates clids) .none events).Shaped gates :=
    ScoreBuffers.shaped_run events
  have shaped : buffers.Shaped gates := before.refresh engine
  have remaps : buffers.fused { gates with fusedRemap := false } clid = false := by
    simp only [ScoreBuffers.fused, Bool.false_and]
  cases taken : buffers.active gates clid with
  | false =>
    have skips : buffers.fused { gates with fusedRemap := true } clid = false := by
      rw [Bool.eq_false_iff]
      intro skips
      exact Bool.noConfusion (taken.symm.trans (ScoreBuffers.active_of_fused shaped skips).2)
    refine iff_of_true (fun kernel scores => ?_) (fun active => nomatch active)
    exact ⟨_, attendedIndices_remapped (forwardC4Indexer_history taken) skips,
      attendedIndices_remapped (forwardC4Indexer_history taken) remaps⟩
  | true =>
    have takenOn : buffers.active { gates with fusedRemap := true } clid = true := taken
    have takenOff : buffers.active { gates with fusedRemap := false } clid = true := taken
    rw [eq_self, true_imp_iff, FusesAlike]
    have plain := fun fusedRemap (custom : gates.rsNativeTopk = false) =>
      (by rw [custom]; rfl : (gates.rsNativeTopk && fusedRemap) = false)
    by_cases paged : gates.pageRecall = true
    · have skips : buffers.fused { gates with fusedRemap := true } clid = false := by
        rw [Bool.eq_false_iff]
        intro skips
        exact Bool.noConfusion (paged.symm.trans (ScoreBuffers.active_of_fused shaped skips).1)
      rw [if_pos paged]
      constructor
      · intro agrees
        by_contra native
        obtain ⟨indices, returns, _⟩ := agrees (.preferring fun _ => false) columnScores
        rw [attendedIndices, forwardC4Indexer_raises takenOn (by simpa using native) (shaped.paged paged).2] at returns
        exact nomatch returns
      · exact fun custom kernel scores =>
          ⟨_, attendedIndices_remapped (forwardC4Indexer_locs takenOn (plain true custom)) skips,
          attendedIndices_remapped (forwardC4Indexer_locs takenOff (plain false custom)) remaps⟩
    · have packed : gates.pageRecall = false := Bool.eq_false_iff.mpr paged
      obtain ⟨locs, rows, cells⟩ := ScoreBuffers.refreshed_cells before packed taken engine
      have table : buffers.residentPoolLocBuf = some locs := rows
      have skips : buffers.fused { gates with fusedRemap := true } clid = true :=
        ScoreBuffers.fused_of_active packed taken (Option.isSome_iff_exists.mpr ⟨_, cells⟩)
      have only : ∀ other, buffers.residentPoolLocBuf = some other ↔ other = locs := fun other => by
        rw [table, Option.some_inj, eq_comm]
      rw [if_neg paged]
      simp only [only, forall_eq]
      have ok_inj : ∀ {on off : List ℤ}, (∃ indices, (.ok on : Except PyError _) = .ok indices ∧
          (.ok off : Except PyError _) = .ok indices) ↔ off = on := by simp [eq_comm]
      by_cases native : gates.rsNativeTopk = true
      · simp only [if_pos native]
        rw [← gatherNative_congr_iff, ← forall_scores_iff]
        refine forall₂_congr fun kernel scores => ?_
        rw [attendedIndices_kept (forwardC4Indexer_cells takenOn (by rw [native]; rfl) cells) skips,
          attendedIndices_remapped (forwardC4Indexer_locs takenOff (Bool.and_false _)) remaps, residentIndices,
          if_pos native, remap_gatherNative, table, ok_inj]
        rfl
      · have custom : gates.rsNativeTopk = false := Bool.eq_false_iff.mpr native
        simp only [if_neg native]
        rw [← remap_rsCustomTopk_iff, ← forall_scores_iff]
        refine forall₂_congr fun kernel scores => ?_
        rw [attendedIndices_kept (forwardC4Indexer_locs takenOn (plain true custom)) skips,
          attendedIndices_remapped (forwardC4Indexer_locs takenOff (plain false custom)) remaps, residentIndices,
          if_neg native, table, ok_inj]
        rfl

/-- A table of cells over one page, in two layers. -/
def onePage : Engine Unit := { Engine.init () with chunkCellLut := fun _ col => if col < 64 then col + 64 else -1 }

/-- The row 0 shows the first chunk of the page. -/
def oneColumn : List (ScoreBuffers.Event Unit) := [.ensure, .fill (fun _ => 1) fun _ col => if col = 0 then 0 else -1]

/-- Page recall with the native top-k raises under `FUSED_REMAP`. A scratch with the custom top-k makes
attention read the location 0 where the cell is 64. -/
theorem fused_remap_differs :
    (∀ kernel, let gates : IndexerGates := ⟨true, true, true, true⟩
      let buffers := (run (ScoreBuffers.step .smallPaged gates [0, 1]) .none oneColumn).refreshColToCell .smallPaged
        onePage
      attendedIndices .smallPaged gates kernel onePage buffers 1 0 columnScores = .error .attributeError ∧
        ∃ indices, attendedIndices .smallPaged { gates with fusedRemap := false } kernel onePage buffers 1 0
          columnScores = .ok indices) ∧
    ∀ kernel, let gates : IndexerGates := ⟨true, false, false, true⟩
      let buffers := (run (ScoreBuffers.step (Config.small 2 10 1) gates [0, 1]) .none oneColumn).refreshColToCell
        (Config.small 2 10 1) onePage
      ∃ written, attendedIndices (Config.small 2 10 1) gates kernel onePage buffers 1 0 columnScores = .ok written ∧
        attendedIndices (Config.small 2 10 1) { gates with fusedRemap := false } kernel onePage buffers 1 0
          columnScores = .ok (onePage.remapCompressedLocs (Config.small 2 10 1) 1 written) ∧
        0 ∈ written ∧ 0 ∉ onePage.remapCompressedLocs (Config.small 2 10 1) 1 written := by
  constructor
  · intro kernel gates buffers
    have raises : forwardC4Indexer gates kernel buffers 1 0 columnScores = .error .attributeError :=
      forwardC4Indexer_raises rfl rfl rfl
    exact ⟨by rw [attendedIndices, raises]; rfl, _, rfl⟩
  · intro kernel gates buffers
    refine ⟨_, attendedIndices_kept (forwardC4Indexer_locs rfl rfl) rfl,
      attendedIndices_remapped (forwardC4Indexer_locs rfl rfl) rfl, ?_, ?_⟩
    · apply List.mem_append_left
      have all : 0 ∈ kernel.pick (fun col => if col < 1 then ((0 : ℚ) : WithBot ℚ) else negLogit) 64 64 :=
        (kernel.spec _ 64 64 le_rfl).mem_of_full (by decide)
      have above : negHalf < ((0 : ℚ) : WithBot ℚ) := by
        rw [negHalf, WithBot.coe_lt_coe]
        norm_num
      exact List.mem_map.mpr ⟨0, all, if_pos above⟩
    · intro member
      obtain ⟨loc, -, zero⟩ := List.mem_map.mp member
      simp only [Engine.remapCompressedLoc, onePage] at zero
      split_ifs at zero <;> omega

end FlashMemory
