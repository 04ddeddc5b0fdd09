import FlashMemory.Model.IndexOffload
import FlashMemory.Soundness.PublishedRows
import FlashMemory.Collections.Tally

/-! # Counting the keys that a decode step drops

`_index_decode_dropped` counts the rows whose page has no entry for its first chunk. A key is written in the recall
block of its page only if that entry is the first cell of a recall block. When decode has stored the first chunk itself,
the entry is a cell of the decode region: the key is written in the sink block, and it is not counted.
-/

namespace FlashMemory

namespace Engine

variable {α : Type*} {cfg : Config} {engine : Engine α} {full : List ℕ}

/-- The store picks the cell at the offset of the chunk, in the recall block of its page. -/
def WrittenInBlock (cfg : Config) (engine : Engine α) (loc : ℤ) : Prop :=
  ∃ block < cfg.maxBlocks, engine.blockCell cfg (loc.toNat / c4PageSize) = (block * c4PageSize : ℕ) ∧
    engine.indexDecodeCell cfg loc = block * c4PageSize + loc.toNat % c4PageSize

instance (loc : ℤ) : Decidable (engine.WrittenInBlock cfg loc) := by
  delta WrittenInBlock
  infer_instance

private theorem writtenInBlock_iff {loc : ℤ} (positive : 0 < loc) : engine.WrittenInBlock cfg loc ↔
    ∃ block < cfg.maxBlocks, engine.blockCell cfg (loc.toNat / c4PageSize) = (block * c4PageSize : ℕ) := by
  constructor
  · rintro ⟨block, below, entry, _⟩
    exact ⟨block, below, entry⟩
  · rintro ⟨block, below, entry⟩
    refine ⟨block, below, entry, ?_⟩
    simp only [c4PageSize] at entry ⊢
    simp only [indexDecodeCell, indexCells, c4PageSize, entry]
    rw [if_pos (by omega)]
    omega

/-- In a run of decode steps from any state of the table, the store of an offloaded layer counts exactly the rows whose
keys it does not write in the recall block of their page, if and only if no such page has its first chunk in another
place. -/
theorem index_drops_counted_iff (cfg : Config) (full : List ℕ) (start : Engine α × ℕ)
    (history : List (List (DecodeRow (ℕ → α)))) (rows : List (DecodeRow (ℕ → α))) {layer : ℕ}
    (offloaded : layer ∉ full) :
    let before := (List.range layer).foldl (countIndexLayer cfg full rows)
      (run (countIndexAllLayers cfg full) start history)
    (countIndexLayer cfg full rows before layer).2 = before.2 + rows.countP (fun row =>
        0 < row.c4OutLoc ∧ ¬before.1.WrittenInBlock cfg row.c4OutLoc) ↔
      ∀ row ∈ rows, 0 < row.c4OutLoc → 0 ≤ before.1.blockCell cfg (row.c4OutLoc.toNat / c4PageSize) →
        ∃ block < cfg.maxBlocks, before.1.blockCell cfg (row.c4OutLoc.toNat / c4PageSize) =
          (block * c4PageSize : ℕ) := by
  intro before
  rw [countIndexLayer, indexDecodeDropped, if_neg offloaded, Nat.add_left_cancel_iff, countP_eq_iff]
  · refine forall₂_congr fun row _ => ?_
    simp only [decide_eq_true_eq, ← not_lt]
    constructor
    · intro counted positive mapped
      by_contra unplaced
      exact mapped (counted ⟨positive, mt (writtenInBlock_iff positive).mp unplaced⟩).2
    · rintro placed ⟨positive, unwritten⟩
      refine ⟨positive, ?_⟩
      by_contra mapped
      exact unwritten ((writtenInBlock_iff positive).mpr (placed positive mapped))
  · intro row _ dropped
    simp only [decide_eq_true_eq] at dropped ⊢
    refine ⟨dropped.1, ?_⟩
    rintro ⟨block, _, entry, _⟩
    omega

/-- The page of the prompt is recalled, and then decode forms a chunk on it. -/
theorem index_drops_counted_on_recalledPage :
    let cfg := { Config.small 3 10 2 with globalMode := true, pageRecall := true, lutTruth := true }
    let state := run (IndexServer.step cfg ResidentServer.smallCapturer [1]) (IndexServer.init true)
      [.commit 0 16 [1], .forwardBegin [0], .decode [.idle 0 17], .forwardEnd fun _ => some [0], .forwardBegin [0]]
    let rows := state.resident.server.rows [.forms 0]
    (countIndexLayer cfg [1] rows (state.engine, 0) 0).2 =
      0 + rows.countP fun row => 0 < row.c4OutLoc ∧ ¬state.engine.WrittenInBlock cfg row.c4OutLoc :=
  (index_drops_counted_iff _ [1] _ [] _ (by decide)).mpr (by decide)

/-- The prompt fills page 1, so decode forms the first chunk of page 2. In layer 0 its key is dropped and counted, and
the chunk is stored in the decode region. In layer 1 the key is not written in a recall block either, and it is not
counted. -/
theorem index_drop_not_counted :
    let cfg := { Config.small 3 10 1 with globalMode := true, pageRecall := true, localfix := true }
    let history : List ResidentOp := [.commit 0 256 [1], .takePage 0 2, .forwardBegin [0]]
    let state := run (IndexServer.step cfg ResidentServer.smallCapturer []) (IndexServer.init true) history
    let rows := state.resident.server.rows [.forms 0]
    let before := countIndexLayer cfg [] rows (state.engine, 0) 0
    Along (IndexServer.step cfg ResidentServer.smallCapturer [])
        (fun state op => ResidentServer.Admissible cfg ResidentServer.smallCapturer state.resident op)
        (IndexServer.init true) (history ++ [.decode [.forms 0]]) ∧
      before.2 = 1 ∧ (countIndexLayer cfg [] rows before 1).2 = 1 ∧
      rows.countP (fun row => 0 < row.c4OutLoc ∧ ¬before.1.WrittenInBlock cfg row.c4OutLoc) = 1 := by
  decide

end Engine

end FlashMemory
