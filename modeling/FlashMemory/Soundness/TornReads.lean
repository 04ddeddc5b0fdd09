import FlashMemory.Model.Publication
import FlashMemory.Collections.Background
import FlashMemory.Soundness.CapturerSteps

/-! # Reads between the writes of a side-band

The captured graph scores the pages of the page table and attends to the locations, column by column, so
the two have to name the same chunk wherever the count lets it look. The count of a row is published after
its page table and locations, which protects the first side-band of a row: until then the count is zero. From
the second one on the old count is still there while the row is rewritten, and a read between the page
table and the locations pairs new pages with old locations. Rows that are rewritten only while none of their
columns can be selected are never torn.
-/

namespace FlashMemory

open List Function

namespace RowBuffers

variable {buffers : RowBuffers} {bi : ℕ}

/-- The location of the column is the chunk that the page table names, or none. -/
def Agrees (buffers : RowBuffers) (bi col : ℕ) : Prop :=
  buffers.residentPoolLocBuf bi col = -1 ∨ buffers.residentPoolLocBuf bi col =
    (buffers.residentIdPageTable bi (col / c4PageSize) * c4PageSize + col % c4PageSize : ℕ)

instance decidableAgrees (buffers : RowBuffers) (bi col : ℕ) : Decidable (buffers.Agrees bi col) :=
  inferInstanceAs (Decidable (_ ∨ _))

/-- What a read may rely on. -/
def Untorn (buffers : RowBuffers) : Prop := ∀ bi, ∀ col < buffers.residentCountBuf bi, buffers.Agrees bi col

/-- No row is being rewritten. -/
def Settled (buffers : RowBuffers) : Prop := ∀ bi col, buffers.Agrees bi col

/-- No column of the row can be selected. -/
def Unread (buffers : RowBuffers) (bi : ℕ) : Prop :=
  ∀ col < buffers.residentCountBuf bi, buffers.residentPoolLocBuf bi col = -1

instance decidableUnread (buffers : RowBuffers) (bi : ℕ) : Decidable (buffers.Unread bi) :=
  inferInstanceAs (Decidable (∀ col < buffers.residentCountBuf bi, buffers.residentPoolLocBuf bi col = -1))

theorem Settled.untorn (settled : buffers.Settled) : buffers.Untorn := fun bi col _ => settled bi col

theorem Settled.blank : blank.Settled := fun _ _ => Or.inl rfl

theorem Settled.blankRows (settled : buffers.Settled) (changed : List ℕ) (batchSize : ℕ) :
    (buffers.blankRows changed batchSize).Settled := by
  intro bi col
  by_cases blanked : bi ∈ changed ∨ batchSize ≤ bi
  · exact Or.inl (by simp only [RowBuffers.blankRows, blanked, ↓reduceIte])
  · simpa only [Agrees, RowBuffers.blankRows, blanked, ↓reduceIte] using settled bi col

/-! ## The writes of a row -/

/-- The buffers with another page table and other locations in one row. -/
def withRow (buffers : RowBuffers) (bi : ℕ) (table : ℕ → ℕ) (locs : ℕ → ℤ) : RowBuffers :=
  { buffers with
    residentIdPageTable := Function.update buffers.residentIdPageTable bi table
    residentPoolLocBuf := Function.update buffers.residentPoolLocBuf bi locs }

variable {table : ℕ → ℕ} {locs : ℕ → ℤ}

theorem withRow_agrees_self {col : ℕ} : (buffers.withRow bi table locs).Agrees bi col ↔
    locs col = -1 ∨ locs col = (table (col / c4PageSize) * c4PageSize + col % c4PageSize : ℕ) := by
  simp only [Agrees, withRow, update_self]

theorem withRow_agrees_of_ne {bj col : ℕ} (other : bj ≠ bi) :
    (buffers.withRow bi table locs).Agrees bj col ↔ buffers.Agrees bj col := by
  simp only [Agrees, withRow, update_of_ne other]

theorem Settled.withRow_untorn (settled : buffers.Settled) (row : ∀ col < buffers.residentCountBuf bi,
    locs col = -1 ∨ locs col = (table (col / c4PageSize) * c4PageSize + col % c4PageSize : ℕ)) :
    (buffers.withRow bi table locs).Untorn := by
  intro bj col below
  by_cases here : bj = bi
  · subst here
    exact withRow_agrees_self.mpr (row col below)
  · exact (withRow_agrees_of_ne here).mpr (settled bj col)

theorem Settled.withRow (settled : buffers.Settled) (row : ∀ col,
    locs col = -1 ∨ locs col = (table (col / c4PageSize) * c4PageSize + col % c4PageSize : ℕ)) :
    (buffers.withRow bi table locs).Settled := by
  intro bj col
  by_cases here : bj = bi
  · subst here
    exact withRow_agrees_self.mpr (row col)
  · exact (withRow_agrees_of_ne here).mpr (settled bj col)

/-- The page table that a row is given. -/
def tableRow (physPages : List ℕ) (k : ℕ) : ℕ := physPages.getD k 0

/-- The locations that a row is given, before the columns beyond the history are masked. -/
def locsRow (physPages : List ℕ) (col : ℕ) : ℤ :=
  if col < physPages.length * c4PageSize then
    (tableRow physPages (col / c4PageSize) * c4PageSize + col % c4PageSize : ℕ)
  else -1

/-- The locations that a row is given. -/
def maskedRow (physPages topLogical : List ℕ) (nBlk col : ℕ) : ℤ :=
  if col < topLogical.length * c4PageSize ∧
      nBlk ≤ topLogical.getD (col / c4PageSize) 0 * c4PageSize + col % c4PageSize then -1
  else locsRow physPages col

theorem locsRow_agrees (physPages : List ℕ) (col : ℕ) : locsRow physPages col = -1 ∨
    locsRow physPages col = (tableRow physPages (col / c4PageSize) * c4PageSize + col % c4PageSize : ℕ) := by
  unfold locsRow
  split_ifs
  · exact Or.inr rfl
  · exact Or.inl rfl

theorem maskedRow_agrees (physPages topLogical : List ℕ) (nBlk col : ℕ) :
    maskedRow physPages topLogical nBlk col = -1 ∨ maskedRow physPages topLogical nBlk col =
      (tableRow physPages (col / c4PageSize) * c4PageSize + col % c4PageSize : ℕ) := by
  unfold maskedRow
  split_ifs
  · exact Or.inl rfl
  · exact locsRow_agrees physPages col

section Exec

variable (buffers bi) (physPages topLogical : List ℕ) (nBlk : ℕ)

theorem exec_zeroTable :
    buffers.exec (.zeroTable bi) = buffers.withRow bi (fun _ => 0) (buffers.residentPoolLocBuf bi) := by
  simp only [exec, withRow, update_eq_self]

theorem exec_writeTable (locs : ℕ → ℤ) : (buffers.withRow bi (fun _ => 0) locs).exec (.writeTable bi physPages) =
    buffers.withRow bi (tableRow physPages) locs := by
  simp only [exec, withRow, update_idem, update_self]
  rfl

theorem exec_fillLocs (table : ℕ → ℕ) (locs : ℕ → ℤ) :
    (buffers.withRow bi table locs).exec (.fillLocs bi) = buffers.withRow bi table fun _ => -1 := by
  simp only [exec, withRow, update_idem]

theorem exec_writeLocs (table : ℕ → ℕ) :
    (buffers.withRow bi table fun _ => -1).exec (.writeLocs bi physPages) =
      buffers.withRow bi table (locsRow physPages) := by
  simp only [exec, withRow, update_idem, update_self]
  rfl

theorem exec_maskLocs (table : ℕ → ℕ) :
    (buffers.withRow bi table (locsRow physPages)).exec (.maskLocs bi topLogical nBlk) =
      buffers.withRow bi table (maskedRow physPages topLogical nBlk) := by
  simp only [exec, withRow, update_idem, update_self]
  rfl

end Exec

end RowBuffers

/-! ## A side-band -/

namespace Forward

open RowBuffers

variable {ccfg : CapturerConfig} {forward : Forward} {buffers : RowBuffers} {bi : ℕ} {topLogical due : List ℕ}

/-- What the writes of a row leave. -/
theorem foldl_rowWrites (ccfg : CapturerConfig) (forward : Forward) (buffers : RowBuffers) (bi : ℕ)
    (topLogical : List ℕ) : (forward.rowWrites ccfg bi topLogical).foldl exec buffers =
      let physPages := forward.selectedPages ccfg bi topLogical
      buffers.withRow bi (tableRow physPages) (maskedRow physPages topLogical (forward.nBlk bi)) := by
  simp only [rowWrites, foldl_cons, foldl_nil, exec_zeroTable, exec_writeTable, exec_fillLocs,
    exec_writeLocs, exec_maskLocs]

/-- A row of which no column can be selected is rewritten unseen. -/
private theorem passes_rowWrites (settled : buffers.Settled) (unread : buffers.Unread bi) :
    Passes exec Untorn Settled buffers (forward.rowWrites ccfg bi topLogical) := by
  have early : ∀ table : ℕ → ℕ, ∀ col < buffers.residentCountBuf bi, buffers.residentPoolLocBuf bi col = -1 ∨
      buffers.residentPoolLocBuf bi col = (table (col / c4PageSize) * c4PageSize + col % c4PageSize : ℕ) :=
    fun _ col below => Or.inl (unread col below)
  let physPages := forward.selectedPages ccfg bi topLogical
  have zeroed : (buffers.withRow bi (fun _ => 0) (buffers.residentPoolLocBuf bi)).Untorn :=
    settled.withRow_untorn (early fun _ => 0)
  have tabled : (buffers.withRow bi (tableRow physPages) (buffers.residentPoolLocBuf bi)).Untorn :=
    settled.withRow_untorn (early (tableRow physPages))
  have filled : (buffers.withRow bi (tableRow physPages) fun _ => -1).Untorn :=
    settled.withRow_untorn fun _ _ => Or.inl rfl
  have located : (buffers.withRow bi (tableRow physPages) (locsRow physPages)).Untorn :=
    settled.withRow_untorn fun col _ => locsRow_agrees physPages col
  have masked : (buffers.withRow bi (tableRow physPages)
      (maskedRow physPages topLogical (forward.nBlk bi))).Settled :=
    settled.withRow (maskedRow_agrees physPages topLogical (forward.nBlk bi))
  simp only [rowWrites, Passes, exec_zeroTable, exec_writeTable, exec_fillLocs, exec_writeLocs, exec_maskLocs]
  exact ⟨settled.untorn, zeroed, tabled, filled, located, masked.untorn, masked⟩

/-- All due rows are rewritten unseen, each of them once. -/
theorem passes_selections {selections : List (ℕ × List ℕ)} (distinct : (selections.map Prod.fst).Nodup)
    (settled : buffers.Settled) (unread : ∀ row ∈ selections, buffers.Unread row.1) :
    Passes exec Untorn Settled buffers (selections.flatMap fun row => forward.rowWrites ccfg row.1 row.2) := by
  induction selections generalizing buffers with
  | nil => exact ⟨settled.untorn, settled⟩
  | cons row rest ih =>
    obtain ⟨first, others⟩ := nodup_cons.mp distinct
    have here : Passes exec Untorn Settled buffers (forward.rowWrites ccfg row.1 row.2) :=
      passes_rowWrites settled (unread row (mem_cons_self ..))
    refine here.append fun settled' => ih others settled' fun other mem => ?_
    have different : other.1 ≠ row.1 := fun same => first (same ▸ mem_map_of_mem mem)
    rw [foldl_rowWrites]
    simp only [Unread, withRow, update_of_ne different]
    exact unread other (mem_cons_of_mem _ mem)

theorem selections_map_fst_sublist (forward : Forward) (due : List ℕ) :
    ((forward.selections due).map Prod.fst).Sublist due := by
  induction due with
  | nil => exact .slnil
  | cons bi rest ih =>
    cases chosen : forward.chosen bi with
    | none => simpa [selections, chosen] using ih.cons bi
    | some topLogical => simpa [selections, chosen] using ih.cons_cons bi

/-- The row that the side-band in line writes at once is what the single writes leave. -/
theorem selectedLocs_maskedRow (ccfg : CapturerConfig) (forward : Forward) (bi : ℕ) (topLogical : List ℕ) (col : ℕ) :
    (forward.selectedLocs ccfg bi topLogical).getD col (-1) =
      maskedRow (forward.selectedPages ccfg bi topLogical) topLogical (forward.nBlk bi) col := by
  rw [selectedLocs_getD, maskedRow, locsRow, selectedPages, length_map]
  by_cases inRow : col < topLogical.length * c4PageSize
  · have block : col / c4PageSize < topLogical.length := Nat.div_lt_of_lt_mul (Nat.mul_comm _ _ ▸ inRow)
    simp only [inRow, true_and, if_true, tableRow, ← Nat.not_lt, ite_not]
    rw [getD_eq_getElem _ _ block, getD_eq_getElem _ _ (by simpa using block), getElem_map]
  · simp only [inRow, false_and, if_false]

/-- A due row holds its selection, every other row is as it was. -/
theorem foldl_selections {selections : List (ℕ × List ℕ)} (distinct : (selections.map Prod.fst).Nodup) :
    let after := (selections.flatMap fun row => forward.rowWrites ccfg row.1 row.2).foldl exec buffers
    (∀ row ∈ selections, after.residentIdPageTable row.1 = tableRow (forward.selectedPages ccfg row.1 row.2) ∧
      after.residentPoolLocBuf row.1 =
        maskedRow (forward.selectedPages ccfg row.1 row.2) row.2 (forward.nBlk row.1)) ∧
    ∀ bi, bi ∉ selections.map Prod.fst → after.residentIdPageTable bi = buffers.residentIdPageTable bi ∧
      after.residentPoolLocBuf bi = buffers.residentPoolLocBuf bi := by
  induction selections generalizing buffers with
  | nil => exact ⟨fun _ mem => by contradiction, fun _ _ => ⟨rfl, rfl⟩⟩
  | cons row rest ih =>
    obtain ⟨first, others⟩ := nodup_cons.mp distinct
    simp only [flatMap_cons, foldl_append, foldl_rowWrites]
    obtain ⟨later, untouched⟩ := @ih (buffers.withRow row.1
      (tableRow (forward.selectedPages ccfg row.1 row.2))
      (maskedRow (forward.selectedPages ccfg row.1 row.2) row.2 (forward.nBlk row.1))) others
    constructor
    · refine forall_mem_cons.mpr ⟨?_, later⟩
      obtain ⟨table, locs⟩ := untouched row.1 first
      simp only [withRow, update_self] at table locs
      exact ⟨table, locs⟩
    · intro bi outside
      simp only [map_cons, mem_cons, not_or] at outside
      obtain ⟨table, locs⟩ := untouched bi outside.2
      simp only [withRow, update_of_ne outside.1] at table locs
      exact ⟨table, locs⟩

end Forward

/-! ## Runs -/

namespace AsyncCapturer

open RowBuffers

variable {ccfg : CapturerConfig} {state : AsyncCapturer}

/-- The due rows are different rows, and a row is rewritten only while no column of it can be selected. -/
def Unseen (state : AsyncCapturer) : AsyncEvent → Prop
  | .dispatch forward due _ => due.Nodup ∧ ∀ row ∈ forward.selections due, state.join.Unread row.1
  | .write | .reset _ _ => True

instance decidableUnseen (state : AsyncCapturer) (event : AsyncEvent) : Decidable (Unseen state event) := by
  cases event <;> dsimp only [Unseen] <;> infer_instance

/-- Whatever the thread does next is unseen. -/
def Guarded (state : AsyncCapturer) : Prop := Passes exec Untorn Settled state.buffers state.thread

/-- Publishing counts changes no column. -/
private theorem passes_publish {buffers : RowBuffers} (settled : buffers.Settled) (counts : List (ℕ × ℕ)) :
    Passes exec Untorn Settled buffers (counts.map fun entry => .publishCount entry.1 entry.2) := by
  refine .ofSettled (fun _ settled => settled.untorn) (fun buffers write mem settled => ?_) settled
  obtain ⟨entry, _, rfl⟩ := mem_map.mp mem
  exact settled

theorem Guarded.step (guarded : state.Guarded) {event : AsyncEvent} (unseen : state.Unseen event) :
    (state.step ccfg event).Guarded := by
  have settled : state.join.Settled := guarded.join
  cases event with
  | write =>
    unfold Guarded at guarded ⊢
    simp only [AsyncCapturer.step]
    split
    · exact guarded
    · next write rest shape =>
      rw [shape] at guarded
      exact guarded.2
  | dispatch forward due recalled =>
    obtain ⟨distinct, unread⟩ := unseen
    by_cases idle : due = []
    · rwa [AsyncCapturer.step, if_pos idle]
    · have once := (forward.selections_map_fst_sublist due).nodup distinct
      rw [AsyncCapturer.step, if_neg idle]
      refine (Forward.passes_selections once settled unread).append fun written => ?_
      cases recalled with
      | true => exact passes_publish written _
      | false => exact ⟨written.untorn, written⟩
  | reset changed batchSize =>
    have blanked := settled.blankRows changed batchSize
    exact ⟨blanked.untorn, blanked⟩

private theorem foldl_publish (buffers : RowBuffers) (counts : List (ℕ × ℕ)) :
    ((counts.map fun entry => SidebandWrite.publishCount entry.1 entry.2).foldl exec buffers).residentPoolLocBuf =
      buffers.residentPoolLocBuf := by
  induction counts generalizing buffers with
  | nil => rfl
  | cons entry rest ih => exact ih _

/-- Once the thread is done, the rows are those that the side-band in line leaves. -/
theorem join_dispatch {forward : Forward} {due : List ℕ} (distinct : due.Nodup) (busy : due ≠ [])
    {capturer : Capturer} (recalled : Bool)
    (same : ∀ bi col, state.join.residentPoolLocBuf bi col = (capturer.residentPoolLocBuf bi).getD col (-1))
    (bi col : ℕ) : (state.step ccfg (.dispatch forward due recalled)).join.residentPoolLocBuf bi col =
      (capturer.nextRow ccfg forward due bi).getD col (-1) := by
  obtain ⟨written, untouched⟩ := @Forward.foldl_selections ccfg forward state.join _
    ((forward.selections_map_fst_sublist due).nodup distinct)
  have unpublished : (state.step ccfg (.dispatch forward due recalled)).join.residentPoolLocBuf =
      (((forward.selections due).flatMap fun row => forward.rowWrites ccfg row.1 row.2).foldl exec
        state.join).residentPoolLocBuf := by
    rw [step, if_neg busy]
    simp only [join, sidebandWrites, foldl_append]
    split_ifs
    · exact foldl_publish _ _
    · rfl
  rw [unpublished]
  by_cases here : bi ∈ (forward.selections due).map Prod.fst
  · obtain ⟨row, mem, rfl⟩ := mem_map.mp here
    obtain ⟨bj, inDue, chosen⟩ := mem_filterMap.mp mem
    obtain ⟨topLogical, found, rfl⟩ := Option.map_eq_some_iff.mp chosen
    rw [(written _ mem).2, Capturer.nextRow, if_pos inDue, found]
    exact (forward.selectedLocs_maskedRow ccfg bj topLogical col).symm
  · rw [(untouched bi here).2, same, Capturer.nextRow]
    by_cases inDue : bi ∈ due
    · cases found : forward.chosen bi with
      | none => rw [if_pos inDue]
      | some topLogical =>
        refine absurd (mem_map.mpr ⟨(bi, topLogical), mem_filterMap.mpr ⟨bi, inDue, ?_⟩, rfl⟩) here
        rw [found, Option.map_some]
    · rw [if_neg inDue]

/-- In every interleaving in which rows are rewritten only while no column of them can be selected, every
read finds, below the count, the chunk that the page table names or none. -/
theorem reads_untorn (events : List AsyncEvent) (unseen : Along (step ccfg) Unseen init events) :
    (run (step ccfg) init events).buffers.Untorn := by
  have guarded : (run (step ccfg) init events).Guarded :=
    unseen.invariant ⟨Settled.blank.untorn, Settled.blank⟩ fun _ _ guarded unseen => guarded.step unseen
  exact guarded.now

/-- A request of 65 chunks on the pages 5 and 7, of which the side-band selects one. -/
def twoPages (page : ℕ) : Forward where
  c4SeqLens := [65]
  pageTable := [[5, 7]]
  topLogical _ := some [page]

/-- The row is written, published and reset, and the next occupant's side-band is halfway through it. -/
theorem reads_untorn_after_reset :
    let events := AsyncEvent.dispatch (twoPages 0) [0] true :: List.replicate 6 .write ++
      [.reset [0] 1, .dispatch (twoPages 1) [0] true, .write, .write, .write, .write]
    (run (step { ResidentServer.smallCapturer with c4LogicalSize := 1024 }) init events).buffers.Untorn :=
  reads_untorn _ (by decide)

theorem join_dispatch_on_first :
    (init.step ResidentServer.smallCapturer (.dispatch (twoPages 0) [0] true)).join.residentPoolLocBuf 0 0 =
      ((Capturer.init true).nextRow ResidentServer.smallCapturer (twoPages 0) [0] 0).getD 0 (-1) :=
  join_dispatch (by decide) (by decide) true (fun _ _ => rfl) 0 0

/-- The first side-band publishes page 5. The second one has written page 7 to the page table and not yet
touched the locations: column 0 is scored on page 7 and attended on page 5. -/
theorem second_sideband_is_torn :
    let events := AsyncEvent.dispatch (twoPages 0) [0] true :: List.replicate 6 .write ++
      [.dispatch (twoPages 1) [0] true, .write, .write]
    let buffers := (run (step { ResidentServer.smallCapturer with c4LogicalSize := 1024 }) init events).buffers
    buffers.residentCountBuf 0 = 64 ∧ buffers.residentIdPageTable 0 0 = 7 ∧
      buffers.residentPoolLocBuf 0 0 = 320 ∧ ¬ buffers.Untorn := by
  refine ⟨by decide, by decide, by decide, fun untorn => ?_⟩
  exact absurd (untorn 0 0 (by decide)) (by decide)

end AsyncCapturer

end FlashMemory
