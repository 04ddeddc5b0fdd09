import FlashMemory.Model.PageTables

/-! # The side-band in the background

With `ASYNC_RECALL` the side-band runs in a thread of its own, and the captured graph reads the row
buffers at any time between its writes. For each due row `_select_resident_pages` writes the page table in
two steps and the locations in three, and stages the count; after the recall the staged counts are
published one by one. A new side-band and a row reset both wait for the thread. The writes of the recall go
to other buffers; when it raises, the thread ends and the staged counts wait for the next side-band.
-/

namespace FlashMemory

/-- The buffers that the captured graph reads, by row and column. -/
structure RowBuffers where
  residentIdPageTable : ℕ → ℕ → ℕ
  residentPoolLocBuf : ℕ → ℕ → ℤ
  residentCountBuf : ℕ → ℕ

inductive SidebandWrite where
  | zeroTable (bi : ℕ)
  | writeTable (bi : ℕ) (physPages : List ℕ)
  | fillLocs (bi : ℕ)
  | writeLocs (bi : ℕ) (physPages : List ℕ)
  | maskLocs (bi : ℕ) (topLogical : List ℕ) (nBlk : ℕ)
  | publishCount (bi count : ℕ)

namespace RowBuffers

def blank : RowBuffers := ⟨fun _ _ => 0, fun _ _ => -1, fun _ => 0⟩

def exec (buffers : RowBuffers) : SidebandWrite → RowBuffers
  | .zeroTable bi =>
    { buffers with
      residentIdPageTable := Function.update buffers.residentIdPageTable bi fun _ => 0 }
  | .writeTable bi physPages =>
    { buffers with
      residentIdPageTable := Function.update buffers.residentIdPageTable bi fun k =>
        physPages.getD k (buffers.residentIdPageTable bi k) }
  | .fillLocs bi =>
    { buffers with
      residentPoolLocBuf := Function.update buffers.residentPoolLocBuf bi fun _ => -1 }
  | .writeLocs bi physPages =>
    { buffers with
      residentPoolLocBuf := Function.update buffers.residentPoolLocBuf bi fun col =>
        if col < physPages.length * c4PageSize then
          (physPages.getD (col / c4PageSize) 0 * c4PageSize + col % c4PageSize : ℕ)
        else buffers.residentPoolLocBuf bi col }
  | .maskLocs bi topLogical nBlk =>
    { buffers with
      residentPoolLocBuf := Function.update buffers.residentPoolLocBuf bi fun col =>
        if col < topLogical.length * c4PageSize ∧
            nBlk ≤ topLogical.getD (col / c4PageSize) 0 * c4PageSize + col % c4PageSize then -1
        else buffers.residentPoolLocBuf bi col }
  | .publishCount bi count =>
    { buffers with residentCountBuf := Function.update buffers.residentCountBuf bi count }

/-- Blank the changed rows and the rows beyond the batch. -/
def blankRows (buffers : RowBuffers) (changed : List ℕ) (batchSize : ℕ) : RowBuffers where
  residentIdPageTable bi := if bi ∈ changed ∨ batchSize ≤ bi then fun _ => 0 else buffers.residentIdPageTable bi
  residentPoolLocBuf bi := if bi ∈ changed ∨ batchSize ≤ bi then fun _ => -1 else buffers.residentPoolLocBuf bi
  residentCountBuf bi := if bi ∈ changed ∨ batchSize ≤ bi then 0 else buffers.residentCountBuf bi

end RowBuffers

/-- The due rows that get a selection. -/
def Forward.selections (forward : Forward) (due : List ℕ) : List (ℕ × List ℕ) :=
  due.filterMap fun bi => (forward.chosen bi).map fun topLogical => (bi, topLogical)

/-- The writes of `_select_resident_pages`. -/
def Forward.rowWrites (ccfg : CapturerConfig) (forward : Forward) (bi : ℕ) (topLogical : List ℕ) :
    List SidebandWrite :=
  let physPages := forward.selectedPages ccfg bi topLogical
  [.zeroTable bi, .writeTable bi physPages, .fillLocs bi, .writeLocs bi physPages,
    .maskLocs bi topLogical (forward.nBlk bi)]

structure AsyncCapturer where
  buffers : RowBuffers
  pendingCount : OrderedDict ℕ ℕ
  /-- What the thread still has to write. -/
  thread : List SidebandWrite

inductive AsyncEvent where
  /-- The thread does its next write. -/
  | write
  /-- `on_forward_end` starts a side-band, whose recall may raise. -/
  | dispatch (forward : Forward) (due : List ℕ) (recalled : Bool)
  /-- `on_forward_begin` resets rows. -/
  | reset (changed : List ℕ) (batchSize : ℕ)

namespace AsyncCapturer

def init : AsyncCapturer := ⟨RowBuffers.blank, .empty, []⟩

/-- Wait for the thread. -/
def join (state : AsyncCapturer) : RowBuffers := state.thread.foldl RowBuffers.exec state.buffers

/-- The staged counts of a side-band, with those that an earlier one left. -/
def staged (state : AsyncCapturer) (selections : List (ℕ × List ℕ)) : OrderedDict ℕ ℕ :=
  selections.foldl (fun pending row => pending.set row.1 (row.2.length * c4PageSize)) state.pendingCount

variable (ccfg : CapturerConfig) (state : AsyncCapturer)

/-- The writes of a side-band. -/
def sidebandWrites (forward : Forward) (due : List ℕ)
    (recalled : Bool) : List SidebandWrite :=
  let selections := forward.selections due
  selections.flatMap (fun row => forward.rowWrites ccfg row.1 row.2) ++
    if recalled then
      ((state.staged selections).entries.filter (·.1 < ccfg.maxBs)).map fun entry => .publishCount entry.1 entry.2
    else []

def step : AsyncEvent → AsyncCapturer
  | .write =>
    match state.thread with
    | [] => state
    | write :: rest => { state with buffers := state.buffers.exec write, thread := rest }
  | .dispatch forward due recalled =>
    if due = [] then state
    else
      { buffers := state.join
        pendingCount := if recalled then .empty else state.staged (forward.selections due)
        thread := state.sidebandWrites ccfg forward due recalled }
  | .reset changed batchSize =>
    { buffers := state.join.blankRows changed batchSize
      pendingCount := changed.foldl OrderedDict.pop state.pendingCount
      thread := [] }

end AsyncCapturer

end FlashMemory
