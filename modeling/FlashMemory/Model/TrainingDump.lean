import Mathlib.Data.List.Basic
import Mathlib.Logic.Function.Basic

/-! # Training data from two rounds

In the first round the server writes one pickle and one metadata line for each document of a batch. The second round
sends each document again with its response, one request after the other, and the server dumps the compressed K of the
whole text into a second directory. The merge step replaces the compressed K of the first pickles. It pairs the metadata
lines of the second directory with the requests by position.

A pickle is named after its document index, so the index stands for the name. Of its entries only those of the
compressed K are modelled.
-/

namespace FlashMemory

/-- A line of `server_metadata.jsonl`. -/
structure MetaEntry where
  docIndex : ℕ
  rid : ℕ
  compkShapes : ℕ → Option (List ℕ)

/-- A directory with pickles. The entry `compk_layer_i` of a pickle is that of the layer `i`. -/
structure DumpDir (κ : Type*) where
  pickles : ℕ → Option (ℕ → Option κ)
  metadata : List MetaEntry

namespace DumpDir

variable {κ ρ : Type*} (encode : ℕ → ρ → ℕ → Option κ)

def empty : DumpDir κ := ⟨fun _ => none, []⟩

/-- What the server recorded for a request. -/
structure TrainingState (κ : Type*) where
  rid : ℕ
  assignedDocIdx : ℕ
  firstNBlocks : ℕ
  compressedK : ℕ → Option κ
  compkShapes : ℕ → Option (List ℕ)

/-- `_flush_one_training_state`. Very short requests are dropped. An error while the metadata line is written is
ignored. -/
def flushOneTrainingState (dir : DumpDir κ) (state : TrainingState κ) (appended : Bool) : DumpDir κ :=
  if state.firstNBlocks ≤ 2 then dir
  else
    { pickles := Function.update dir.pickles state.assignedDocIdx (some state.compressedK)
      metadata :=
        if appended then dir.metadata ++ [⟨state.assignedDocIdx, state.rid, state.compkShapes⟩] else dir.metadata }

/-- What the client remembers of the first round. -/
structure FirstRound (ρ : Type*) where
  ridToIndex : ℕ → Option ℕ
  ridToResponse : ℕ → Option ρ

/-- A request of the second round, with the first pickle it is for. -/
structure CompkRequest (ρ : Type*) where
  index : ℕ
  response : ρ
  r1File : ℕ

/-- `compk_order` and `compk_r1_files`, in the order of the metadata lines. -/
def compkRequests (client : FirstRound ρ) (batchMetaLines : List MetaEntry) : List (CompkRequest ρ) :=
  batchMetaLines.filterMap fun entry =>
    match client.ridToIndex entry.rid, client.ridToResponse entry.rid with
    | some index, some response => some ⟨index, response, entry.docIndex⟩
    | _, _ => none

/-- A request of the second round that did not fail, when its state is flushed. -/
structure Flush where
  request : ℕ
  rid : ℕ
  docIdx : ℕ
  firstNBlocks : ℕ
  compkShapes : ℕ → Option (List ℕ)
  appended : Bool

/-- The second directory after some flushes. The server records what `encode` makes of the prompt and the response. -/
def secondRound (requests : List (CompkRequest ρ)) (flushes : List Flush) : DumpDir κ :=
  flushes.foldl (fun dir flush => dir.flushOneTrainingState
    { rid := flush.rid
      assignedDocIdx := flush.docIdx
      firstNBlocks := flush.firstNBlocks
      compressedK := fun layer => requests[flush.request]?.bind fun request =>
        encode request.index request.response layer
      compkShapes := flush.compkShapes } flush.appended) empty

/-- `r1_file_to_line_idx`: the last line that names a file. -/
def lineIdx? (metaLines : List MetaEntry) (file : ℕ) : Option ℕ :=
  (metaLines.zipIdx.filter (·.1.docIndex = file)).getLast?.map Prod.snd

/-- The compressed K of the second pickle replaces that of the first one. -/
def replaceCompk (compkData data : ℕ → Option κ) (layer : ℕ) : Option κ := (compkData layer).or (data layer)

/-- The merge of one line of the second directory. -/
def mergeLine (requests : List (CompkRequest ρ)) (metaLinesAll : List MetaEntry) (compkDir dir : DumpDir κ)
    (line : MetaEntry × ℕ) : DumpDir κ :=
  match requests[line.2]? with
  | none => dir
  | some request =>
    match lineIdx? metaLinesAll request.r1File with
    | none => dir
    | some lineIdx =>
      match dir.pickles request.r1File, compkDir.pickles line.1.docIndex with
      | some data, some compkData =>
        { pickles := Function.update dir.pickles request.r1File (some (replaceCompk compkData data))
          metadata := dir.metadata.modify lineIdx fun entry => { entry with compkShapes := line.1.compkShapes } }
      | _, _ => dir

/-- The merge step. -/
def merge (requests : List (CompkRequest ρ)) (compkDir dir : DumpDir κ) : DumpDir κ :=
  compkDir.metadata.zipIdx.foldl (mergeLine requests dir.metadata compkDir) dir

/-- The lines of a batch. -/
def batchMetaLines (dir : DumpDir κ) (currentDocCounter : ℕ) : List MetaEntry :=
  dir.metadata.filter fun entry => currentDocCounter ≤ entry.docIndex

/-- The second round of a batch and its merge. -/
def finishBatch (client : FirstRound ρ) (currentDocCounter : ℕ) (dir : DumpDir κ)
    (flushes : List Flush) : DumpDir κ :=
  let requests := compkRequests client (dir.batchMetaLines currentDocCounter)
  merge requests (secondRound encode requests flushes) dir

end DumpDir

end FlashMemory
