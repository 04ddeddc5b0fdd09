import FlashMemory.Model.Capturer

/-! # When a row is due

A request is refreshed at its first decode step and then once per interval. The step counters and phases
are kept by pool index. On a server that only decodes they are restarted by `on_forward_begin`, which works
with score-resident buffers only; on a server that prefills as well, by `reset_req_residency`. The due loop
reads the indices of the batch through a cached list. Only the capturer matters here; what the two hooks
do to the engine has no influence on it.
-/

namespace FlashMemory

/-- A request in a row of a decode batch. -/
structure Occupant where
  id : ℕ
  reqPoolIdx : ℕ
deriving DecidableEq, Repr

namespace Capturer

variable (ccfg : CapturerConfig) (scoreResident : Bool) (capturer : Capturer)

/-- One row of `reset_req_residency`: an index with the number of chunks of its prompt. -/
def resetRow (row : (ℕ × ℕ) × ℕ) :
    Capturer :=
  let ((ri, nBlk), bi) := row
  let capturer := { capturer with reqStep := Function.update capturer.reqStep ri 0 }
  if nBlk = 0 then capturer
  else
    let capturer :=
      if ccfg.staggerCycle then
        { capturer with
          reqPhase := Function.update capturer.reqPhase ri (capturer.nextPhase % ccfg.interval)
          nextPhase := capturer.nextPhase + 1 }
      else capturer
    if scoreResident && capturer.allocated && bi < ccfg.maxBs then capturer.blankRows [bi] else capturer

/-- `reset_req_residency`, without the mask and the engine. -/
def resetReqResidency
    (reqs : List (ℕ × ℕ)) : Capturer :=
  reqs.zipIdx.foldl (resetRow ccfg scoreResident) { capturer with cachedReqIds := none }

end Capturer

inductive CadenceEvent where
  /-- A prefill batch, as indices with their numbers of chunks. -/
  | prefill (reqs : List (ℕ × ℕ))
  /-- A decode step; its side-band may be the one that allocates the buffers. -/
  | decode (batch : List Occupant) (allocates : Bool)

structure CadenceServer where
  capturer : Capturer
  /-- The requests that have decoded. -/
  seen : List ℕ

namespace CadenceServer

variable (cfg : Config) (ccfg : CapturerConfig) (scoreResident : Bool) (state : CadenceServer) (batch : List Occupant)

def init (prebuilt : Bool) : CadenceServer := ⟨Capturer.init prebuilt, []⟩

/-- The capturer when the forward of a batch begins. -/
def begun : Capturer :=
  if scoreResident then
    (state.capturer.onForwardBegin cfg ccfg (Engine.init ()) (batch.map Occupant.reqPoolIdx)).1
  else state.capturer

/-- The indices that the due loop of the step works with. -/
def resolved : List ℕ :=
  (state.begun cfg ccfg scoreResident batch).resolveIds ccfg (batch.map Occupant.reqPoolIdx)

/-- The due rows of the step. -/
def due : List ℕ :=
  ((state.begun cfg ccfg scoreResident batch).dueRows ccfg (batch.map Occupant.reqPoolIdx)).2

def step : CadenceEvent → CadenceServer
  | .prefill reqs => { state with capturer := state.capturer.resetReqResidency ccfg scoreResident reqs }
  | .decode batch allocates =>
    let (counted, due) := (state.begun cfg ccfg scoreResident batch).dueRows ccfg (batch.map Occupant.reqPoolIdx)
    { capturer := { counted with allocated := counted.allocated || (allocates && !due.isEmpty) }
      seen := state.seen ++ batch.map Occupant.id }

end CadenceServer

end FlashMemory
