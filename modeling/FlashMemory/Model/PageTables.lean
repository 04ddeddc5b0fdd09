import FlashMemory.Model.Capturer

/-! # The page table of the resident rows

Beside its locations a row of the capturer has a page table: the physical pages that the captured indexer
scores for it. A row that is blanked loses its page table, and a due row gets the selected pages with its
locations. The capturer decides nothing by this table, so it is kept beside the server.
-/

namespace FlashMemory

/-- The page ids that `_select_resident_pages` writes. -/
def Forward.selectedPages (ccfg : CapturerConfig) (forward : Forward) (bi : ℕ) (topLogical : List ℕ) :
    List ℕ :=
  topLogical.map fun page => min (forward.physPage bi page) (ccfg.c4LogicalSize / c4PageSize - 1)

/-- The rows that `on_forward_begin` blanks. -/
def Capturer.blankedRows (ccfg : CapturerConfig) (capturer : Capturer) (reqIds : List ℕ) : List ℕ :=
  if !capturer.allocated || reqIds.isEmpty || capturer.prevRowOccupant = some reqIds then []
  else capturer.changedRows ccfg reqIds ++ List.range' reqIds.length (ccfg.maxBs - reqIds.length)

structure PagedServer where
  resident : ResidentServer
  /-- A row of the table without its padding of `0`. -/
  residentIdPageTable : ℕ → List ℕ

namespace PagedServer

def init (prebuilt : Bool) : PagedServer := ⟨ResidentServer.init prebuilt, fun _ => []⟩

/-- The page table of a row after the loop over the due rows. -/
def nextTable (ccfg : CapturerConfig) (state : PagedServer) (topLogical : ℕ → Option (List ℕ)) (bi : ℕ) :
    List ℕ :=
  let forward := state.resident.forward topLogical
  let due := (state.resident.capturer.dueRows ccfg state.resident.reqIds).2
  match if bi ∈ due then forward.chosen bi else none with
  | none => state.residentIdPageTable bi
  | some pages => forward.selectedPages ccfg bi pages

def step (cfg : Config) (ccfg : CapturerConfig) (state : PagedServer) (op : ResidentOp) : PagedServer where
  resident := state.resident.step cfg ccfg op
  residentIdPageTable :=
    match op with
    | .forwardBegin batch => fun bi =>
      if bi ∈ state.resident.capturer.blankedRows ccfg { state.resident with batch := batch }.reqIds then []
      else state.residentIdPageTable bi
    | .forwardEnd topLogical => state.nextTable ccfg topLogical
    | .commit _ _ _ | .takePage _ _ | .finish _ | .decode _ => state.residentIdPageTable

end PagedServer

end FlashMemory
