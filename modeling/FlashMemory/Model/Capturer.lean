import FlashMemory.Model.Server

/-! # The resident-mask capturer

`ResidentMaskCapturer` decides which chunks attention may select. For every row of the decode batch it
publishes a list of physical locations and a count, and the captured graph picks among them. The rows
are positional, so before a forward every row whose occupant changed is blanked and its locations are
released. After a forward the rows that are due get new pages, and one recall brings the union of
their prompt chunks into the reserve.

This is the score-resident page-recall path with the side-band run in line. The scores are not
modelled: which logical pages `topk` returns for a row is an input.
-/

namespace FlashMemory

/-- What `__init__` fixes. -/
structure CapturerConfig where
  c4LogicalSize : ℕ
  interval : ℕ
  maxBs : ℕ
  pageKmax : ℕ
  staggerCycle : Bool
  safeRelease : Bool
  noRowRelease : Bool

structure Capturer where
  /-- Whether the buffers exist; until then they read as blank. -/
  allocated : Bool
  residentCountBuf : ℕ → ℕ
  /-- A row of the buffer without its padding of `-1`. -/
  residentPoolLocBuf : ℕ → List ℤ
  pendingCount : ℕ → Option ℕ
  prevRowOccupant : Option (List ℕ)
  cachedReqIds : Option (List ℕ)
  ofeGlobalStep : ℕ
  reqStep : ℕ → ℕ
  reqPhase : ℕ → ℕ
  nextPhase : ℕ

/-- What the captured graph leaves for the side-band, by row. -/
structure Forward where
  c4SeqLens : List ℕ
  pageTable : List (List ℕ)
  /-- The chosen logical pages, absent when some target layer has no score. -/
  topLogical : ℕ → Option (List ℕ)

namespace Forward

variable (forward : Forward)

def nBlk (bi : ℕ) : ℕ := forward.c4SeqLens.getD bi 0

/-- The physical page of a logical page. -/
def physPage (bi page : ℕ) : ℕ := (forward.pageTable.getD bi []).getD page 0

/-- The pages of a due row that the loop reaches. -/
def chosen (bi : ℕ) : Option (List ℕ) := if forward.nBlk bi = 0 then none else forward.topLogical bi

/-- The row that `_select_resident_pages` writes; columns beyond the history are `-1`. -/
def selectedLocs (ccfg : CapturerConfig) (bi : ℕ) (topLogical : List ℕ) : List ℤ :=
  topLogical.flatMap fun page => (List.range c4PageSize).map fun offset =>
    if page * c4PageSize + offset < forward.nBlk bi then
      (min (forward.physPage bi page) (ccfg.c4LogicalSize / c4PageSize - 1) * c4PageSize + offset : ℕ)
    else -1

/-- `_scatter_logical_keep`: the locations to recall, without the decode chunks of a known request. -/
def keptLocs (ccfg : CapturerConfig) (prefillChunks : ℤ) (bi : ℕ) (topLogical : List ℕ) : List ℤ :=
  ((List.range (forward.nBlk bi)).filter fun chunk =>
      chunk / c4PageSize ∈ topLogical ∧ (prefillChunks < 0 ∨ (chunk : ℤ) < prefillChunks)).map fun chunk =>
    (min (forward.physPage bi (chunk / c4PageSize) * c4PageSize + chunk % c4PageSize)
      ccfg.c4LogicalSize : ℕ)

end Forward

namespace Capturer

variable {α : Type*}

/-- A capturer whose buffers were allocated by `prebuild_for_capture`, or not. -/
def init (prebuilt : Bool) : Capturer where
  allocated := prebuilt
  residentCountBuf _ := 0
  residentPoolLocBuf _ := []
  pendingCount _ := none
  prevRowOccupant := none
  cachedReqIds := none
  ofeGlobalStep := 0
  reqStep _ := 0
  reqPhase _ := 0
  nextPhase := 0

/-! ## Before a forward -/

/-- Rows that now hold another request, and new rows. -/
def changedRows (ccfg : CapturerConfig) (capturer : Capturer) (reqIds : List ℕ) : List ℕ :=
  (List.range (min reqIds.length ccfg.maxBs)).filter fun bi =>
    (capturer.prevRowOccupant.getD [])[bi]? ≠ reqIds[bi]?

/-- The real locations published in some rows. -/
def rowLocs (capturer : Capturer) (rows : List ℕ) : List ℤ :=
  (rows.flatMap capturer.residentPoolLocBuf).filter (0 ≤ ·)

/-- Release what some rows publish; `SAFE_RELEASE` excludes what the live rows publish. -/
def releaseRows (cfg : Config) (ccfg : CapturerConfig) (capturer : Capturer) (liveRows : ℕ)
    (engine : Engine α) (rows : List ℕ) : Engine α :=
  if cfg.ownerRelease || ccfg.noRowRelease then engine
  else
    let locs := capturer.rowLocs rows
    let locs :=
      if ccfg.safeRelease then locs.filter (· ∉ capturer.rowLocs (List.range liveRows)) else locs
    if locs = [] then engine else (engine.releaseReqPoolLocs cfg locs).1

def blankRows (capturer : Capturer) (rows : List ℕ) : Capturer :=
  { capturer with
    residentCountBuf := fun bi => if bi ∈ rows then 0 else capturer.residentCountBuf bi
    residentPoolLocBuf := fun bi => if bi ∈ rows then [] else capturer.residentPoolLocBuf bi }

/-- The new occupant of a row starts at step 0, so that it is due at once. -/
def restartRow (ccfg : CapturerConfig) (reqIds : List ℕ) (capturer : Capturer) (bi : ℕ) : Capturer :=
  let ri := reqIds.getD bi 0
  let capturer :=
    { capturer with
      reqStep := Function.update capturer.reqStep ri 0
      pendingCount := Function.update capturer.pendingCount bi none }
  if ccfg.staggerCycle then
    { capturer with
      reqPhase := Function.update capturer.reqPhase ri (capturer.nextPhase % ccfg.interval)
      nextPhase := capturer.nextPhase + 1 }
  else capturer

/-- `_reset_changed_rows`: first the rows beyond the batch, then the changed rows. -/
def resetChangedRows (cfg : Config) (ccfg : CapturerConfig) (capturer : Capturer) (engine : Engine α)
    (reqIds : List ℕ) : Capturer × Engine α :=
  let changed := capturer.changedRows ccfg reqIds
  let tail := List.range' reqIds.length (ccfg.maxBs - reqIds.length)
  let engine := capturer.releaseRows cfg ccfg reqIds.length engine tail
  let capturer := capturer.blankRows tail
  let engine := capturer.releaseRows cfg ccfg reqIds.length engine changed
  let capturer := changed.foldl (restartRow ccfg reqIds) (capturer.blankRows changed)
  ({ capturer with prevRowOccupant := some reqIds }, engine)

/-- Indices of the previous batch that are gone. -/
def vanished (cfg : Config) (capturer : Capturer) (reqIds : List ℕ) : List ℕ :=
  (cfg.setOrder (capturer.prevRowOccupant.getD []).dedup).filter (· ∉ reqIds)

/-- `on_forward_begin`. -/
def onForwardBegin (cfg : Config) (ccfg : CapturerConfig) (capturer : Capturer) (engine : Engine α)
    (reqIds : List ℕ) : Capturer × Engine α :=
  if !capturer.allocated || reqIds.isEmpty || capturer.prevRowOccupant = some reqIds then
    (capturer, engine)
  else
    let engine :=
      if cfg.ownerRelease then
        (capturer.vanished cfg reqIds).foldl
          (fun engine (ri : ℕ) => (engine.releaseOwnedPages cfg ri).1) engine
      else engine
    { capturer with cachedReqIds := some reqIds }.resetChangedRows cfg ccfg engine reqIds

/-! ## After a forward -/

/-- The ids that the due loop works with: the cached ones between the periodic refreshes. -/
def resolveIds (ccfg : CapturerConfig) (capturer : Capturer) (reqIds : List ℕ) : List ℕ :=
  match capturer.cachedReqIds with
  | none => reqIds
  | some cached =>
    if cached.length ≠ reqIds.length ∨ (capturer.ofeGlobalStep + 1) % ccfg.interval = 0 then reqIds
    else cached

def isDue (ccfg : CapturerConfig) (capturer : Capturer) (ri : ℕ) : Bool :=
  let step := capturer.reqStep ri
  let phase := if ccfg.staggerCycle then capturer.reqPhase ri else 0
  step = 0 || step % ccfg.interval = phase % ccfg.interval

/-- The due loop: the rows at a cycle boundary, while every row's step advances. -/
def dueLoop (ccfg : CapturerConfig) : Capturer → List (ℕ × ℕ) → Capturer × List ℕ
  | capturer, [] => (capturer, [])
  | capturer, (ri, bi) :: rows =>
    let (after, due) := dueLoop ccfg
      { capturer with reqStep := Function.update capturer.reqStep ri (capturer.reqStep ri + 1) } rows
    (after, if capturer.isDue ccfg ri then bi :: due else due)

/-- The recorded prompt length of an index, in chunks; `-1` excludes nothing from the recall. -/
def prefillLimit (cfg : Config) (engine : Engine α) (ri : ℕ) : ℤ :=
  if cfg.ownReserve && ri < maxReqPool then engine.prefillChunksT ri else -1

section

variable (cfg : Config) (ccfg : CapturerConfig) (engine : Engine α) (reqIds : List ℕ)
  (forward : Forward)

/-- What one due row contributes to the recall. -/
def keptOfRow (bi : ℕ) : List ℤ :=
  match forward.chosen bi with
  | none => []
  | some topLogical =>
    forward.keptLocs ccfg (prefillLimit cfg engine (reqIds.getD bi 0)) bi topLogical

/-- The union that is recalled in one call. -/
def unionLocs (due : List ℕ) : List ℤ :=
  due.flatMap (keptOfRow cfg ccfg engine reqIds forward)

end

section

variable (ccfg : CapturerConfig) (capturer : Capturer) (forward : Forward) (due : List ℕ)

/-- The row buffer after the loop over the due rows. -/
def nextRow
    (bi : ℕ) : List ℤ :=
  match if bi ∈ due then forward.chosen bi else none with
  | none => capturer.residentPoolLocBuf bi
  | some topLogical => forward.selectedLocs ccfg bi topLogical

/-- The loop over the due rows: it writes their row buffers and stages their counts. The iterations
touch different rows, so the loop is written row by row. -/
def stageRows :
    Capturer :=
  { capturer with
    allocated := capturer.allocated || due.any fun bi => (forward.chosen bi).isSome
    residentPoolLocBuf := capturer.nextRow ccfg forward due
    pendingCount := fun bi =>
      match if bi ∈ due then forward.chosen bi else none with
      | none => capturer.pendingCount bi
      | some topLogical => some (topLogical.length * c4PageSize) }

end

/-- The ownership records of the same loop. -/
def recordOwners (cfg : Config) (ccfg : CapturerConfig) (engine : Engine α) (reqIds : List ℕ)
    (forward : Forward) (due : List ℕ) : Engine α :=
  due.foldl (fun engine bi =>
    engine.recordOwnedPages cfg (reqIds.getD bi 0 : ℕ)
      (keptOfRow cfg ccfg engine reqIds forward bi)) engine

/-- `_publish_pending_counts`. -/
def publishPendingCounts (ccfg : CapturerConfig) (capturer : Capturer) : Capturer :=
  { capturer with
    residentCountBuf := fun bi =>
      if capturer.allocated && bi < ccfg.maxBs then
        (capturer.pendingCount bi).getD (capturer.residentCountBuf bi)
      else capturer.residentCountBuf bi
    pendingCount := fun _ => none }

/-- `_sideband_work`. When the recall raises, the staged counts are not published. -/
def sidebandWork (cfg : Config) (ccfg : CapturerConfig) (capturer : Capturer) (engine : Engine α)
    (reqIds : List ℕ) (forward : Forward) (due : List ℕ) : Capturer × Engine α × Except PyError Unit :=
  let staged := capturer.stageRows ccfg forward due
  let union := unionLocs cfg ccfg engine reqIds forward due
  let engine := recordOwners cfg ccfg engine reqIds forward due
  if union = [] then (staged.publishPendingCounts ccfg, engine, .ok ())
  else
    match engine.recallResidentGlobal cfg union with
    | (engine, .error error) => (staged, engine, .error error)
    | (engine, .ok _) => (staged.publishPendingCounts ccfg, engine, .ok ())

/-- The due rows of a forward, and the capturer after its bookkeeping. -/
def dueRows (ccfg : CapturerConfig) (capturer : Capturer) (reqIds : List ℕ) : Capturer × List ℕ :=
  let resolved := capturer.resolveIds ccfg reqIds
  dueLoop ccfg
    { capturer with ofeGlobalStep := capturer.ofeGlobalStep + 1, cachedReqIds := some resolved }
    resolved.zipIdx

/-- `on_forward_end`. -/
def onForwardEnd (cfg : Config) (ccfg : CapturerConfig) (capturer : Capturer) (engine : Engine α)
    (reqIds : List ℕ) (forward : Forward) : Capturer × Engine α × Except PyError Unit :=
  let (counted, due) := capturer.dueRows ccfg reqIds
  if due = [] then (counted, engine, .ok ())
  else counted.sidebandWork cfg ccfg engine (capturer.resolveIds ccfg reqIds) forward due

end Capturer

/-! ## The decode server with its capturer -/

/-- A forward begins, stores its rows and ends before anything else happens. -/
inductive ResidentOp where
  | commit (reqPoolIdx promptLen : ℕ) (pages : List ℕ)
  | takePage (id page : ℕ)
  | finish (id : ℕ)
  | forwardBegin (batch : List ℕ)
  | decode (rows : List BatchRow)
  | forwardEnd (topLogical : ℕ → Option (List ℕ))

structure ResidentServer where
  server : Server
  capturer : Capturer
  /-- The requests of the last forward, in row order. -/
  batch : List ℕ
  running : Bool

namespace ResidentServer

def init (prebuilt : Bool) : ResidentServer := ⟨Server.init, Capturer.init prebuilt, [], false⟩

section

variable (state : ResidentServer)

/-- The request of each row. -/
def occupants : List Request :=
  state.batch.filterMap fun id => state.server.live.find? (·.id = id)

def reqIds : List ℕ := state.occupants.map Request.reqPoolIdx

def forward (topLogical : ℕ → Option (List ℕ)) : Forward where
  c4SeqLens := state.occupants.map Request.formed
  pageTable := state.occupants.map Request.pages
  topLogical := topLogical

end

def step (cfg : Config) (ccfg : CapturerConfig) (state : ResidentServer) : ResidentOp → ResidentServer
  | .commit reqPoolIdx promptLen pages =>
    { state with server := state.server.step cfg (.commit reqPoolIdx promptLen pages) }
  | .takePage id page => { state with server := state.server.step cfg (.takePage id page) }
  | .finish id => { state with server := state.server.step cfg (.finish id) }
  | .forwardBegin batch =>
    let state := { state with batch := batch, running := true }
    let (capturer, engine) := state.capturer.onForwardBegin cfg ccfg state.server.engine state.reqIds
    { state with server := { state.server with engine := engine }, capturer := capturer }
  | .decode rows => { state with server := state.server.step cfg (.decode rows) }
  | .forwardEnd topLogical =>
    let (capturer, engine, _) := state.capturer.onForwardEnd cfg ccfg state.server.engine state.reqIds
      (state.forward topLogical)
    { state with
      server := { state.server with engine := engine }
      capturer := capturer
      running := false }

/-- One page per request, and every row due in every forward. -/
def smallCapturer : CapturerConfig where
  c4LogicalSize := 256
  interval := 1
  maxBs := 4
  pageKmax := 1
  staggerCycle := false
  safeRelease := false
  noRowRelease := false

end ResidentServer

end FlashMemory
