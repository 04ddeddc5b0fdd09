import FlashMemory.Model.Stores
import FlashMemory.Model.Release

/-! # Requests on the decode server

A request owns physical pages in logical order, so its chunk number `n` is at offset `n % 64` of its
page number `n / 64`. When its transfer is committed, the pages of the prompt have been written to
the mirror; they are discarded from the table and the request is registered. Pages it takes later are
not announced to the engine. A chunk forms at every fourth token, in a decode step that stores a row
for every request of the batch. Ending a request calls nothing either: its pages and its index are
free for the next one.

Since the engine never looks at the content of a chunk, the content can record where it comes from.
-/

namespace FlashMemory

/-- The request, the layer and the location that a chunk's bytes were produced for. -/
inductive Stamp where
  /-- Bytes of no chunk: fresh memory, the tail of a prompt's last page, a row that formed nothing. -/
  | blank
  | written (request layer loc : ℕ)
deriving DecidableEq, Repr

/-- A request, under a number of its own. -/
structure Request where
  id : ℕ
  reqPoolIdx : ℕ
  promptLen : ℕ
  pages : List ℕ
  /-- Chunks formed so far, those of the prompt included. -/
  formed : ℕ
deriving DecidableEq, Repr

namespace Request

variable (req : Request)

def prefillChunks : ℕ := req.promptLen / 4

/-- Physical location of a chunk. -/
def loc (number : ℕ) : ℕ :=
  req.pages.getD (number / c4PageSize) 0 * c4PageSize + number % c4PageSize

/-- The pages that hold tokens of the prompt. -/
def promptPages : List ℕ :=
  req.pages.take ((req.promptLen + (4 * c4PageSize - 1)) / (4 * c4PageSize))

/-- What the transfer writes on the pages of the prompt. -/
def transferred (layer chunk : ℕ) : Stamp :=
  if chunk ∈ (List.range req.prefillChunks).map req.loc then .written req.id layer chunk else .blank

/-- The row that stores the next chunk. -/
def nextRow : DecodeRow (ℕ → Stamp) :=
  ⟨req.reqPoolIdx, req.loc req.formed, some (4 * (req.formed + 1) : ℕ),
    fun layer => .written req.id layer (req.loc req.formed)⟩

end Request

/-- A row of a decode batch: a request that forms its next chunk, or a row that forms none. -/
inductive BatchRow where
  | forms (id : ℕ)
  | idle (reqPoolIdx seqLen : ℤ)
deriving DecidableEq, Repr

inductive ServerOp where
  | commit (reqPoolIdx promptLen : ℕ) (pages : List ℕ)
  | takePage (id page : ℕ)
  | decode (batch : List BatchRow)
  | recallResident (kept : List ℤ)
  | release (locs : List ℤ)
  | finish (id : ℕ)

structure Server where
  engine : Engine Stamp
  live : List Request
  nextId : ℕ

namespace Server

def init : Server := ⟨Engine.init .blank, [], 0⟩

/-- `_commit_transfer_to_req` on a request whose prompt pages have been transferred. -/
def commitEngine (cfg : Config) (engine : Engine Stamp) (req : Request) : Engine Stamp :=
  let engine := engine.transferPages req.transferred req.promptPages
  let engine := (engine.discardCopiedPages cfg (req.promptPages.map Int.ofNat)).1
  engine.registerDecodeReq cfg req.reqPoolIdx req.prefillChunks

/-- The stored row of a batch row; a request that is not live has none. -/
def row? (server : Server) : BatchRow → Option (DecodeRow (ℕ → Stamp))
  | .forms id => (server.live.find? (·.id = id)).map Request.nextRow
  | .idle reqPoolIdx seqLen => some ⟨reqPoolIdx, 0, some seqLen, fun _ => .blank⟩

def rows (server : Server) (batch : List BatchRow) : List (DecodeRow (ℕ → Stamp)) :=
  batch.filterMap server.row?

def step (cfg : Config) (server : Server) : ServerOp → Server
  | .commit reqPoolIdx promptLen pages =>
    let req : Request := ⟨server.nextId, reqPoolIdx, promptLen, pages, promptLen / 4⟩
    { engine := commitEngine cfg server.engine req
      live := req :: server.live
      nextId := server.nextId + 1 }
  | .takePage id page =>
    { server with
      live := server.live.map fun req =>
        if req.id = id then { req with pages := req.pages ++ [page] } else req }
  | .decode batch =>
    { server with
      engine := server.engine.storeDecodeAllLayers cfg (server.rows batch)
      live := server.live.map fun req =>
        if .forms req.id ∈ batch then { req with formed := req.formed + 1 } else req }
  | .recallResident kept => { server with engine := (server.engine.recallResidentGlobal cfg kept).1 }
  | .release locs => { server with engine := (server.engine.releaseReqPoolLocs cfg locs).1 }
  | .finish id => { server with live := server.live.filter (·.id ≠ id) }

end Server

end FlashMemory
