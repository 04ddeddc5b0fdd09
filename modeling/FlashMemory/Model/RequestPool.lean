import FlashMemory.Model.Stores

/-! # Request indices and decode slots

`DecodeReqToTokenPool` hands out request indices first in, first out: an index is allocated when the
request is pre-allocated and returns to the end of the free list when the request ends. Between the
two, the end of the transfer registers the request with the engine. The slot that a request's decode
chunks use is tied to its index by the first registration and is never returned.
-/

namespace FlashMemory

/-- `DecodeReqToTokenPool`, without the token table that no caller here reads. -/
structure DecodeReqToTokenPool where
  freeSlots : List ℕ

namespace DecodeReqToTokenPool

variable (pool : DecodeReqToTokenPool)

def init (size preAllocSize : ℕ) : DecodeReqToTokenPool := ⟨List.range (size + preAllocSize)⟩

def alloc (needSize : ℕ) : Option (List ℕ × DecodeReqToTokenPool) :=
  if pool.freeSlots.length < needSize then none
  else some (pool.freeSlots.take needSize, ⟨pool.freeSlots.drop needSize⟩)

def free (freeIndex : List ℕ) : DecodeReqToTokenPool :=
  ⟨pool.freeSlots ++ freeIndex⟩

end DecodeReqToTokenPool

/-- A registered request that has formed some decode chunks. -/
structure LiveReq where
  reqPoolIdx : ℕ
  prefillChunks : ℕ
  formed : ℕ
deriving DecidableEq, Repr

/-- The pool and the engine, with the requests between their allocation and their end. -/
structure DecodeServer (α : Type*) where
  engine : Engine α
  pool : DecodeReqToTokenPool
  pending : List ℕ
  live : List LiveReq
  /-- The indices registered so far, in the order of their first registration. -/
  registered : List ℕ

inductive RequestEvent where
  | alloc (needSize : ℕ)
  | abort (reqPoolIdx : ℕ)
  | register (reqPoolIdx prefillChunks : ℕ)
  | form (reqPoolIdx : ℕ)
  | finish (reqPoolIdx : ℕ)

namespace DecodeServer

variable {α : Type*}

def init (zero : α) (size preAllocSize : ℕ) : DecodeServer α :=
  ⟨Engine.init zero, DecodeReqToTokenPool.init size preAllocSize, [], [], []⟩

def step (cfg : Config) (server : DecodeServer α) : RequestEvent → DecodeServer α
  | .alloc needSize =>
    match server.pool.alloc needSize with
    | none => server
    | some (indices, pool) => { server with pool := pool, pending := server.pending ++ indices }
  | .abort idx =>
    if idx ∈ server.pending then
      { server with pool := server.pool.free [idx], pending := server.pending.erase idx }
    else server
  | .register idx prefillChunks =>
    if idx ∈ server.pending then
      { server with
        engine := server.engine.registerDecodeReq cfg idx prefillChunks
        pending := server.pending.erase idx
        live := ⟨idx, prefillChunks, 0⟩ :: server.live
        registered := if idx ∈ server.registered then server.registered else server.registered ++ [idx] }
    else server
  | .form idx =>
    { server with
      live := server.live.map fun req =>
        if req.reqPoolIdx = idx then { req with formed := req.formed + 1 } else req }
  | .finish idx =>
    if idx ∈ server.live.map LiveReq.reqPoolIdx then
      { server with
        pool := server.pool.free [idx]
        live := server.live.eraseP (·.reqPoolIdx = idx) }
    else server

/-- The requests run within the configured bounds. -/
def Bounded (cfg : Config) (server : DecodeServer α) : Prop :=
  server.live.length ≤ cfg.decodeMaxConc ∧ ∀ req ∈ server.live, req.formed ≤ cfg.decodeResidentChunks

/-- The row that stores a request's decode chunk of the given number: it is formed when the sequence
length reaches four tokens per chunk. -/
def formingRow (req : LiveReq) (number : ℕ) (loc : ℕ) (pack : α) : DecodeRow α :=
  ⟨req.reqPoolIdx, loc, some (4 * (req.prefillChunks + number + 1) : ℕ), pack⟩

end DecodeServer

end FlashMemory
