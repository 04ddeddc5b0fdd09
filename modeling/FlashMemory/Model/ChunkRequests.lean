import FlashMemory.Model.KvCalls

/-! # Requests of the decode server with a chunk cache

`SWAChunkCache` shares nothing between requests. A request gets its slots from `alloc_extend_windowed_swa` when it
is preallocated and from `alloc_decode` while it runs, loses window slots that have fallen behind the window to
`_evict_swa`, and gives everything back in `release_kv_cache`. Requests are named by their `req_pool_idx`.
-/

namespace FlashMemory

structure ChunkConfig where
  pageSize : ℕ
  slidingWindowSize : ℕ
  /-- `SGLANG_OPT_SWA_EVICT_DROP_PAGE_MARGIN`. -/
  evictDropPageMargin : Bool
  /-- Is there a `speculative_algorithm`? Only then may slots beyond the committed ones be left at the end. -/
  speculative : Bool
  pageSize_gt : 1 < pageSize
  slidingWindowSize_pos : 0 < slidingWindowSize

/-- A request that runs. -/
structure ChunkReq where
  /-- `req_to_token[req_pool_idx, :kv_allocated_len]`. -/
  row : List ℕ
  kvCommittedLen : ℕ
  swaEvictedSeqlen : ℕ
deriving DecidableEq, Repr

inductive ChunkCall where
  | preAlloc (req fillLen winStart : ℕ)
  /-- `alloc_for_decode` of a batch. -/
  | decode (batch : List ℕ)
  | commit (req kvCommittedLen : ℕ)
  | evictSwa (req preLen : ℕ)
  | release (req : ℕ)
deriving DecidableEq

structure ChunkServer where
  kv : KvServer
  reqs : ℕ → Option ChunkReq

namespace ChunkServer

variable (cfg : ChunkConfig) (server : ChunkServer) (entry : ChunkReq)

def init (size sizeSwa : ℕ) (needSort : Bool) : ChunkServer := ⟨.init cfg.pageSize size sizeSwa needSort, fun _ => none⟩

/-- A sequence of an `alloc_decode` batch. -/
def decodeSeq : DecodeSeq := ⟨entry.row.length + 1, entry.row.getLastD 0⟩

/-- Write the new slots to the rows. -/
def writeRows : List ℕ → List ℕ → (ℕ → Option ChunkReq) → ℕ → Option ChunkReq
  | req :: batch, slot :: slots, reqs =>
    writeRows batch slots
      (Function.update reqs req ((reqs req).map fun entry => { entry with row := entry.row ++ [slot] }))
  | _, _, reqs => reqs

/-- Where `_evict_swa` stops. Both subtractions of the source may go below zero, and then nothing is evicted. -/
def newSwaEvictedSeqlen (preLen : ℕ) : ℕ :=
  let evictThreshold := if cfg.evictDropPageMargin then preLen - cfg.slidingWindowSize
    else preLen - cfg.slidingWindowSize - cfg.pageSize
  max entry.swaEvictedSeqlen evictThreshold / cfg.pageSize * cfg.pageSize

/-- `cache_finished_req` of the chunk cache. -/
def cacheFinishedReq : ChunkServer :=
  { server with kv := server.kv.step cfg.pageSize (.free (entry.row.take entry.kvCommittedLen)) }

/-- The slots that `release_kv_cache` frees after that. -/
def overallocated : List ℕ :=
  let startP := numPages cfg.pageSize entry.kvCommittedLen * cfg.pageSize
  entry.row.drop startP

/-- The second half of `release_kv_cache`. -/
def releaseOverallocated : ChunkServer :=
  { server with kv := server.kv.step cfg.pageSize (.free (overallocated cfg entry)) }

/-- One call. A call that gets no slots or fails the assert of `release_kv_cache` raises and ends the run of the server,
so here it changes nothing. -/
def step : ChunkCall → ChunkServer
  | .preAlloc req fillLen winStart =>
    match KvAllocator.allocExtendWindowedSwa cfg.pageSize fillLen winStart server.kv.allocator with
    | .ok (some slots) allocator =>
      ⟨server.kv.handOut (.ok (some slots) allocator),
        Function.update server.reqs req (some ⟨slots, fillLen, winStart⟩)⟩
    | _ => server
  | .decode batch =>
    match KvAllocator.allocDecode cfg.pageSize ((batch.filterMap server.reqs).map decodeSeq) server.kv.allocator with
    | .ok (some slots) allocator =>
      ⟨server.kv.handOut (.ok (some slots) allocator), writeRows batch slots server.reqs⟩
    | _ => server
  | .commit req kvCommittedLen =>
    { server with
      reqs := Function.update server.reqs req
        ((server.reqs req).map fun entry => { entry with kvCommittedLen := kvCommittedLen }) }
  | .evictSwa req preLen =>
    match server.reqs req with
    | none => server
    | some entry =>
      let new := newSwaEvictedSeqlen cfg entry preLen
      if entry.swaEvictedSeqlen < new then
        ⟨server.kv.step cfg.pageSize (.freeSwa ((entry.row.take new).drop entry.swaEvictedSeqlen)),
          Function.update server.reqs req (some { entry with swaEvictedSeqlen := new })⟩
      else server
  | .release req =>
    match server.reqs req with
    | none => server
    | some entry =>
      if cfg.speculative ∨ entry.kvCommittedLen = entry.row.length then
        { ((server.cacheFinishedReq cfg entry).releaseOverallocated cfg entry) with
          reqs := Function.update server.reqs req none }
      else server

/-- How the scheduler calls: a free row for a new request, aligned windows, different running requests in a batch, and
no length beyond the allocated one. -/
def Allowed : ChunkCall → Prop
  | .preAlloc req _ winStart => server.reqs req = none ∧ cfg.pageSize ∣ winStart
  | .decode batch => batch.Nodup ∧ ∀ req ∈ batch, server.reqs req ≠ none
  | .commit req kvCommittedLen => ∀ entry ∈ server.reqs req, kvCommittedLen ≤ entry.row.length
  | .evictSwa req preLen => ∀ entry ∈ server.reqs req, preLen ≤ entry.row.length
  | .release _ => True

instance : DecidablePred (server.Allowed cfg) := fun call => by
  cases call <;> dsimp only [Allowed] <;> infer_instance

/-- A release at the end of a page, or of a request without slots beyond the committed ones. -/
def AtPageEnd : ChunkCall → Prop
  | .release req => ∀ entry ∈ server.reqs req, cfg.pageSize ∣ entry.kvCommittedLen ∨
    entry.kvCommittedLen = entry.row.length
  | _ => True

instance : DecidablePred (server.AtPageEnd cfg) := fun call => by
  cases call <;> dsimp only [AtPageEnd] <;> infer_instance

/-- A `free` of these slots returns no window page that is free already or belongs to another request. -/
def FreesOwn (req : ℕ) (slots : List ℕ) : Prop :=
  ∀ number ∈ KvPool.pagesOf cfg.pageSize (server.kv.allocator.swaIndices slots),
    number ∉ server.kv.allocator.swa.freePages ++ server.kv.allocator.swa.releasePages ∧
      ∀ other entry, other ≠ req → server.reqs other = some entry → ∀ slot ∈ entry.row,
        server.kv.allocator.fullToSwa slot ≠ 0 → server.kv.allocator.fullToSwa slot / cfg.pageSize ≠ number

/-- What a call should do: the slots in front of a new window are not mapped, and a release returns its own window
pages. -/
def Proper : ChunkCall → Prop
  | .preAlloc _ fillLen winStart => ∀ slots allocator,
    KvAllocator.allocExtendWindowedSwa cfg.pageSize fillLen winStart server.kv.allocator = .ok (some slots) allocator →
      ∀ slot ∈ slots.take winStart, allocator.fullToSwa slot = 0
  | .release req => ∀ entry ∈ server.reqs req,
    server.FreesOwn cfg req (entry.row.take entry.kvCommittedLen) ∧
      (server.cacheFinishedReq cfg entry).FreesOwn cfg req (overallocated cfg entry)
  | _ => True

end ChunkServer

end FlashMemory
