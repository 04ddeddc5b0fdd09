import FlashMemory.Collections.Raising
import FlashMemory.Collections.Scatter
import Mathlib.Algebra.Group.Nat.Defs
import Mathlib.Data.List.Dedup
import Mathlib.Data.List.Sort
import Mathlib.Data.Int.Order.Basic

/-! # The allocators of the KV pools

`SWATokenToKVPoolAllocator` hands out slots of the full attention layers together with slots of the sliding window
layers. Each of its two sub-allocators keeps a list of free pages, and `full_to_swa_index_mapping` has the window
slot of a full slot, where `0` stands for none. A slot is its page times the page size plus an offset, and page `0` is
never handed out.

The kernels of `alloc_extend` and `alloc_decode` run once for every request of a batch and find their pages
by a sum over the requests before them. Here the pages are handed along the batch. `extend_num_tokens` is the sum of the
extensions, as in every call. The kernel of `alloc_extend` has a lane for every token, in a block that Triton bounds:
`KvPool.allocExtend` is what it does when it compiles, and its callers raise when it does not. The block is as large as
the largest one so far, and none of those is beyond the bound unless a call has raised. `free_group_begin` is not
modelled. -/

namespace FlashMemory

/-- What a failed `assert` raises, and what Triton raises for a kernel that it cannot compile. -/
inductive AssertionError where
  | assertion
  | compilation
deriving DecidableEq, Repr

/-- A sub-allocator: `TokenToKVPoolAllocator` for pages of one slot, `PagedTokenToKVPoolAllocator` otherwise. -/
structure KvPool where
  size : ℕ
  needSort : Bool
  freePages : List ℕ
  releasePages : List ℕ
deriving DecidableEq, Repr

/-- A request of an `alloc_extend` batch. `last_loc` is `-1` when there is no prefix. -/
structure ExtendSeq where
  prefixLen : ℕ
  seqLen : ℕ
  lastLoc : ℤ
deriving DecidableEq, Repr

/-- A request of an `alloc_decode` batch. -/
structure DecodeSeq where
  seqLen : ℕ
  lastLoc : ℤ
deriving DecidableEq, Repr

section Kernels

variable (pageSize : ℕ) (seqs : List ExtendSeq)

def numPages (len : ℕ) : ℕ := (len + pageSize - 1) / pageSize

namespace ExtendSeq

def numNewPages (seq : ExtendSeq) : ℕ := numPages pageSize seq.seqLen - numPages pageSize seq.prefixLen

/-- One program of `alloc_extend_kernel`: it fills the old partial page, then whole new pages, then a new partial
page. -/
def outIndices (seq : ExtendSeq) (pages : List ℕ) : List ℕ :=
  let numPart1 := min seq.seqLen (numPages pageSize seq.prefixLen * pageSize) - seq.prefixLen
  let part1 := (List.range numPart1).map fun offset : ℕ => (seq.lastLoc + 1 + offset).toNat
  if seq.prefixLen + numPart1 = seq.seqLen then part1
  else
    let numPart2 := seq.seqLen / pageSize * pageSize - numPages pageSize seq.prefixLen * pageSize
    let part2 := (List.range numPart2).map fun offset => pages.getD (offset / pageSize) 0 * pageSize + offset % pageSize
    if seq.prefixLen + numPart1 + numPart2 = seq.seqLen then part1 ++ part2
    else
      let numPart3 := seq.seqLen - seq.seqLen / pageSize * pageSize
      let part3 :=
        (List.range numPart3).map fun offset => pages.getD (seq.numNewPages pageSize - 1) 0 * pageSize + offset
      part1 ++ part2 ++ part3

end ExtendSeq

namespace DecodeSeq

def numNewPages (seq : DecodeSeq) : ℕ := numPages pageSize seq.seqLen - numPages pageSize (seq.seqLen - 1)

/-- One program of `alloc_decode_kernel`. -/
def outIndex (seq : DecodeSeq) (pages : List ℕ) : ℕ :=
  if seq.numNewPages pageSize = 0 then (seq.lastLoc + 1).toNat else pages.getD 0 0 * pageSize

end DecodeSeq

def allocExtendKernel : List ExtendSeq → List ℕ → List ℕ
  | [], _ => []
  | seq :: seqs, pages => seq.outIndices pageSize pages ++ allocExtendKernel seqs
    (pages.drop (seq.numNewPages pageSize))

def allocDecodeKernel : List DecodeSeq → List ℕ → List ℕ
  | [], _ => []
  | seq :: seqs, pages => seq.outIndex pageSize pages :: allocDecodeKernel seqs (pages.drop (seq.numNewPages pageSize))

/-- `get_num_new_pages` of an extension. -/
def extendNumNewPages : ℕ := seqs.foldr (fun seq total => seq.numNewPages pageSize + total) 0

/-- `get_num_new_pages` with `decode=True`. -/
def decodeNumNewPages (seqs : List DecodeSeq) : ℕ :=
  seqs.foldr (fun seq total => (if seq.seqLen % pageSize = 1 then 1 else 0) + total) 0

def extendNumTokens : ℕ := seqs.foldr (fun seq total => seq.seqLen - seq.prefixLen + total) 0

end Kernels

namespace KvPool

variable (pageSize : ℕ) (pool : KvPool)

/-- After `clear`. The first page is for the outputs of padded tokens. -/
def clear (size : ℕ) (needSort : Bool) : KvPool := ⟨size, needSort, List.range' 1 (size / pageSize), []⟩

/-- All free pages. -/
def pages : List ℕ := pool.freePages ++ pool.releasePages

def availableSize : ℕ := (pool.freePages.length + pool.releasePages.length) * pageSize

def mergeAndSortFree : KvPool :=
  if pool.releasePages = [] then pool
  else
    { pool with
      freePages := (pool.freePages ++ pool.releasePages).insertionSort (· ≤ ·)
      releasePages := [] }

/-- The free pages are merged and sorted when there may be too few of them. -/
def prepare (needed : ℕ) : KvPool :=
  if pool.needSort ∧ pool.freePages.length < needed then pool.mergeAndSortFree else pool

/-- Take the first pages, if there are enough. -/
def take (needed : ℕ) (outIndices : List ℕ) : Option (List ℕ) × KvPool :=
  if pool.freePages.length < needed then (none, pool)
  else (some outIndices, { pool with freePages := pool.freePages.drop needed })

/-- `alloc`: whole pages. -/
def alloc (needSize : ℕ) : Option (List ℕ) × KvPool :=
  let pool := pool.prepare (needSize / pageSize)
  pool.take (needSize / pageSize)
    ((pool.freePages.take (needSize / pageSize)).flatMap fun page => (List.range pageSize).map (page * pageSize + ·))

def allocExtend (seqs : List ExtendSeq) : Option (List ℕ) × KvPool :=
  let pool := pool.prepare (extendNumTokens seqs / pageSize + seqs.length + 1)
  pool.take (extendNumNewPages pageSize seqs) (allocExtendKernel pageSize seqs pool.freePages)

def allocDecode (seqs : List DecodeSeq) : Option (List ℕ) × KvPool :=
  let pool := pool.prepare seqs.length
  pool.take (decodeNumNewPages pageSize seqs) (allocDecodeKernel pageSize seqs pool.freePages)

/-- The pages of some slots in ascending order. The allocator of single slots takes the slots themselves. -/
def pagesOf (slots : List ℕ) : List ℕ :=
  if pageSize = 1 then slots else (slots.map (· / pageSize)).dedup.insertionSort (· ≤ ·)

def free (slots : List ℕ) : KvPool :=
  let pages := pagesOf pageSize slots
  if pool.needSort then
    { pool with releasePages := if pageSize = 1 then pool.releasePages ++ pages else pages ++ pool.releasePages }
  else { pool with freePages := if pageSize = 1 then pool.freePages ++ pages else pages ++ pool.freePages }

def backupState : List ℕ × List ℕ := (pool.freePages, pool.releasePages)

def restoreState (state : List ℕ × List ℕ) : KvPool :=
  { pool with
    freePages := state.1
    releasePages := state.2 }

end KvPool

/-- `SWATokenToKVPoolAllocator`. -/
structure KvAllocator where
  full : KvPool
  swa : KvPool
  fullToSwa : ℕ → ℕ

/-- A call of the allocator, which may fail an assert. -/
abbrev KvM := EStateM AssertionError KvAllocator

namespace KvAllocator

variable (pageSize : ℕ) (allocator : KvAllocator) (slots : List ℕ)

/-- After `clear`. -/
def clear (size sizeSwa : ℕ) (needSort : Bool) : KvAllocator :=
  ⟨.clear pageSize size needSort, .clear pageSize sizeSwa needSort, fun _ => 0⟩

/-- `translate_loc_from_full_to_swa`. The last item of the mapping is `-1`, so `-1` is mapped to `-1`. -/
def translate (loc : ℤ) : ℤ := if loc = -1 then -1 else allocator.fullToSwa loc.toNat

/-- Both results, or a failed assert. -/
def mapped (full swa : Option (List ℕ) × KvPool) (first : ℕ) : KvM (Option (List ℕ)) :=
  match full.1, swa.1 with
  | some fullIndices, some swaIndices => do
    modify fun allocator =>
      ⟨full.2, swa.2, scatter allocator.fullToSwa ((fullIndices.drop first).zip swaIndices)⟩
    pure (some fullIndices)
  | _, _ => do
    modify fun allocator =>
      { allocator with
        full := full.2
        swa := swa.2 }
    throw .assertion

/-- `alloc`, for pages of one slot. -/
def alloc (needSize : ℕ) : KvM (Option (List ℕ)) := do
  let allocator ← get
  if allocator.full.availableSize pageSize < needSize then pure none
  else if allocator.swa.availableSize pageSize < needSize then pure none
  else mapped (allocator.full.alloc pageSize needSize) (allocator.swa.alloc pageSize needSize) 0

/-- The largest number of elements in a tensor of the kernel. -/
def tritonMaxTensorNumel : ℕ := 2 ^ 20

def nextPowerOf2 (n : ℕ) : ℕ := if n ≤ 1 then 1 else 2 ^ ((n - 1).log2 + 1)

/-- Launch the kernel of `alloc_extend` in a block for so many tokens. -/
def compiled (tokens : ℕ) : KvM Unit := ensure .compilation (nextPowerOf2 tokens ≤ tritonMaxTensorNumel)

def allocExtend (seqs : List ExtendSeq) : KvM (Option (List ℕ)) := do
  let allocator ← get
  let numNewPages := extendNumNewPages pageSize seqs
  if allocator.full.availableSize pageSize / pageSize < numNewPages then pure none
  else if allocator.swa.availableSize pageSize / pageSize < numNewPages then pure none
  else do
    set { allocator with full := allocator.full.prepare (extendNumTokens seqs / pageSize + seqs.length + 1) }
    compiled (extendNumTokens seqs)
    mapped (allocator.full.allocExtend pageSize seqs)
      (allocator.swa.allocExtend pageSize
        (seqs.map fun seq => { seq with lastLoc := allocator.translate seq.lastLoc })) 0

/-- Whole pages for a sequence, without the slots behind it. -/
def allocWhole (fullSeqLen : ℕ) (pool : KvPool) : Option (List ℕ) × KvPool :=
  let result := pool.alloc pageSize (numPages pageSize fullSeqLen * pageSize)
  (result.1.map (·.take fullSeqLen), result.2)

/-- The full part of a windowed allocation. A sequence that is too long for the kernel gets whole pages. -/
def allocFresh (fullSeqLen : ℕ) (pool : KvPool) : Option (List ℕ) × KvPool :=
  if tritonMaxTensorNumel < nextPowerOf2 fullSeqLen then allocWhole pageSize fullSeqLen pool
  else pool.allocExtend pageSize [⟨0, fullSeqLen, -1⟩]

/-- `alloc_extend_windowed_swa`: the whole sequence in the full pool, and the tail from `swaWinStart` on in the window
pool. -/
def allocExtendWindowedSwa (fullSeqLen swaWinStart : ℕ) : KvM (Option (List ℕ)) := do
  let allocator ← get
  ensure .assertion (swaWinStart < fullSeqLen)
  let swaWinLen := fullSeqLen - swaWinStart
  if allocator.full.availableSize pageSize / pageSize < numPages pageSize fullSeqLen then pure none
  else if allocator.swa.availableSize pageSize / pageSize < numPages pageSize swaWinLen then pure none
  else
    let full := allocFresh pageSize fullSeqLen allocator.full
    match full.1 with
    | none => do
      set { allocator with full := full.2 }
      pure none
    | some fullIndices => do
      set (⟨full.2, allocator.swa.prepare (swaWinLen / pageSize + 2), allocator.fullToSwa⟩ : KvAllocator)
      compiled swaWinLen
      let swa := allocator.swa.allocExtend pageSize [⟨0, swaWinLen, -1⟩]
      match swa.1 with
      | none => do
        set
          { allocator with
            full := full.2.free pageSize fullIndices
            swa := swa.2 }
        pure none
      | some _ => mapped full swa swaWinStart

/-- `alloc_decode`. When one of the pools has too few pages, the other one keeps its loss. -/
def allocDecode (seqs : List DecodeSeq) : KvM (Option (List ℕ)) := do
  let allocator ← get
  let full := allocator.full.allocDecode pageSize seqs
  let swa := allocator.swa.allocDecode pageSize
    (seqs.map fun seq => { seq with lastLoc := allocator.translate seq.lastLoc })
  if full.1 = none ∨ swa.1 = none then do
    set
      { allocator with
        full := full.2
        swa := swa.2 }
    pure none
  else mapped full swa 0

/-- The window slots that a `free_swa` of some slots returns. -/
def swaIndices : List ℕ := (slots.map allocator.fullToSwa).filter (0 < ·)

def freeSwa : KvAllocator :=
  { allocator with
    swa := allocator.swa.free pageSize (allocator.swaIndices slots)
    fullToSwa := fun slot => if slot ∈ slots then 0 else allocator.fullToSwa slot }

/-- `free`, without the two asserts after it. -/
def free : KvAllocator :=
  { allocator with full := allocator.full.free pageSize slots }.freeSwa pageSize slots

/-- `free`: no more slots are free than the pools have. -/
def freeChecked : KvM Unit := do
  if slots = [] then pure ()
  else do
    modify fun allocator => allocator.free pageSize slots
    let allocator ← get
    ensure .assertion (allocator.full.availableSize pageSize ≤ allocator.full.size)
    ensure .assertion (allocator.swa.availableSize pageSize ≤ allocator.swa.size)

/-- `backup_state`: the pages of both pools, without the mapping. -/
def backupState : (List ℕ × List ℕ) × (List ℕ × List ℕ) := (allocator.full.backupState, allocator.swa.backupState)

def restoreState (state : (List ℕ × List ℕ) × (List ℕ × List ℕ)) : KvAllocator :=
  { allocator with
    full := allocator.full.restoreState state.1
    swa := allocator.swa.restoreState state.2 }

end KvAllocator

end FlashMemory
