import FlashMemory.Model.KvAllocator

/-! # The device buffers of HiSparse

When the chunks of a prompt are on the host, a request keeps a buffer of `padded_buffer_size` device slots.
`alloc_device_buffer` makes it from the slots that the request has: it puts the newest one where later chunks are
written, gives back the pages that are not needed, or completes the last page and takes more of them.
-/

namespace FlashMemory

/-- The device slots of `HiSparseTokenToKVPoolAllocator`, and `full_to_hisparse_device_index_mapping`. -/
structure HiSparseAllocator where
  pool : KvPool
  fullToHisparse : ℕ → ℕ

namespace HiSparseAllocator

variable (pageSize : ℕ)

/-- `torch.unique(slots // page_size)`. -/
def uniquePages (slots : List ℕ) : List ℕ := (slots.map (· / pageSize)).dedup.insertionSort (· ≤ ·)

/-- `free` of `PagedTokenToKVPoolAllocator`, for pages of one slot as well. -/
def freePages (pool : KvPool) (slots : List ℕ) : KvPool :=
  if pool.needSort then { pool with releasePages := uniquePages pageSize slots ++ pool.releasePages }
  else { pool with freePages := uniquePages pageSize slots ++ pool.freePages }

/-- The newest slot and the one at the end of the buffer change places. -/
def swapNewest (deviceBufferSize : ℕ) (indices : List ℕ) : List ℕ :=
  if deviceBufferSize + 1 < indices.length then
    (indices.set deviceBufferSize (indices.getD (indices.length - 1) 0)).set (indices.length - 1)
      (indices.getD deviceBufferSize 0)
  else indices

/-- The rest of the last page is counted on from the last slot. -/
def completePage (indices : List ℕ) : List ℕ :=
  if indices.length % pageSize = 0 then indices
  else indices ++ List.range' (indices.getD (indices.length - 1) 0 + 1) (pageSize - indices.length % pageSize)

/-- The pages of the surplus that have no slot in the buffer are freed. -/
def freeSurplus (pool : KvPool) (buffer surplus : List ℕ) : KvPool :=
  let pureSurplus := (uniquePages pageSize surplus).filter (· ∉ uniquePages pageSize buffer)
  if surplus = [] ∨ pureSurplus = [] then pool else freePages pageSize pool (pureSurplus.map (· * pageSize))

def allocDeviceBuffer (allocatedIndices : List ℕ) (needSize : ℕ) :
    EStateM AssertionError HiSparseAllocator (List ℕ) := do
  ensure .assertion (needSize % pageSize = 0)
  let allocator ← get
  let hisparseIndices := swapNewest (needSize - pageSize) (allocatedIndices.map allocator.fullToHisparse)
  let mapping := scatter allocator.fullToHisparse (allocatedIndices.map (·, 0))
  if needSize ≤ hisparseIndices.length then do
    let buffer := hisparseIndices.take needSize
    set (⟨freeSurplus pageSize allocator.pool buffer (hisparseIndices.drop needSize), mapping⟩ : HiSparseAllocator)
    pure buffer
  else
    let completed := completePage pageSize hisparseIndices
    let extra := allocator.pool.alloc pageSize (needSize - completed.length)
    set (⟨extra.2, mapping⟩ : HiSparseAllocator)
    match extra.1 with
    | some extraIndices => pure (completed ++ extraIndices)
    | none => throw .assertion

end HiSparseAllocator

end FlashMemory
