import FlashMemory.Model.KvAllocator
import Mathlib.Algebra.Ring.Int.Defs

/-! # The launch of `alloc_extend_kernel`

Every program of the kernel loads the lengths of the batch up to its own request and finds the place of its slots and of
its pages by two sums. The lanes behind its own request are masked and read as `0`. The programs run in any order and
write to a tensor that has not been initialised.
-/

namespace FlashMemory

/-- The arguments of a launch. -/
structure ExtendLaunch where
  seqs : List ExtendSeq
  freePages : List ℕ
  bsUpper : ℕ
  pageSize : ℕ
  maxNumExtendTokens : ℕ

namespace ExtendLaunch

variable (launch : ExtendLaunch)

/-- What the first `lanes` lanes store from an address on, up to the mask. -/
def store (out : ℤ → ℤ) (address : ℤ) (lanes : ℕ) (mask : ℤ) (value : ℕ → ℤ) : ℤ → ℤ :=
  scatter out
    (((List.range lanes).filter fun lane : ℕ => (lane : ℤ) < mask).map fun lane : ℕ => (address + lane, value lane))

/-- A load from `free_page_ptr`. -/
def freePage (index : ℤ) : ℤ := launch.freePages.getD index.toNat 0

/-- The lengths that a lane of a program loads. -/
def lane (pid index : ℕ) : ExtendSeq := if index ≤ pid then launch.seqs.getD index ⟨0, 0, 0⟩ else ⟨0, 0, 0⟩

def extendLen (seq : ExtendSeq) : ℤ := seq.seqLen - seq.prefixLen

def newPages (seq : ExtendSeq) : ℤ := numPages launch.pageSize seq.seqLen - numPages launch.pageSize seq.prefixLen

/-- `tl.sum` over the lanes of a program. -/
def laneSum (pid : ℕ) (value : ExtendSeq → ℤ) :
    ℤ := ((List.range launch.bsUpper).map fun index => value (launch.lane pid index)).sum

/-- The program of a request. -/
def program (pid : ℕ) (out : ℤ → ℤ) : ℤ → ℤ :=
  let seq := launch.seqs.getD pid ⟨0, 0, 0⟩
  let outputStartLoc := launch.laneSum pid extendLen - extendLen seq
  let newPageStartLoc := launch.laneSum pid launch.newPages - launch.newPages seq
  -- Part 1: the old partial page
  let numPart1 : ℤ := min seq.seqLen (numPages launch.pageSize seq.prefixLen * launch.pageSize) - seq.prefixLen
  let out := store out outputStartLoc launch.pageSize numPart1 fun offset => seq.lastLoc + 1 + offset
  if seq.prefixLen + numPart1 = seq.seqLen then out
  else
    -- Part 2: the new full pages
    let numPart2 : ℤ :=
      seq.seqLen / launch.pageSize * launch.pageSize - numPages launch.pageSize seq.prefixLen * launch.pageSize
    let out := store out (outputStartLoc + numPart1) launch.maxNumExtendTokens numPart2 fun offset =>
      launch.freePage (newPageStartLoc + (offset / launch.pageSize : ℕ)) * launch.pageSize +
      (offset % launch.pageSize : ℕ)
    if seq.prefixLen + numPart1 + numPart2 = seq.seqLen then out
    else
      -- Part 3: the new partial page
      let numPart3 : ℤ := seq.seqLen - seq.seqLen / launch.pageSize * launch.pageSize
      store out (outputStartLoc + numPart1 + numPart2) launch.pageSize numPart3 fun offset =>
        launch.freePage (newPageStartLoc + launch.newPages seq - 1) * launch.pageSize + offset

/-- All programs, in the order in which they happen to run. -/
def run (order : List ℕ) (out : ℤ → ℤ) : ℤ → ℤ := order.foldl (fun out pid => launch.program pid out) out

end ExtendLaunch

end FlashMemory
