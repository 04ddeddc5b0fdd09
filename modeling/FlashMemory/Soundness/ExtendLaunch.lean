import FlashMemory.Model.ExtendLaunch
import FlashMemory.Soundness.KvPages
import FlashMemory.Collections.Memory
import Mathlib.Algebra.BigOperators.Group.List.Basic

/-! # What a launch of `alloc_extend_kernel` writes

The sums over the lanes are the tokens and the pages of the requests in front, so the programs write the parts of one
list next to each other, in whatever order they run. That list has the slots of every request at the offsets of their
positions: first the rest of the old page, and then the pages of its own share of the free list.
-/

namespace FlashMemory

open List ExtendSeq

variable {pageSize : ℕ}

/-! ## The list of all locations -/

namespace ExtendSeq

variable (pageSize) in
/-- The location of a position, given the pages from the first one of its request on. -/
def locationAt (seq : ExtendSeq) (pages : List ℕ) (position : ℕ) : ℤ :=
  if position < numPages pageSize seq.prefixLen * pageSize then seq.lastLoc + 1 + (position - seq.prefixLen : ℕ)
  else (pages.getD (position / pageSize - numPages pageSize seq.prefixLen) 0 * pageSize + position % pageSize : ℕ)

end ExtendSeq

section Batch

variable {seqs : List ExtendSeq} {pages : List ℕ}

end Batch

/-! ## The programs -/

namespace ExtendLaunch

variable {launch : ExtendLaunch} {seqs : List ExtendSeq}

section Parts

variable {seq : ExtendSeq} {start pageStart : ℕ} {target : ℤ → ℤ}

/-- Has the target the locations of a request from a place on? -/
def Agrees (launch : ExtendLaunch) (seq : ExtendSeq) (start pageStart : ℕ) (target : ℤ → ℤ) : Prop :=
  ∀ offset, offset < seq.seqLen - seq.prefixLen → target (start + offset : ℕ) =
    seq.locationAt launch.pageSize (launch.freePages.drop pageStart) (seq.prefixLen + offset)

variable (agree : Agrees launch seq start pageStart target)

include agree

end Parts

end ExtendLaunch

end FlashMemory
