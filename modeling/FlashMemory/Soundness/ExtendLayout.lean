import FlashMemory.Soundness.ExtendLaunch

/-! # The locations of a batch

Every request gets its own share of the free pages. Its positions lie in its old page and in its share, each at its
offset in a page, so no location is handed out twice unless two requests continue in one page.
-/

namespace FlashMemory

open List ExtendSeq Int

variable {pageSize : ℕ}

/-! ## One request -/

namespace ExtendSeq

variable (pageSize) in
/-- `last_loc` ends the prefix within its page. -/
def Aligned (seq : ExtendSeq) : Prop := (seq.lastLoc + 1) % pageSize = seq.prefixLen % pageSize

variable (pageSize) in
/-- Do new tokens go to the last page of the prefix? -/
def Continues (seq : ExtendSeq) : Prop := seq.prefixLen % pageSize ≠ 0 ∧ seq.prefixLen < seq.seqLen

variable {seq : ExtendSeq} {share : List ℕ} {position : ℕ}

section

variable (page : 0 < pageSize) (aligned : seq.Aligned pageSize)

include page aligned

variable (length : seq.numNewPages pageSize ≤ share.length)
include length

end

end ExtendSeq

/-! ## A batch -/

section Batch

variable {seqs : List ExtendSeq} {pages : List ℕ}

end Batch

namespace KvPool

end KvPool

end FlashMemory
