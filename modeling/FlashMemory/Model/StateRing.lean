import Mathlib.Data.Int.Basic

/-! # Where the compressor keeps its states

Each page of the sliding window has a ring of state rows. The rows are read in groups of as many as are compressed
together, and with a ratio of 4 a group overlaps with the one before it.
-/

namespace FlashMemory

/-- A failed assertion is `none`. -/
def getCompressStateRingSize (onlineC128 : Bool) (compressRatio : ℕ) (isSpeculative : Bool) : Option ℕ :=
  if compressRatio ≠ 4 ∧ compressRatio ≠ 128 then none
  else if compressRatio = 128 ∧ onlineC128 then
    if isSpeculative then none else some 1
  else if isSpeculative then some (if compressRatio = 4 then 16 else 256)
  else some (if compressRatio = 4 then 8 else 128)

def isOverlapCompress (compressRatio : ℕ) : Bool := compressRatio = 4

/-- What is read of the pools. -/
structure StatePool where
  swaPageSize : ℕ
  ringSize : ℕ
  reqToToken : ℕ → ℕ → ℕ
  fullToSwaIndexMapping : ℕ → ℤ

namespace StatePool

variable (pool : StatePool)

/-- The location of a position in the sliding window. -/
def swaLoc (req position : ℕ) : ℤ := pool.fullToSwaIndexMapping (pool.reqToToken req position)

def translateFromSwaLocToStateLoc (swaLoc : ℤ) : ℤ :=
  if swaLoc < 0 then -1 else swaLoc / pool.swaPageSize * pool.ringSize + swaLoc % pool.ringSize

def getRawLoc (compressRatio req : ℕ) (position : ℤ) : ℤ :=
  let position := if position < 0 then 0 else position
  let swaLoc := pool.swaLoc req position.toNat
  (swaLoc / pool.swaPageSize * pool.ringSize + swaLoc % pool.ringSize) / compressRatio

/-- `create_paged_compressor_data` for a row of a decode batch: `write_loc` and `extra_data`. -/
def compressorData (compressRatio req seqLen : ℕ) : ℤ × Option ℤ :=
  let writePosition := ((seqLen : ℤ) - 1) / compressRatio * compressRatio
  (pool.getRawLoc compressRatio req writePosition,
    if isOverlapCompress compressRatio then some (pool.getRawLoc compressRatio req (writePosition - compressRatio))
    else none)

end StatePool

end FlashMemory
