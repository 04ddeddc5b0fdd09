import FlashMemory.Model.KvAllocator
import FlashMemory.Collections.Run

/-! # Users of the KV allocator

The record of a server has the slots that were handed out and not freed since, which no code reads. A call is
valid if it extends sequences whose last slot still has a window slot, and frees pages as a whole.
-/

namespace FlashMemory

inductive KvCall where
  | allocExtend (seqs : List ExtendSeq)
  | allocExtendWindowedSwa (fullSeqLen swaWinStart : ℕ)
  | allocDecode (seqs : List DecodeSeq)
  | free (slots : List ℕ)
  | freeSwa (slots : List ℕ)
deriving DecidableEq

/-- The allocator and the slots that it has handed out. -/
structure KvServer where
  allocator : KvAllocator
  allocated : List ℕ
  swaAllocated : List ℕ
  /-- Slots that are still handed out and whose window slots were freed. -/
  swaFreed : List ℕ

namespace KvServer

variable (pageSize : ℕ) (server : KvServer) (slots others : List ℕ)

def init (size sizeSwa : ℕ) (needSort : Bool) : KvServer := ⟨.clear pageSize size sizeSwa needSort, [], [], []⟩

/-- Note the slots that an allocation returned, if it did. -/
def handOut : EStateM.Result AssertionError KvAllocator (Option (List ℕ)) → KvServer
  | .ok (some slots) allocator =>
    ⟨allocator, slots ++ server.allocated, allocator.swaIndices slots ++ server.swaAllocated,
      server.swaFreed.filter (· ∉ slots)⟩
  | .ok none allocator => { server with allocator := allocator }
  | .error _ allocator => { server with allocator := allocator }

/-- Forget the slots that were freed. -/
def takeBack (slots : List ℕ) : EStateM.Result AssertionError KvAllocator Unit → KvServer
  | .ok _ allocator =>
    ⟨allocator, server.allocated.filter (· ∉ slots),
      server.swaAllocated.filter (· ∉ server.allocator.swaIndices slots), server.swaFreed.filter (· ∉ slots)⟩
  | .error _ allocator => { server with allocator := allocator }

def step : KvCall → KvServer
  | .allocExtend seqs => server.handOut (KvAllocator.allocExtend pageSize seqs server.allocator)
  | .allocExtendWindowedSwa fullSeqLen swaWinStart =>
    server.handOut (KvAllocator.allocExtendWindowedSwa pageSize fullSeqLen swaWinStart server.allocator)
  | .allocDecode seqs => server.handOut (KvAllocator.allocDecode pageSize seqs server.allocator)
  | .free slots => server.takeBack slots (KvAllocator.freeChecked pageSize slots server.allocator)
  | .freeSwa slots =>
    { server with
      allocator := server.allocator.freeSwa pageSize slots
      swaAllocated := server.swaAllocated.filter (· ∉ server.allocator.swaIndices slots)
      swaFreed := slots ++ server.swaFreed }

/-- `last_loc` is `-1` or a slot whose window slot is still mapped, and ends the prefix within its page. -/
def Continues (prefixLen : ℕ) (lastLoc : ℤ) : Prop :=
  (lastLoc = -1 ∨ 0 ≤ lastLoc ∧ server.allocator.fullToSwa lastLoc.toNat ≠ 0) ∧
    (lastLoc + 1) % pageSize = (prefixLen % pageSize : ℕ)

instance (prefixLen : ℕ) (lastLoc : ℤ) : Decidable (server.Continues pageSize prefixLen lastLoc) :=
  inferInstanceAs (Decidable (_ ∧ _))

/-- Has the allocation returned slots? -/
def Succeeds : EStateM.Result AssertionError KvAllocator (Option (List ℕ)) → Prop
  | .ok (some _) _ => True
  | _ => False

instance : DecidablePred Succeeds
  | .ok (some _) _ => isTrue trivial
  | .ok none _ => isFalse id
  | .error _ _ => isFalse id

/-- Are these all that stand in a page together with one of the slots? -/
def WholePages : Prop :=
  ∀ other ∈ others, other / pageSize ∈ slots.map (· / pageSize) → other ∈ slots

instance : Decidable (WholePages pageSize slots others) :=
  inferInstanceAs (Decidable (∀ other ∈ others, _ → _))

/-- A call that succeeds and keeps to the pages. -/
def Valid : KvCall → Prop
  | .allocExtend seqs =>
    (∀ seq ∈ seqs, seq.prefixLen ≤ seq.seqLen ∧ server.Continues pageSize seq.prefixLen seq.lastLoc) ∧
      Succeeds (KvAllocator.allocExtend pageSize seqs server.allocator)
  | .allocExtendWindowedSwa fullSeqLen swaWinStart =>
    pageSize ∣ swaWinStart ∧
      Succeeds (KvAllocator.allocExtendWindowedSwa pageSize fullSeqLen swaWinStart server.allocator)
  | .allocDecode seqs =>
    (∀ seq ∈ seqs, 0 < seq.seqLen ∧ server.Continues pageSize (seq.seqLen - 1) seq.lastLoc) ∧
      Succeeds (KvAllocator.allocDecode pageSize seqs server.allocator)
  | .free slots =>
    (∀ slot ∈ slots, slot / pageSize ∈ server.allocated.map (· / pageSize)) ∧
      WholePages pageSize slots server.allocated
  | .freeSwa slots =>
    WholePages pageSize slots (server.allocated.filter fun slot => server.allocator.fullToSwa slot ≠ 0)

instance : DecidablePred (server.Valid pageSize) := fun call => by
  cases call <;> dsimp only [Valid] <;> infer_instance

end KvServer

end FlashMemory
