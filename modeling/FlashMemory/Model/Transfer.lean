import FlashMemory.Collections.OrderedDict
import Mathlib.Data.Finset.Basic
import Mathlib.Data.Finset.Card

/-! # Chunked transfer of a prompt

The prefill side sends the chunks of a prompt in order. For each chunk it posts a transfer into device
memory and one into the host mirror of the decode side, and with the last chunk the auxiliary data and
the state pages. Every transfer carries a notification, which reaches the decode side some time after
the transfer has landed. The decode side folds the notifications of a room into a `TransferStatus` and
starts decoding once that is done.
-/

namespace FlashMemory

/-- A notification, without the room it is for. -/
inductive Notif where
  | kv (chunkId : ℕ) (isLast : Bool) (ppRank : ℕ)
  | c4 (chunkId : ℕ) (isLast : Bool) (ppRank : ℕ)
  | aux
  | state
deriving DecidableEq, Repr

structure TransferStatus where
  receivedKvsPerPp : ℕ → Finset ℕ
  expectedKvsPerPp : OrderedDict ℕ ℕ
  numPpRanksExpected : Option ℕ
  receivedAux : Bool
  expectsState : Bool
  receivedState : Bool
  expectsC4 : Bool
  receivedC4 : Bool
  isFailure : Bool

namespace TransferStatus

/-- A status before any notification, with what the receiver decided to wait for. -/
def init (expectsState expectsC4 : Bool) : TransferStatus where
  receivedKvsPerPp _ := ∅
  expectedKvsPerPp := OrderedDict.empty
  numPpRanksExpected := none
  receivedAux := false
  expectsState := expectsState
  receivedState := false
  expectsC4 := expectsC4
  receivedC4 := false
  isFailure := false

def isDone (status : TransferStatus) : Bool :=
  if status.isFailure then true
  else match status.numPpRanksExpected with
    | none => false
    | some ranks =>
      if !status.receivedAux then false
      else if status.expectsState && !status.receivedState then false
      else if status.expectsC4 && !status.receivedC4 then false
      else if status.expectedKvsPerPp.keys.length < ranks then false
      else status.expectedKvsPerPp.entries.all fun entry =>
        (status.receivedKvsPerPp entry.1).card = entry.2

/-- `update_transfer_status` on one notification of the room; `required` is the room's entry in the
table of expected prefill responses. -/
def update (required : Option ℕ) (status : TransferStatus) : Notif → TransferStatus
  | .kv chunkId isLast ppRank =>
    let status :=
      { status with
        receivedKvsPerPp := Function.update status.receivedKvsPerPp ppRank
          (Insert.insert chunkId (status.receivedKvsPerPp ppRank)) }
    if isLast then
      { status with
        expectedKvsPerPp := status.expectedKvsPerPp.set ppRank (chunkId + 1)
        numPpRanksExpected := some (status.numPpRanksExpected.getD (required.getD 1)) }
    else status
  | .aux => { status with receivedAux := true }
  | .state => { status with receivedState := true }
  | .c4 _ _ _ => { status with receivedC4 := true }

end TransferStatus

/-- What the two sides of a room agreed on. -/
structure RoomPlan where
  /-- Chunks of the prompt that the sender posts. -/
  chunks : ℕ
  ppRank : ℕ
  /-- The sender ships state pages with the last chunk. -/
  sendsState : Bool
  expectsState : Bool
  /-- The receiver waits for the mirror transfer. -/
  expectsC4 : Bool
  required : Option ℕ

/-- `add_transfer_request`: the notifications of the transfers posted with one chunk. -/
def addTransferRequest (plan : RoomPlan) (chunkId : ℕ) : List Notif :=
  let isLast := decide (chunkId + 1 = plan.chunks)
  [.kv chunkId isLast plan.ppRank, .c4 chunkId isLast plan.ppRank] ++
    if isLast then .aux :: if plan.sendsState then [.state] else [] else []

/-- A room while it is being served. -/
structure Room where
  /-- Chunks posted so far. -/
  sent : ℕ
  landed : List Notif
  status : TransferStatus

inductive RoomEvent where
  /-- The sender posts the next chunk. -/
  | send
  /-- A posted transfer lands. -/
  | land (notif : Notif)
  /-- The notification of a landed transfer is processed. -/
  | deliver (notif : Notif)
  /-- The prefill node is found dead. -/
  | fail

namespace Room

variable (plan : RoomPlan) (room : Room)

def init : Room := ⟨0, [], TransferStatus.init plan.expectsState plan.expectsC4⟩

def posted : List Notif :=
  (List.range room.sent).flatMap (addTransferRequest plan)

def step : RoomEvent → Room
  | .send => { room with sent := min (room.sent + 1) plan.chunks }
  | .land notif =>
    if notif ∈ room.posted plan then { room with landed := notif :: room.landed } else room
  | .deliver notif =>
    if notif ∈ room.landed then { room with status := room.status.update plan.required notif } else room
  | .fail =>
    if room.status.isDone then room else { room with status := { room.status with isFailure := true } }

/-- The mirror transfer of the chunk has landed. -/
def C4Landed (chunkId : ℕ) : Prop :=
  .c4 chunkId (decide (chunkId + 1 = plan.chunks)) plan.ppRank ∈ room.landed

instance decidableC4Landed (chunkId : ℕ) :
    Decidable (room.C4Landed plan chunkId) := inferInstanceAs (Decidable (_ ∈ _))

end Room

end FlashMemory
