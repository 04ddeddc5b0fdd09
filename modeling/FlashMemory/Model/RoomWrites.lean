import FlashMemory.Model.TransferTopology
import FlashMemory.Collections.Run

/-! # Writes of the prefill server into pages of the decode server

The decode server sends the pages of a room to the prefill ranks. They post their writes whenever they get to it, and a
posted write lands some time later. The receiver concludes by the notifications, or gives up by a timeout or when
the prefill node is found dead; `pop_transferred` then releases the pages of the room. Rooms have different numbers.
-/

namespace FlashMemory

/-- A page of the decode server: of the device cache, of the host mirror, or of the state pool. -/
inductive DstPage where
  | kv (index : ℕ)
  | mirror (index : ℕ)
  | state (index : ℕ)
deriving DecidableEq, Repr

structure PdConfig where
  topology : Topology
  /-- `c4_dram_layer_num` of the decode server. -/
  c4DramLayerNum : ℕ
  /-- Both servers have state buffers. -/
  hasState : Bool

/-- How a receiver concludes. -/
inductive Conclusion where
  | success
  | failed
deriving DecidableEq, Repr

inductive RoomPhase where
  | transferring
  | running
  | released
deriving DecidableEq, Repr

/-- A room on the decode server. -/
structure PdRoom where
  kvPages : List ℕ
  statePages : List ℕ
  status : TransferStatus
  concludeState : Option Conclusion
  phase : RoomPhase

/-- The mirror pages of a room are those of its device pages. -/
def PdRoom.pages (room : PdRoom) : List DstPage :=
  room.kvPages.map .kv ++ room.kvPages.map .mirror ++ room.statePages.map .state

/-- A room on a prefill rank. -/
inductive SenderState where
  /-- The request has not arrived yet. -/
  | unknown
  | sending (currIdx chunkId : ℕ)
  /-- The last chunk is posted and the room is forgotten. -/
  | finished
deriving DecidableEq, Repr

/-- A posted transfer, by its rank and its notification. -/
structure WriteKey where
  room : ℕ
  info : BootstrapInfo
  notif : Notif
deriving DecidableEq

structure PageWrite where
  key : WriteKey
  pages : List DstPage
deriving DecidableEq

structure PdServer where
  rooms : ℕ → Option PdRoom
  owner : DstPage → Option ℕ
  senders : ℕ → BootstrapInfo → SenderState
  posted : List PageWrite
  landed : List WriteKey

inductive PdEvent where
  /-- `_pre_alloc` and `init` of the receiver. -/
  | preAlloc (room : ℕ) (kvPages statePages : List ℕ)
  /-- The request arrives at a prefill rank. -/
  | bootstrap (room : ℕ) (info : BootstrapInfo)
  /-- A rank posts its next pages. -/
  | send (room : ℕ) (info : BootstrapInfo) (count : ℕ)
  | land (key : WriteKey)
  /-- The notification of a landed write is processed. -/
  | notify (key : WriteKey)
  | nodeFailure (room : ℕ)
  | timeout (room : ℕ)
  | poll (room : ℕ)
  | popTransferred (room : ℕ)
  /-- A request that runs ends. -/
  | finish (room : ℕ)

namespace PdConfig

variable (cfg : PdConfig)

def realRanks : List BootstrapInfo := cfg.topology.bootstrapInfos.filter fun info => !info.isDummy

/-- Do the ranks write to the mirror? -/
def PostsC4 : Prop := RoomTransfers.PostsC4 cfg.topology ⟨fun _ _ => 0, cfg.c4DramLayerNum, cfg.hasState⟩

instance : Decidable cfg.PostsC4 := inferInstanceAs (Decidable (RoomTransfers.PostsC4 _ _))

/-- The writes that `add_transfer_request` posts for one chunk. -/
def chunkWrites (room : ℕ) (info : BootstrapInfo) (entry : PdRoom) (currIdx chunkId count : ℕ) : List PageWrite :=
  let indices := (entry.kvPages.drop currIdx).take count
  let isLast := decide (currIdx + count = entry.kvPages.length)
  ⟨⟨room, info, .kv chunkId isLast info.ppRank⟩, indices.map .kv⟩ ::
    (if cfg.PostsC4 then [⟨⟨room, info, .c4 chunkId isLast info.ppRank⟩, indices.map .mirror⟩] else []) ++
    if isLast then
      ⟨⟨room, info, .aux⟩, []⟩ ::
        if cfg.hasState ∧ entry.statePages ≠ [] then [⟨⟨room, info, .state⟩, entry.statePages.map .state⟩] else []
    else []

end PdConfig

namespace PdServer

variable (cfg : PdConfig) (server : PdServer)

def init : PdServer := ⟨fun _ => none, fun _ => none, fun _ _ => .unknown, [], []⟩

/-- Change a room. -/
def modifyRoom (room : ℕ) (change : PdRoom → PdRoom) : PdServer :=
  { server with rooms := Function.update server.rooms room ((server.rooms room).map change) }

/-- The pages of the room become free. -/
def release (room : ℕ) (entry : PdRoom) : PdServer :=
  { server with
    rooms := Function.update server.rooms room (some { entry with phase := .released })
    owner := fun page => if page ∈ entry.pages then none else server.owner page }

def step : PdEvent → PdServer
  | .preAlloc room kvPages statePages =>
    let entry : PdRoom :=
      ⟨kvPages, statePages, .init (cfg.hasState && decide (statePages ≠ [])) (decide (0 < cfg.c4DramLayerNum)), none,
        .transferring⟩
    if server.rooms room = none ∧ ∀ page ∈ entry.pages, server.owner page = none then
      { server with
        rooms := Function.update server.rooms room (some entry)
        owner := fun page => if page ∈ entry.pages then some room else server.owner page }
    else server
  | .bootstrap room info =>
    if server.rooms room ≠ none ∧ info ∈ cfg.realRanks ∧ server.senders room info = .unknown then
      { server with
        senders := Function.update server.senders room (Function.update (server.senders room) info (.sending 0 0)) }
    else server
  | .send room info count =>
    match server.rooms room, server.senders room info with
    | some entry, .sending currIdx chunkId =>
      if currIdx + count ≤ entry.kvPages.length then
        { server with
          posted := cfg.chunkWrites room info entry currIdx chunkId count ++ server.posted
          senders := Function.update server.senders room (Function.update (server.senders room) info
            (if currIdx + count = entry.kvPages.length then .finished else .sending (currIdx + count) (chunkId + 1))) }
      else server
    | _, _ => server
  | .land key =>
    if key ∈ server.posted.map PageWrite.key then { server with landed := key :: server.landed } else server
  | .notify key =>
    if key ∈ server.landed then
      server.modifyRoom key.room fun entry =>
        if entry.concludeState = none then
          { entry with status := entry.status.update (some cfg.topology.requiredPrefillResponseNum) key.notif }
        else entry
    else server
  | .nodeFailure room =>
    server.modifyRoom room fun entry =>
      if entry.status.isDone then entry else { entry with status := { entry.status with isFailure := true } }
  | .timeout room =>
    server.modifyRoom room fun entry =>
      if entry.concludeState = none then { entry with concludeState := some .failed } else entry
  | .poll room =>
    server.modifyRoom room fun entry =>
      if entry.concludeState = none ∧ entry.status.isDone then
        { entry with concludeState := some (if entry.status.isFailure then .failed else .success) }
      else entry
  | .popTransferred room =>
    match server.rooms room with
    | none => server
    | some entry =>
      if entry.phase = .transferring then
        match entry.concludeState with
        | some .failed => server.release room entry
        | some .success => server.modifyRoom room fun entry => { entry with phase := .running }
        | none => server
      else server
  | .finish room =>
    match server.rooms room with
    | none => server
    | some entry => if entry.phase = .running then server.release room entry else server

/-- The prefill ranks have posted everything for the room, and all writes into pages have landed. -/
def Quiet (room : ℕ) : Prop :=
  (∀ info ∈ cfg.realRanks, server.senders room info = .finished) ∧
    ∀ write ∈ server.posted, write.key.room = room → write.pages ≠ [] → write.key ∈ server.landed

instance (room : ℕ) : Decidable (server.Quiet cfg room) :=
  inferInstanceAs (Decidable ((∀ info ∈ cfg.realRanks, _) ∧ ∀ write ∈ server.posted, _ → _ → _))

/-- A failed room is released when nothing can be written for it any more, and with a mirror a prompt is sent as one
chunk. -/
def Settled : PdEvent → Prop
  | .popTransferred room => ∀ entry ∈ server.rooms room, entry.concludeState = some .failed → server.Quiet cfg room
  | .send room info count => ∀ entry ∈ server.rooms room, 0 < cfg.c4DramLayerNum →
    server.senders room info = .sending 0 0 → count = entry.kvPages.length
  | _ => True

instance : DecidablePred (server.Settled cfg) := fun event => by
  cases event <;> dsimp only [Settled] <;> infer_instance

/-- A write lands in no page that belongs to another room now. -/
def NoStray : PdEvent → Prop
  | .land key => key ∉ server.landed → ∀ write ∈ server.posted, write.key = key →
    ∀ page ∈ write.pages, ∀ other ∈ server.owner page, other = key.room
  | _ => True

instance : DecidablePred server.NoStray := fun event => by
  cases event <;> dsimp only [NoStray] <;> infer_instance

end PdServer

end FlashMemory
