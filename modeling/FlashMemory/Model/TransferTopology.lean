import FlashMemory.Model.Transfer

/-! # Rooms between servers of different layouts

`CommonKVReceiver` decides which prefill ranks serve a decode rank, which of them are dummies, and how many responses
there will be. Every rank that is no dummy posts all its chunks.
-/

namespace FlashMemory

/-- The layouts of both servers, seen from one decode rank. -/
structure Topology where
  prefillAttnTpSize : ℕ
  attnTpSize : ℕ
  prefillPpSize : ℕ
  ppSize : ℕ
  engineRank : ℕ
  ppRank : ℕ
  isMlaBackend : Bool
deriving DecidableEq

/-- A prefill rank that gets the request. -/
structure BootstrapInfo where
  tpRank : ℕ
  ppRank : ℕ
  isDummy : Bool
deriving DecidableEq

namespace Topology

variable (topology : Topology)

/-- Layouts that the receiver accepts. -/
def Accepted : Prop :=
  0 < topology.prefillAttnTpSize ∧ 0 < topology.attnTpSize ∧ topology.ppRank < topology.ppSize ∧
    0 < topology.prefillPpSize ∧
    (topology.attnTpSize ∣ topology.prefillAttnTpSize ∨ topology.prefillAttnTpSize ∣ topology.attnTpSize) ∧
    (topology.ppSize = topology.prefillPpSize ∨ topology.ppSize = 1)

instance : Decidable topology.Accepted := inferInstanceAs (Decidable (_ ∧ _ ∧ _ ∧ _ ∧ _ ∧ _))

def targetTpRanks : List ℕ :=
  let rank := topology.engineRank % topology.attnTpSize
  if topology.attnTpSize = topology.prefillAttnTpSize then [rank]
  else if topology.prefillAttnTpSize < topology.attnTpSize then
    [rank / (topology.attnTpSize / topology.prefillAttnTpSize)]
  else
    List.range' (rank * (topology.prefillAttnTpSize / topology.attnTpSize))
      (topology.prefillAttnTpSize / topology.attnTpSize)

/-- `target_tp_rank`, the first of them. -/
def targetTpRank : ℕ := topology.targetTpRanks.headD 0

def requiredPrefillResponseNum : ℕ :=
  if topology.attnTpSize = topology.prefillAttnTpSize then 1 * (topology.prefillPpSize / topology.ppSize)
  else if topology.prefillAttnTpSize < topology.attnTpSize then 1 * (topology.prefillPpSize / topology.ppSize)
  else if topology.isMlaBackend then topology.prefillPpSize / topology.ppSize
  else topology.prefillAttnTpSize / topology.attnTpSize * (topology.prefillPpSize / topology.ppSize)

def targetPpRanks : List ℕ :=
  if topology.prefillPpSize = topology.ppSize then [topology.ppRank] else List.range topology.prefillPpSize

/-- With multi-head latent attention one rank has the whole cache, and the others get dummy requests. -/
def bootstrapInfos : List BootstrapInfo :=
  topology.targetTpRanks.flatMap fun tpRank =>
    topology.targetPpRanks.reverse.map fun ppRank =>
      ⟨tpRank, ppRank, topology.isMlaBackend && decide (tpRank ≠ topology.targetTpRank)⟩

end Topology

/-- What is sent for a room. -/
structure RoomTransfers where
  /-- The number of chunks of a rank. -/
  chunks : ℕ → ℕ → ℕ
  /-- `c4_dram_layer_num` of the receiver. -/
  c4DramLayerNum : ℕ
  /-- The model has state buffers, and the request has state pages. -/
  hasState : Bool

namespace RoomTransfers

variable (topology : Topology) (transfers : RoomTransfers)

/-- `send_kvcache` posts a transfer into the mirror if there are layers in it. `send_kvcache_slice` does not know the
mirror. -/
def PostsC4 : Prop :=
  (topology.isMlaBackend ∨ topology.attnTpSize = topology.prefillAttnTpSize) ∧ 0 < transfers.c4DramLayerNum

instance : Decidable (transfers.PostsC4 topology) := inferInstanceAs (Decidable (_ ∧ _))

/-- The notifications of all `add_transfer_request` calls of a rank. -/
def rankNotifs (info : BootstrapInfo) : List Notif :=
  if info.isDummy then []
  else
    (List.range (transfers.chunks info.tpRank info.ppRank)).flatMap fun chunkId =>
      let isLast := decide (chunkId + 1 = transfers.chunks info.tpRank info.ppRank)
      .kv chunkId isLast info.ppRank :: (if transfers.PostsC4 topology then [.c4 chunkId isLast info.ppRank] else []) ++
        if isLast then .aux :: if transfers.hasState then [.state] else [] else []

def posted : List Notif := topology.bootstrapInfos.flatMap (transfers.rankNotifs topology)

/-- The status of the room after some notifications. -/
def status (notifs : List Notif) : TransferStatus :=
  notifs.foldl (·.update (some topology.requiredPrefillResponseNum))
    (.init transfers.hasState (decide (0 < transfers.c4DramLayerNum)))

end RoomTransfers

end FlashMemory
