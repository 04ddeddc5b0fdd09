import FlashMemory.Model.Transfer

/-! # Sending a prompt in chunks

After each prefill chunk the scheduler sends the pages that are complete, and after the last one the rest. The sender
counts pages, and a transfer goes to the slice of the destination pages at this count. It is the last one when the count
is the number of pages that the sender was initialised with.
-/

namespace FlashMemory

/-- `kv_to_page_num`. -/
def kvToPageNum (numKvIndices pageSize : ℕ) : ℕ := (numKvIndices + pageSize - 1) / pageSize

/-- `kv_to_page_indices`: the pages of every `page_size`-th location. -/
def kvToPageIndices (kvIndices : List ℕ) (pageSize : ℕ) : List ℕ :=
  if pageSize = 1 then kvIndices
  else (List.range (kvToPageNum kvIndices.length pageSize)).map fun i => kvIndices.getD (i * pageSize) 0 / pageSize

/-- What one call of `add_transfer_request` posts. -/
structure PostedChunk where
  chunkId : ℕ
  isLast : Bool
  /-- `index_slice`. -/
  start : ℕ
  stop : ℕ
  /-- Pages of the prefill side. -/
  kvIndices : List ℕ
  /-- The pages of each decode rank that is no dummy. -/
  dstKvIndices : List (List ℕ)
deriving DecidableEq

/-- The request, its sender and the room's entry of the manager. -/
structure ChunkSender where
  startSendIdx : ℕ
  currIdx : ℕ
  numKvIndices : ℕ
  chunkId : ℕ
  hasSent : Bool
  /-- `transfer_infos[room]`: `dst_kv_indices` of every decode rank. The last chunk deletes the entry. -/
  transferInfos : Option (List (List ℕ))
  posted : List PostedChunk
deriving DecidableEq

inductive SendError where
  /-- There is no entry for the room. -/
  | keyError
  /-- A slice is shorter than the chunk. -/
  | assertionError
deriving DecidableEq

namespace ChunkSender

/-- A sender after `init`. -/
def init (numKvIndices : ℕ) (transferInfos : List (List ℕ)) : ChunkSender :=
  ⟨0, 0, numKvIndices, 0, false, some transferInfos, []⟩

/-- `add_transfer_request`. Dummies have no destination pages. -/
def addTransferRequest (sender : ChunkSender) (kvIndices : List ℕ) (start stop : ℕ) (isLast : Bool) :
    Except SendError ChunkSender :=
  match sender.transferInfos with
  | none => .error .keyError
  | some infos =>
    let slices := (infos.filter (· ≠ [])).map fun dst => (dst.drop start).take (stop - start)
    if ∀ slice ∈ slices, slice.length = kvIndices.length then
      .ok { sender with
        transferInfos := if isLast then none else some infos
        posted := sender.posted ++ [⟨sender.chunkId, isLast, start, stop, kvIndices, slices⟩] }
    else .error .assertionError

/-- `NixlKVSender.send`. -/
def send (sender : ChunkSender) (kvIndices : List ℕ) : Except SendError ChunkSender :=
  let start := sender.currIdx
  let sender := { sender with currIdx := sender.currIdx + kvIndices.length }
  let isLast := decide (sender.currIdx = sender.numKvIndices)
  match sender.addTransferRequest kvIndices start sender.currIdx isLast with
  | .error error => .error error
  | .ok sender => .ok { sender with
      chunkId := sender.chunkId + 1
      hasSent := if isLast then true else sender.hasSent }

/-- `send_kv_chunk`. The partial last page of an earlier chunk waits for the next one. -/
def sendKvChunk (pageSize : ℕ) (reqToToken : ℕ → ℕ) (sender : ChunkSender) (endIdx : ℕ) (lastChunk : Bool) :
    Except SendError ChunkSender :=
  let startIdx := sender.startSendIdx
  let endIdx := if lastChunk then endIdx else endIdx - endIdx % pageSize
  let kvIndices := (List.range' startIdx (endIdx - startIdx)).map reqToToken
  let sender := { sender with startSendIdx := endIdx }
  let pageIndices := kvToPageIndices kvIndices pageSize
  if pageIndices.length = 0 then .ok sender else sender.send pageIndices

/-- The calls for the ends of the earlier chunks. -/
def sendEarlier (pageSize : ℕ) (reqToToken : ℕ → ℕ) (sender : ChunkSender) : List ℕ → Except SendError ChunkSender
  | [] => .ok sender
  | endIdx :: ends =>
    match sender.sendKvChunk pageSize reqToToken endIdx false with
    | .error error => .error error
    | .ok sender => sender.sendEarlier pageSize reqToToken ends

/-- All calls for a prompt. -/
def sendPrompt (pageSize : ℕ) (reqToToken : ℕ → ℕ) (sender : ChunkSender) (ends : List ℕ) (promptLen : ℕ) :
    Except SendError ChunkSender :=
  match sender.sendEarlier pageSize reqToToken ends with
  | .error error => .error error
  | .ok sender => sender.sendKvChunk pageSize reqToToken promptLen true

/-- The notifications of the posted chunks. -/
def notifs (ppRank : ℕ) (sender : ChunkSender) : List Notif :=
  sender.posted.map fun chunk => .kv chunk.chunkId chunk.isLast ppRank

end ChunkSender

end FlashMemory
