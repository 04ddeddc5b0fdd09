import FlashMemory.Model.ChunkedSend
import FlashMemory.Soundness.TransferTopology
import Mathlib.Data.List.GetD

/-! # The chunks of a prompt are a partition of its pages

After a chunk that ends at `e` the pages before `e / page_size` have been sent, and this is where the next slice starts.
All ends but the last one are below the prompt length, so the sender's count reaches the number of pages in the last
call, which always has something to send.
-/

namespace FlashMemory

open List

variable {pageSize promptLen : ℕ} {reqToToken : ℕ → ℕ} {infos : List (List ℕ)}

/-- The page that has the first position of a page of the prompt. -/
def pageAt (pageSize : ℕ) (reqToToken : ℕ → ℕ) (page : ℕ) : ℕ := reqToToken (page * pageSize) / pageSize

/-- All positions of a page of the prompt are in one page. -/
def PagedRow (pageSize promptLen : ℕ) (reqToToken : ℕ → ℕ) : Prop :=
  ∀ position < promptLen, reqToToken position / pageSize = pageAt pageSize reqToToken (position / pageSize)

section

variable (positive : 0 < pageSize)
include positive

theorem lt_kvToPageNum {len page : ℕ} : page < kvToPageNum len pageSize ↔ page * pageSize < len := by
  rw [kvToPageNum, Nat.lt_div_iff_mul_lt positive]
  omega

theorem kvToPageNum_sub (len count : ℕ) :
    kvToPageNum (len - count * pageSize) pageSize = kvToPageNum len pageSize - count := by
  refine eq_of_forall_lt_iff fun page => ?_
  rw [lt_kvToPageNum positive, Nat.lt_sub_iff_add_lt, ← Nat.add_mul, ← lt_kvToPageNum positive, ← Nat.lt_sub_iff_add_lt]

theorem kvToPageNum_mul (pages : ℕ) : kvToPageNum (pages * pageSize) pageSize = pages := by
  refine eq_of_forall_lt_iff fun page => ?_
  rw [lt_kvToPageNum positive, Nat.mul_lt_mul_right positive]

theorem kvToPageIndices_slice (first len : ℕ) :
    kvToPageIndices ((List.range' (first * pageSize) len).map reqToToken) pageSize =
      (List.range' first (kvToPageNum len pageSize)).map (pageAt pageSize reqToToken) := by
  unfold kvToPageIndices
  split_ifs with one
  · subst one
    simp [kvToPageNum, pageAt]
  · rw [length_map, length_range', range'_eq_map_range, range'_eq_map_range, map_map, map_map]
    refine map_congr_left fun page mem => ?_
    have inside := (lt_kvToPageNum positive).mp (mem_range.mp mem)
    rw [getD_eq_getElem _ _ (by simpa using inside)]
    simp [pageAt, Nat.add_mul]

end

/-! ## The chunks -/

namespace PostedChunk

/-- The destination indices of a chunk. -/
def slots (chunk : PostedChunk) : List ℕ := List.range' chunk.start (chunk.stop - chunk.start)

/-- Every destination index goes with the page of the same positions. -/
structure Paired (pageSize : ℕ) (reqToToken : ℕ → ℕ) (infos : List (List ℕ)) (chunk : PostedChunk) : Prop where
  nonempty : chunk.start < chunk.stop
  pages : chunk.kvIndices = chunk.slots.map (pageAt pageSize reqToToken)
  destinations : chunk.dstKvIndices = (infos.filter (· ≠ [])).map fun dst =>
    (dst.drop chunk.start).take (chunk.stop - chunk.start)

end PostedChunk

namespace ChunkSender

variable {sender : ChunkSender} {count : ℕ}

/-- A sender whose next chunk starts at a page. -/
structure Sent (pageSize promptLen : ℕ) (reqToToken : ℕ → ℕ) (infos : List (List ℕ)) (count : ℕ)
    (sender : ChunkSender) : Prop where
  start : sender.startSendIdx = count * pageSize
  curr : sender.currIdx = count
  num : sender.numKvIndices = kvToPageNum promptLen pageSize
  room : sender.transferInfos = some infos
  ids : sender.posted.map PostedChunk.chunkId = List.range sender.chunkId
  cover : sender.posted.flatMap PostedChunk.slots = List.range count
  paired : ∀ chunk ∈ sender.posted, chunk.Paired pageSize reqToToken infos
  early : ∀ chunk ∈ sender.posted, chunk.isLast = false

theorem Sent.init : Sent pageSize promptLen reqToToken infos 0 (.init (kvToPageNum promptLen pageSize) infos) :=
  ⟨(Nat.zero_mul _).symm, rfl, rfl, rfl, rfl, rfl, nofun, nofun⟩

/-- The chunk that some pages become. -/
def nextChunk (infos : List (List ℕ)) (sender : ChunkSender) (kvIndices : List ℕ) : PostedChunk where
  chunkId := sender.chunkId
  isLast := decide (sender.currIdx + kvIndices.length = sender.numKvIndices)
  start := sender.currIdx
  stop := sender.currIdx + kvIndices.length
  kvIndices := kvIndices
  dstKvIndices := (infos.filter (· ≠ [])).map fun dst =>
    (dst.drop sender.currIdx).take (sender.currIdx + kvIndices.length - sender.currIdx)

private theorem send_eq {kvIndices : List ℕ} (room : sender.transferInfos = some infos)
    (fits : ∀ dst ∈ infos, dst ≠ [] → sender.currIdx + kvIndices.length ≤ dst.length) :
    sender.send kvIndices = .ok { sender with
      currIdx := sender.currIdx + kvIndices.length
      chunkId := sender.chunkId + 1
      hasSent := if sender.currIdx + kvIndices.length = sender.numKvIndices then true else sender.hasSent
      transferInfos := if sender.currIdx + kvIndices.length = sender.numKvIndices then none else some infos
      posted := sender.posted ++ [sender.nextChunk infos kvIndices] } := by
  have lengths : ∀ slice ∈ (infos.filter (· ≠ [])).map (fun dst =>
      (dst.drop sender.currIdx).take (sender.currIdx + kvIndices.length - sender.currIdx)),
      slice.length = kvIndices.length := by
    intro slice mem
    obtain ⟨dst, kept, rfl⟩ := mem_map.mp mem
    obtain ⟨present, real⟩ := mem_filter.mp kept
    have := fits dst present (of_decide_eq_true real)
    rw [length_take, length_drop]
    omega
  simp only [send, addTransferRequest, room, if_pos lengths, decide_eq_true_eq]
  rfl

private theorem paired_nextChunk {pages : ℕ} (some : 0 < pages) :
    (sender.nextChunk infos ((List.range' sender.currIdx pages).map (pageAt pageSize reqToToken))).Paired pageSize
      reqToToken infos := by
  refine ⟨?_, ?_, rfl⟩ <;> simp [nextChunk, PostedChunk.slots, some]

/-- The record of a sender that has sent some pages more. -/
theorem Sent.snoc (sent : Sent pageSize promptLen reqToToken infos count sender) {pages : ℕ} (some : 0 < pages) :
    let chunk := sender.nextChunk infos ((List.range' count pages).map (pageAt pageSize reqToToken))
    (sender.posted ++ [chunk]).map PostedChunk.chunkId = List.range (sender.chunkId + 1) ∧
      (sender.posted ++ [chunk]).flatMap PostedChunk.slots = List.range (count + pages) ∧
      ∀ other ∈ sender.posted ++ [chunk], other.Paired pageSize reqToToken infos := by
  intro chunk
  refine ⟨?_, ?_, ?_⟩
  · rw [map_append, sent.ids, range_succ]
    rfl
  · rw [flatMap_append, sent.cover, flatMap_singleton]
    simp [chunk, nextChunk, PostedChunk.slots, sent.curr, range_add, range'_eq_map_range]
  · intro other mem
    rcases mem_append.mp mem with old | new
    · exact sent.paired other old
    · rw [mem_singleton.mp new]
      obtain rfl := sent.curr
      exact paired_nextChunk some

variable (positive : 0 < pageSize) (sent : Sent pageSize promptLen reqToToken infos count sender)
  (sized : ∀ dst ∈ infos, dst ≠ [] → dst.length = kvToPageNum promptLen pageSize)

include positive sent

/-- A call that starts at a page sends whole pages. -/
theorem sendKvChunk_eq {endIdx stop pages : ℕ} {lastChunk : Bool}
    (isStop : (if lastChunk then endIdx else endIdx - endIdx % pageSize) = stop)
    (isPages : kvToPageNum stop pageSize = count + pages) :
    sender.sendKvChunk pageSize reqToToken endIdx lastChunk = if pages = 0 then .ok { sender with startSendIdx := stop }
      else { sender with startSendIdx := stop }.send ((List.range' count pages).map (pageAt pageSize reqToToken)) := by
  have num : kvToPageNum (stop - count * pageSize) pageSize = pages := by
    rw [kvToPageNum_sub positive, isPages, Nat.add_sub_cancel_left]
  simp only [sendKvChunk, isStop, sent.start, kvToPageIndices_slice positive, num, length_map, length_range']

include sized

theorem sendKvChunk_posts {endIdx stop pages : ℕ} {lastChunk : Bool}
    (isStop : (if lastChunk then endIdx else endIdx - endIdx % pageSize) = stop)
    (isPages : kvToPageNum stop pageSize = count + pages)
    (some : 0 < pages) (fits : count + pages ≤ kvToPageNum promptLen pageSize) :
    sender.sendKvChunk pageSize reqToToken endIdx lastChunk = .ok
      { sender with
        startSendIdx := stop
        currIdx := count + pages
        chunkId := sender.chunkId + 1
        hasSent := if count + pages = kvToPageNum promptLen pageSize then true else sender.hasSent
        transferInfos := if count + pages = kvToPageNum promptLen pageSize then none else .some infos
        posted := sender.posted ++
          [sender.nextChunk infos ((List.range' count pages).map (pageAt pageSize reqToToken))] } := by
  have room : ({ sender with startSendIdx := stop } : ChunkSender).transferInfos = .some infos := sent.room
  rw [sendKvChunk_eq positive sent isStop isPages, if_neg some.ne', send_eq room ?_]
  · simp only [nextChunk, sent.curr, sent.num, length_map, length_range']
  · intro dst present real
    simp only [sent.curr, length_map, length_range', sized dst present real]
    exact fits

/-- An earlier chunk sends the pages it completes. -/
theorem Sent.next {endIdx : ℕ} (further : count ≤ endIdx / pageSize) (inside : endIdx < promptLen) :
    ∃ sender', sender.sendKvChunk pageSize reqToToken endIdx false = .ok sender' ∧
      Sent pageSize promptLen reqToToken infos (endIdx / pageSize) sender' := by
  have whole : (if false = true then endIdx else endIdx - endIdx % pageSize) = endIdx / pageSize * pageSize := by
    rw [if_neg Bool.false_ne_true, Nat.mul_comm]
    exact (Nat.mul_div_self_eq_mod_sub_self ..).symm
  have below : endIdx / pageSize < kvToPageNum promptLen pageSize :=
    (lt_kvToPageNum positive).mpr ((Nat.div_mul_le_self _ _).trans_lt inside)
  obtain ⟨pages, isPages⟩ := Nat.exists_eq_add_of_le further
  have num := (kvToPageNum_mul positive (endIdx / pageSize)).trans isPages
  rcases Nat.eq_zero_or_pos pages with rfl | some
  · rw [sendKvChunk_eq positive sent whole num, if_pos rfl, show endIdx / pageSize = count from isPages]
    exact ⟨_, rfl, rfl, sent.curr, sent.num, sent.room, sent.ids, sent.cover, sent.paired, sent.early⟩
  · have unfinished : count + pages ≠ kvToPageNum promptLen pageSize := by omega
    obtain ⟨ids, cover, paired⟩ := sent.snoc some
    rw [sendKvChunk_posts positive sent sized whole num some (isPages ▸ below.le), isPages]
    refine ⟨_, rfl, rfl, rfl, sent.num, if_neg unfinished, ids, cover, paired, ?_⟩
    intro chunk mem
    rcases mem_append.mp mem with old | new
    · exact sent.early chunk old
    · rw [mem_singleton.mp new]
      simp [nextChunk, sent.curr, sent.num, unfinished]

omit sent

/-- The earlier chunks. -/
theorem sendEarlier_sent {ends : List ℕ} (sent : Sent pageSize promptLen reqToToken infos count sender)
    (increasing : (ends ++ [promptLen]).Pairwise (· < ·)) (further : ∀ endIdx ∈ ends, count ≤ endIdx / pageSize)
    (rest : count * pageSize < promptLen) :
    ∃ sender' count', sender.sendEarlier pageSize reqToToken ends = .ok sender' ∧
      Sent pageSize promptLen reqToToken infos count' sender' ∧ count' * pageSize < promptLen := by
  induction ends generalizing sender count with
  | nil => exact ⟨sender, count, rfl, sent, rest⟩
  | cons endIdx ends ih =>
    obtain ⟨larger, increasing⟩ := pairwise_cons.mp increasing
    have inside : endIdx < promptLen := larger promptLen (by simp)
    obtain ⟨sender', sends, sent'⟩ := sent.next positive sized (further endIdx mem_cons_self) inside
    have next : ∀ other ∈ ends, endIdx / pageSize ≤ other / pageSize := fun other mem =>
      Nat.div_le_div_right (larger other (mem_append_left _ mem)).le
    simp only [sendEarlier, sends]
    exact ih sent' increasing next ((Nat.div_mul_le_self _ _).trans_lt inside)

omit positive sized

/-- What the calls for a prompt have posted, before and after the last one. -/
structure Partitions (pageSize promptLen : ℕ) (reqToToken : ℕ → ℕ) (infos : List (List ℕ))
    (before after : ChunkSender) : Prop where
  /-- The slices follow each other and cover all destination pages. -/
  cover : after.posted.flatMap PostedChunk.slots = List.range (kvToPageNum promptLen pageSize)
  paired : ∀ chunk ∈ after.posted, chunk.Paired pageSize reqToToken infos
  early : ∀ chunk ∈ before.posted, chunk.isLast = false
  last : ∃ chunk, after.posted = before.posted ++ [chunk] ∧ chunk.isLast = true
  ids : after.posted.map PostedChunk.chunkId = List.range after.posted.length

variable {before after : ChunkSender}

private theorem kv_mem_notifs {chunkId ppRank : ℕ} {isLast : Bool} :
    .kv chunkId isLast ppRank ∈ after.notifs ppRank ↔
      ∃ chunk ∈ after.posted, chunk.chunkId = chunkId ∧ chunk.isLast = isLast := by
  simp only [notifs, mem_map, Notif.kv.injEq, and_true]

section

variable (partitions : Partitions pageSize promptLen reqToToken infos before after)

include partitions

/-- The last chunk has the last number. -/
theorem Partitions.last_chunk {chunk : PostedChunk} (mem : chunk ∈ after.posted) (isLast : chunk.isLast = true) :
    chunk.chunkId + 1 = after.posted.length := by
  obtain ⟨last, isPosted, -⟩ := partitions.last
  have ids := partitions.ids
  rw [isPosted] at mem ids ⊢
  rw [map_append, length_append, length_singleton, range_succ] at ids
  have number := (append_inj ids (by simp)).2
  rcases mem_append.mp mem with early | new
  · rw [partitions.early chunk early] at isLast
    cases isLast
  · rw [mem_singleton.mp new, length_append]
    exact congrArg (· + 1) (singleton_inj.mp number)

/-- The receiver expects the chunks that were sent, in whatever order their notifications arrive. -/
theorem Partitions.expected (ppRank required : ℕ) (expectsState expectsC4 : Bool) {notifs : List Notif}
    (perm : notifs.Perm (after.notifs ppRank)) :
    let status := notifs.foldl (·.update (some required)) (TransferStatus.init expectsState expectsC4)
    status.expectedKvsPerPp.get? ppRank = some after.posted.length ∧
      status.receivedKvsPerPp ppRank = Finset.range after.posted.length := by
  intro status
  have collected := (TransferStatus.collected_init required expectsState expectsC4).foldl notifs
  have arrived : ∀ {notif : Notif}, notif ∈ notifs.reverse ++ [] ↔ notif ∈ after.notifs ppRank := by
    intro notif
    rw [append_nil, mem_reverse, perm.mem_iff]
  constructor
  · obtain ⟨last, isPosted, isLast⟩ := partitions.last
    have present : last ∈ after.posted := by simp [isPosted]
    obtain ⟨count, known⟩ := (collected.reported last.chunkId ppRank
      (arrived.mpr (kv_mem_notifs.mpr ⟨last, present, rfl, isLast⟩))).1
    obtain ⟨chunkId, isCount, mem⟩ := collected.expected ppRank count known
    obtain ⟨chunk, posted, rfl, isLast⟩ := kv_mem_notifs.mp (arrived.mp mem)
    exact known.trans (congrArg some (isCount.trans (partitions.last_chunk posted isLast)))
  · ext chunkId
    rw [collected.received, Finset.mem_range, ← mem_range, ← partitions.ids, mem_map]
    simp only [arrived, kv_mem_notifs]
    constructor
    · rintro ⟨_, chunk, posted, same, _⟩
      exact ⟨chunk, posted, same⟩
    · rintro ⟨chunk, posted, same⟩
      exact ⟨chunk.isLast, chunk, posted, same, rfl⟩

/-- With a paged row every position is sent to the destination page of the same number. -/
theorem Partitions.position (positive : 0 < pageSize) (paged : PagedRow pageSize promptLen reqToToken) {position : ℕ}
    (inside : position < promptLen) :
    ∃ chunk ∈ after.posted, position / pageSize ∈ chunk.slots ∧
      chunk.kvIndices.getD (position / pageSize - chunk.start) 0 = reqToToken position / pageSize := by
  have covered : position / pageSize ∈ after.posted.flatMap PostedChunk.slots := by
    rw [partitions.cover, mem_range, lt_kvToPageNum positive]
    exact (Nat.div_mul_le_self _ _).trans_lt inside
  obtain ⟨chunk, posted, slot⟩ := mem_flatMap.mp covered
  refine ⟨chunk, posted, slot, ?_⟩
  have bounds := mem_range'_1.mp slot
  have slotAt : position / pageSize - chunk.start < chunk.stop - chunk.start := by omega
  rw [paged position inside, (partitions.paired chunk posted).pages, PostedChunk.slots,
    getD_eq_getElem _ _ (by simpa using slotAt), getElem_map, getElem_range']
  congr 1
  omega

end

include positive sized

/-- The last chunk sends the rest. -/
theorem Sent.last (sent : Sent pageSize promptLen reqToToken infos count sender) (rest : count * pageSize < promptLen) :
    ∃ sender', sender.sendKvChunk pageSize reqToToken promptLen true = .ok sender' ∧
      Partitions pageSize promptLen reqToToken infos sender sender' := by
  obtain ⟨pages, isPages⟩ := Nat.exists_eq_add_of_le ((lt_kvToPageNum positive).mpr rest).le
  have some : 0 < pages := by
    have := (lt_kvToPageNum positive).mpr rest
    omega
  obtain ⟨ids, cover, paired⟩ := sent.snoc some
  refine ⟨_, sendKvChunk_posts positive sent sized (if_pos rfl) isPages some isPages.ge, ?_, paired, sent.early, ?_, ?_⟩
  · rw [isPages]
    exact cover
  · exact ⟨_, rfl, by simp [nextChunk, sent.curr, sent.num, isPages]⟩
  · rw [ids, length_append, ← length_map PostedChunk.chunkId, sent.ids, length_range]
    rfl

omit positive sized

/-- The chunks of a prompt are sent to consecutive slices that cover all destination pages, each page to the one of the
same positions. The last call is the only one that is marked as the last, and the receiver expects as many chunks as
were sent. -/
theorem sendPrompt_partitions (pageSize promptLen : ℕ) (reqToToken : ℕ → ℕ) (infos : List (List ℕ)) (ends : List ℕ)
    (positive : 0 < pageSize) (prompt : 0 < promptLen) (increasing : (ends ++ [promptLen]).Pairwise (· < ·))
    (sized : ∀ dst ∈ infos, dst ≠ [] → dst.length = kvToPageNum promptLen pageSize) :
    let sender := ChunkSender.init (kvToPageNum promptLen pageSize) infos
    ∃ before after, sender.sendEarlier pageSize reqToToken ends = .ok before ∧
      sender.sendPrompt pageSize reqToToken ends promptLen = .ok after ∧
      Partitions pageSize promptLen reqToToken infos before after ∧
      (∀ ppRank required expectsState expectsC4, ∀ notifs : List Notif, notifs.Perm (after.notifs ppRank) →
        let status := notifs.foldl (·.update (some required)) (TransferStatus.init expectsState expectsC4)
        status.expectedKvsPerPp.get? ppRank = some after.posted.length ∧
          status.receivedKvsPerPp ppRank = Finset.range after.posted.length) ∧
      (PagedRow pageSize promptLen reqToToken → ∀ position < promptLen, ∃ chunk ∈ after.posted,
        position / pageSize ∈ chunk.slots ∧
          chunk.kvIndices.getD (position / pageSize - chunk.start) 0 = reqToToken position / pageSize) := by
  intro sender
  obtain ⟨before, count, earlier, sent, rest⟩ :=
    sendEarlier_sent positive sized Sent.init increasing (fun _ _ => Nat.zero_le _) (by omega)
  obtain ⟨after, last, partitions⟩ := sent.last positive sized rest
  refine ⟨before, after, earlier, ?_, partitions, ?_, ?_⟩
  · simp only [sendPrompt, sender, earlier, last]
  · exact fun ppRank required expectsState expectsC4 notifs perm =>
      partitions.expected ppRank required expectsState expectsC4 perm
  · exact fun paged position inside => partitions.position positive paged inside

/-- Ten tokens in chunks that end at three, six and ten, for a rank with three pages and a dummy. The first chunk
completes no page. -/
theorem sendPrompt_partitions_on_tenTokens :
    ∃ before after, (ChunkSender.init 3 [[7, 8, 9], []]).sendPrompt 4 id [3, 6] 10 = .ok after ∧
      Partitions 4 10 id [[7, 8, 9], []] before after := by
  obtain ⟨before, after, -, returns, partitions, -⟩ :=
    sendPrompt_partitions 4 10 id [[7, 8, 9], []] [3, 6] (by decide) (by decide) (by decide) (by decide)
  exact ⟨before, after, returns, partitions⟩

example : ((ChunkSender.init 3 [[7, 8, 9], []]).sendPrompt 4 id [3, 6] 10).toOption.map ChunkSender.posted =
    some [⟨0, false, 0, 1, [0], [[7]]⟩, ⟨1, true, 1, 3, [1, 2], [[8, 9]]⟩] := by decide

end ChunkSender

end FlashMemory
