import FlashMemory.Model.RoomWrites
import FlashMemory.Soundness.TransferTopology

/-! # No write after a page has a new owner

A room that concludes with success has no write left, if the flags of its status stand for one transfer each. So pages
are only released under a write when a failed room is.
-/

namespace FlashMemory

open List Function FlashMemory.Topology

section

variable {cfg : PdConfig} {room currIdx chunkId count : ℕ} {info : BootstrapInfo} {entry : PdRoom} {write : PageWrite}
  (mem : write ∈ cfg.chunkWrites room info entry currIdx chunkId count)

include mem

theorem PdConfig.of_mem_chunkWrites :
    write = ⟨⟨room, info, .kv chunkId (decide (currIdx + count = entry.kvPages.length)) info.ppRank⟩,
        ((entry.kvPages.drop currIdx).take count).map .kv⟩ ∨
      (cfg.PostsC4 ∧
        write = ⟨⟨room, info, .c4 chunkId (decide (currIdx + count = entry.kvPages.length)) info.ppRank⟩,
          ((entry.kvPages.drop currIdx).take count).map .mirror⟩) ∨
      write = ⟨⟨room, info, .aux⟩, []⟩ ∨
      ((cfg.hasState = true ∧ entry.statePages ≠ []) ∧
        write = ⟨⟨room, info, .state⟩, entry.statePages.map .state⟩) := by
  rw [chunkWrites] at mem
  rcases mem_append.mp mem with first | last
  · rcases mem_cons.mp first with kv | mirror
    · exact .inl kv
    · split_ifs at mirror with posts
      · exact .inr (.inl ⟨posts, mem_singleton.mp mirror⟩)
      · exact absurd mirror not_mem_nil
  · split_ifs at last with isLast stateful
    · rcases mem_cons.mp last with aux | state
      · exact .inr (.inr (.inl aux))
      · exact .inr (.inr (.inr ⟨stateful, mem_singleton.mp state⟩))
    · exact .inr (.inr (.inl (mem_singleton.mp last)))
    · exact absurd last not_mem_nil

theorem PdConfig.key_of_mem_chunkWrites : write.key.room = room ∧ write.key.info = info := by
  rcases of_mem_chunkWrites mem with rfl | ⟨_, rfl⟩ | rfl | ⟨_, rfl⟩ <;> exact ⟨rfl, rfl⟩

end

/-! ## The invariant -/

namespace PdServer

variable {cfg : PdConfig} {server : PdServer} {senders : ℕ → BootstrapInfo → SenderState} {entry : PdRoom}
  {info : BootstrapInfo}

def Posted (server : PdServer) (key : WriteKey) : Prop := key ∈ server.posted.map PageWrite.key

/-- A rank has posted this many chunks of a room, the last one when it finished. With a mirror there is one chunk. -/
structure SenderOk (cfg : PdConfig) (server : PdServer) (room : ℕ) (info : BootstrapInfo) (chunks : ℕ) : Prop where
  kv : ∀ {chunkId isLast ppRank}, server.Posted ⟨room, info, .kv chunkId isLast ppRank⟩ →
    ppRank = info.ppRank ∧ chunkId < chunks ∧
      (isLast = true ↔ server.senders room info = .finished ∧ chunkId + 1 = chunks)
  c4 : ∀ {chunkId isLast ppRank}, server.Posted ⟨room, info, .c4 chunkId isLast ppRank⟩ →
    0 < cfg.c4DramLayerNum ∧ chunkId = 0 ∧ isLast = true ∧ ppRank = info.ppRank
  sending : ∀ {currIdx chunkId}, server.senders room info = .sending currIdx chunkId →
    chunkId = chunks ∧ (0 < cfg.c4DramLayerNum → currIdx = 0 ∧ chunkId = 0)
  unknown : server.senders room info = .unknown → chunks = 0 ∧ ∀ notif, ¬server.Posted ⟨room, info, notif⟩
  known : server.senders room info ≠ .unknown → info ∈ cfg.realRanks ∧ server.rooms room ≠ none

/-- A write goes to pages of its room. -/
structure WriteOk (cfg : PdConfig) (server : PdServer) (write : PageWrite) (entry : PdRoom) : Prop where
  room : server.rooms write.key.room = some entry
  pages : write.pages ⊆ entry.pages
  real : write.key.info ∈ cfg.realRanks
  aux : write.key.notif = .aux → write.pages = []
  state : write.key.notif = .state → cfg.hasState = true ∧ entry.statePages ≠ []

/-- A room owns its pages until they are released, and then nothing is written for it any more. -/
structure RoomOk (cfg : PdConfig) (server : PdServer) (room : ℕ) (entry : PdRoom) : Prop where
  owned : entry.phase ≠ .released → ∀ page ∈ entry.pages, server.owner page = some room
  released : entry.phase = .released → server.Quiet cfg room
  running : entry.phase = .running → entry.concludeState = some .success
  success : entry.concludeState = some .success → server.Quiet cfg room
  collected : entry.concludeState = none → ∃ delivered, TransferStatus.Collected cfg.topology.requiredPrefillResponseNum
      (.init (cfg.hasState && decide (entry.statePages ≠ [])) (decide (0 < cfg.c4DramLayerNum))) delivered
        entry.status ∧
    ∀ notif ∈ delivered, ∃ info, ⟨room, info, notif⟩ ∈ server.landed

structure PdOk (cfg : PdConfig) (server : PdServer) : Prop where
  senders : ∀ room info, ∃ chunks, SenderOk cfg server room info chunks
  writes : ∀ write ∈ server.posted, ∃ entry, WriteOk cfg server write entry
  landed : ∀ key ∈ server.landed, server.Posted key
  rooms : ∀ room entry, server.rooms room = some entry → RoomOk cfg server room entry

/-- The flags of a status stand for one transfer each. -/
def Alone (cfg : PdConfig) : Prop :=
  0 < cfg.c4DramLayerNum ∨ cfg.hasState = true → ∀ info ∈ cfg.realRanks, ∀ other ∈ cfg.realRanks, info = other

theorem ok_init : PdOk cfg init := by
  refine ⟨fun room info => ⟨0, ?_⟩, ?_, ?_, ?_⟩
  · constructor <;> simp [init, Posted]
  all_goals simp [init]

namespace PdOk

variable (ok : PdOk cfg server)

include ok

theorem real_of_posted {key : WriteKey} (posted : server.Posted key) : key.info ∈ cfg.realRanks := by
  obtain ⟨write, mem, rfl⟩ := mem_map.mp posted
  obtain ⟨entry, writeOk⟩ := ok.writes write mem
  exact writeOk.real

section Done

variable {room : ℕ} {status start : TransferStatus} {delivered : List Notif}
  (collected : TransferStatus.Collected cfg.topology.requiredPrefillResponseNum start delivered status)
  (landed : ∀ notif ∈ delivered, ∃ info, ⟨room, info, notif⟩ ∈ server.landed)

include collected landed

/-- A stage that reported its number of chunks has posted them all. -/
theorem finished_of_expected {ppRank count : ℕ} (is : status.expectedKvsPerPp.get? ppRank = some count) :
    ∃ info ∈ cfg.realRanks, ppRank = info.ppRank ∧ server.senders room info = .finished ∧
      SenderOk cfg server room info count := by
  obtain ⟨chunkId, rfl, mem⟩ := collected.expected ppRank count is
  obtain ⟨info, isLanded⟩ := landed _ mem
  have posted := ok.landed _ isLanded
  obtain ⟨chunks, senderOk⟩ := ok.senders room info
  obtain ⟨rfl, _, last⟩ := senderOk.kv posted
  obtain ⟨finished, rfl⟩ := last.mp rfl
  exact ⟨info, ok.real_of_posted posted, rfl, finished, senderOk⟩

/-- When as many stages have reported as are required, every rank has. -/
private theorem expected_of_enough (accepted : cfg.topology.Accepted)
    (enough : cfg.topology.requiredPrefillResponseNum ≤ status.expectedKvsPerPp.keys.length) :
    cfg.topology.ServedByOne ∧ ∀ info ∈ cfg.realRanks,
      ∃ count, status.expectedKvsPerPp.get? info.ppRank = some count := by
  have within : status.expectedKvsPerPp.keys ⊆ cfg.topology.targetPpRanks := by
    intro ppRank key
    obtain ⟨count, is⟩ := (OrderedDict.mem_keys_iff _ _).mp key
    obtain ⟨info, real, rfl, _⟩ := ok.finished_of_expected collected landed is
    exact ppRank_mem_targetPpRanks (mem_filter.mp real).1
  have subperm := subperm_of_subset (OrderedDict.keys_nodup _) within
  have single := servedByOne_of_le accepted (enough.trans subperm.length_le)
  have all : cfg.topology.targetPpRanks.length ≤ status.expectedKvsPerPp.keys.length := by
    rwa [length_targetPpRanks accepted, ← requiredPrefillResponseNum_eq single]
  refine ⟨single, fun info real => ?_⟩
  rw [← OrderedDict.mem_keys_iff, (subperm.perm_of_length_le all).mem_iff]
  exact ppRank_mem_targetPpRanks (mem_filter.mp real).1

/-- When all chunks of a stage have been counted, its transfers have landed. -/
private theorem kv_landed {info : BootstrapInfo} {chunks chunkId ppRank : ℕ} {isLast : Bool}
    (unique : ∀ other ∈ cfg.realRanks, other.ppRank = info.ppRank → other = info)
    (senderOk : SenderOk cfg server room info chunks) (counted : (status.receivedKvsPerPp info.ppRank).card = chunks)
    (posted : server.Posted ⟨room, info, .kv chunkId isLast ppRank⟩) :
    (⟨room, info, .kv chunkId isLast ppRank⟩ : WriteKey) ∈ server.landed := by
  have ofDelivered : ∀ {other last}, .kv other last info.ppRank ∈ delivered →
      (⟨room, info, .kv other last info.ppRank⟩ : WriteKey) ∈ server.landed := by
    intro other last mem
    obtain ⟨sender, isLanded⟩ := landed _ mem
    have sent := ok.landed _ isLanded
    obtain ⟨_, ok'⟩ := ok.senders room sender
    obtain rfl := unique sender (ok.real_of_posted sent) (ok'.kv sent).1.symm
    exact isLanded
  obtain ⟨rfl, inside, last⟩ := senderOk.kv posted
  have received : status.receivedKvsPerPp info.ppRank = Finset.range chunks := by
    apply Finset.eq_of_subset_of_card_le
    · intro other mem
      obtain ⟨_, isDelivered⟩ := (collected.received other info.ppRank).mp mem
      exact Finset.mem_range.mpr (senderOk.kv (ok.landed _ (ofDelivered isDelivered))).2.1
    · rw [Finset.card_range, counted]
  obtain ⟨otherLast, isDelivered⟩ :=
    (collected.received chunkId info.ppRank).mp (received ▸ Finset.mem_range.mpr inside)
  have isLanded := ofDelivered isDelivered
  have sameLast : otherLast = isLast := by
    have := (senderOk.kv (ok.landed _ isLanded)).2.2
    exact Bool.eq_iff_iff.mpr (this.trans last.symm)
  exact sameLast ▸ isLanded

end Done

/-- A receiver that is done without failure has everything. -/
theorem quiet_of_isDone (accepted : cfg.topology.Accepted) (alone : Alone cfg) {room : ℕ} {entry : PdRoom}
    (is : server.rooms room = some entry) (waiting : entry.concludeState = none) (fine : entry.status.isFailure = false)
    (done : entry.status.isDone = true) : server.Quiet cfg room := by
  obtain ⟨delivered, collected, landed⟩ := (ok.rooms room entry is).collected waiting
  obtain ⟨ranks, ranksIs, _, hasState, hasC4, enough, counts⟩ := (TransferStatus.isDone_iff fine).mp done
  obtain rfl := collected.ranks ranks ranksIs
  obtain ⟨single, reported⟩ := ok.expected_of_enough collected landed accepted enough
  have unique : ∀ info ∈ cfg.realRanks, ∀ other ∈ cfg.realRanks, other.ppRank = info.ppRank → other = info := by
    intro info real other otherReal same
    obtain ⟨_, _, rfl⟩ := (mem_bootstrapInfos accepted single).mp (by simpa [PdConfig.realRanks] using real)
    obtain ⟨_, _, rfl⟩ := (mem_bootstrapInfos accepted single).mp (by simpa [PdConfig.realRanks] using otherReal)
    exact congrArg (fun ppRank => BootstrapInfo.mk cfg.topology.targetTpRank ppRank false) same
  have ranksDone : ∀ info ∈ cfg.realRanks, server.senders room info = .finished ∧
      ∃ chunks, SenderOk cfg server room info chunks ∧ (entry.status.receivedKvsPerPp info.ppRank).card = chunks := by
    intro info real
    obtain ⟨count, isCount⟩ := reported info real
    obtain ⟨other, otherReal, same, finished, senderOk⟩ := ok.finished_of_expected collected landed isCount
    obtain rfl := unique info real other otherReal same.symm
    exact ⟨finished, count, senderOk, counts _ _ isCount⟩
  refine ⟨fun info real => (ranksDone info real).1, ?_⟩
  rintro ⟨⟨_, info, notif⟩, pages⟩ mem rfl hasPages
  have posted : server.Posted ⟨_, info, notif⟩ := mem_map_of_mem mem
  obtain ⟨owner, writeOk⟩ := ok.writes _ mem
  obtain rfl : entry = owner := Option.some.inj (is.symm.trans writeOk.room)
  cases notif with
  | kv chunkId isLast ppRank =>
    obtain ⟨_, chunks, senderOk, counted⟩ := ranksDone info writeOk.real
    exact ok.kv_landed collected landed (unique info writeOk.real) senderOk counted posted
  | c4 chunkId isLast ppRank =>
    obtain ⟨chunks, senderOk⟩ := ok.senders _ info
    obtain ⟨mirrored, rfl, rfl, rfl⟩ := senderOk.c4 posted
    have received := hasC4 (collected.expects.2.trans (decide_eq_true mirrored))
    obtain ⟨chunkId, isLast, ppRank, isDelivered⟩ := collected.c4.mp received
    obtain ⟨sender, isLanded⟩ := landed _ isDelivered
    obtain rfl := alone (.inl mirrored) info writeOk.real sender (ok.real_of_posted (ok.landed _ isLanded))
    obtain ⟨_, rfl, rfl, rfl⟩ := senderOk.c4 (ok.landed _ isLanded)
    exact isLanded
  | aux => exact absurd (writeOk.aux rfl) hasPages
  | state =>
    obtain ⟨stateful, some⟩ := writeOk.state rfl
    have received := hasState (collected.expects.1.trans (Bool.and_eq_true_iff.mpr ⟨stateful, decide_eq_true some⟩))
    obtain ⟨sender, isLanded⟩ := landed _ (collected.state.mp received)
    obtain rfl := alone (.inr stateful) info writeOk.real sender (ok.real_of_posted (ok.landed _ isLanded))
    exact isLanded

end PdOk

/-! ## Every event keeps the invariant -/

theorem SenderOk.congr {next : PdServer} {room chunks : ℕ} (senderOk : SenderOk cfg server room info chunks)
    (sender : next.senders room info = server.senders room info)
    (posted : ∀ notif, next.Posted ⟨room, info, notif⟩ ↔ server.Posted ⟨room, info, notif⟩)
    (rooms : server.rooms room ≠ none → next.rooms room ≠ none) : SenderOk cfg next room info chunks := by
  constructor
  · intro chunkId isLast ppRank isPosted
    rw [sender]
    exact senderOk.kv ((posted _).mp isPosted)
  · intro chunkId isLast ppRank isPosted
    exact senderOk.c4 ((posted _).mp isPosted)
  · intro currIdx chunkId is
    exact senderOk.sending (sender.symm.trans is)
  · intro is
    obtain ⟨rfl, none⟩ := senderOk.unknown (sender.symm.trans is)
    exact ⟨rfl, fun notif isPosted => none notif ((posted notif).mp isPosted)⟩
  · intro is
    rw [sender] at is
    exact ⟨(senderOk.known is).1, rooms (senderOk.known is).2⟩

theorem RoomOk.congr {next : PdServer} {room : ℕ} (roomOk : RoomOk cfg server room entry)
    (owner : entry.phase ≠ .released → ∀ page ∈ entry.pages, server.owner page = some room →
      next.owner page = some room)
    (quiet : server.Quiet cfg room → next.Quiet cfg room) (landed : server.landed ⊆ next.landed) :
    RoomOk cfg next room entry where
  owned kept page mem := owner kept page mem (roomOk.owned kept page mem)
  released is := quiet (roomOk.released is)
  running := roomOk.running
  success is := quiet (roomOk.success is)
  collected waiting := by
    obtain ⟨delivered, collected, isLanded⟩ := roomOk.collected waiting
    refine ⟨delivered, collected, fun notif mem => ?_⟩
    obtain ⟨info, inLanded⟩ := isLanded notif mem
    exact ⟨info, landed inLanded⟩

theorem WriteOk.congr {next : PdServer} {write : PageWrite} (writeOk : WriteOk cfg server write entry)
    (rooms : next.rooms write.key.room = server.rooms write.key.room) : WriteOk cfg next write entry :=
  { writeOk with room := rooms.trans writeOk.room }

theorem update_sender_of_ne {room other : ℕ} {info rank : BootstrapInfo} (different : ¬(other = room ∧ rank = info))
    (next : SenderState) :
    update senders room (update (senders room) info next) other rank = senders other rank := by
  rcases eq_or_ne other room with rfl | apart
  · rw [update_self, update_of_ne fun same => different ⟨rfl, same⟩]
  · rw [update_of_ne apart]

/-- A room with a rank that still sends is not quiet, so what the rank does keeps the quiet rooms. -/
theorem Quiet.update_sender {room other : ℕ} {info : BootstrapInfo} (quiet : server.Quiet cfg other)
    (real : info ∈ cfg.realRanks) (busy : server.senders room info ≠ .finished) {next : SenderState}
    {writes : List PageWrite} (own : ∀ write ∈ writes, write.key.room = room) :
    Quiet cfg { server with
      posted := writes ++ server.posted
      senders := update server.senders room (update (server.senders room) info next) } other := by
  have different : other ≠ room := by
    rintro rfl
    exact busy (quiet.1 info real)
  constructor
  · intro rank rankReal
    exact (update_sender_of_ne (fun same => different same.1) next).trans (quiet.1 rank rankReal)
  · intro write mem inRoom hasPages
    rcases mem_append.mp mem with new | old
    · exact absurd (inRoom.symm.trans (own write new)) different
    · exact quiet.2 write old inRoom hasPages

theorem posted_append {writes : List PageWrite} {key : WriteKey} :
    Posted { server with posted := writes ++ server.posted, senders := senders } key ↔
      (∃ write ∈ writes, write.key = key) ∨ server.Posted key := by
  simp only [Posted, map_append, mem_append, mem_map]

theorem SenderOk.send {room currIdx chunkId count : ℕ} (senderOk : SenderOk cfg server room info chunkId)
    (sender : server.senders room info = .sending currIdx chunkId) (real : info ∈ cfg.realRanks)
    (known : server.rooms room ≠ none)
    (whole : 0 < cfg.c4DramLayerNum → chunkId = 0 ∧ currIdx + count = entry.kvPages.length) :
    SenderOk cfg { server with
      posted := cfg.chunkWrites room info entry currIdx chunkId count ++ server.posted
      senders := update server.senders room (update (server.senders room) info
        (if currIdx + count = entry.kvPages.length then .finished else .sending (currIdx + count) (chunkId + 1))) }
      room info (chunkId + 1) := by
  have next : ∀ state : SenderState, update server.senders room
      (update (server.senders room) info state) room info = state := by simp
  constructor
  · intro otherId isLast ppRank posted
    dsimp only
    rw [next]
    rcases posted_append.mp posted with ⟨write, mem, is⟩ | old
    · rcases PdConfig.of_mem_chunkWrites mem with rfl | ⟨_, rfl⟩ | rfl | ⟨_, rfl⟩
      · obtain ⟨rfl, rfl, rfl⟩ := Notif.kv.inj (WriteKey.mk.inj is).2.2
        refine ⟨rfl, Nat.lt_succ_self _, ?_⟩
        split_ifs with last <;> simp [last]
      all_goals exact Notif.noConfusion (WriteKey.mk.inj is).2.2
    · obtain ⟨rfl, inside, last⟩ := senderOk.kv old
      have notLast : ¬isLast = true := fun isLast => SenderState.noConfusion (sender.symm.trans (last.mp isLast).1)
      exact ⟨rfl, Nat.lt_succ_of_lt inside, fun isLast => absurd isLast notLast, fun finished => by omega⟩
  · intro otherId isLast ppRank posted
    rcases posted_append.mp posted with ⟨write, mem, is⟩ | old
    · rcases PdConfig.of_mem_chunkWrites mem with rfl | ⟨posts, rfl⟩ | rfl | ⟨_, rfl⟩
      · exact Notif.noConfusion (WriteKey.mk.inj is).2.2
      · obtain ⟨rfl, rfl, rfl⟩ := Notif.c4.inj (WriteKey.mk.inj is).2.2
        obtain ⟨first, last⟩ := whole posts.2
        exact ⟨posts.2, first, decide_eq_true last, rfl⟩
      all_goals exact Notif.noConfusion (WriteKey.mk.inj is).2.2
    · exact senderOk.c4 old
  · intro otherIdx otherId is
    dsimp only at is
    rw [next] at is
    split_ifs at is with last
    obtain ⟨rfl, rfl⟩ := SenderState.sending.inj is
    exact ⟨rfl, fun mirrored => absurd (whole mirrored).2 last⟩
  · intro is
    dsimp only at is
    rw [next] at is
    split_ifs at is
  · exact fun _ => ⟨real, known⟩

private theorem writeOk_of_mem_chunkWrites {room currIdx chunkId count : ℕ} {write : PageWrite}
    {posted : List PageWrite} (real : info ∈ cfg.realRanks) (found : server.rooms room = some entry)
    (mem : write ∈ cfg.chunkWrites room info entry currIdx chunkId count) :
    WriteOk cfg { server with posted := posted, senders := senders } write entry := by
  have sent : (entry.kvPages.drop currIdx).take count ⊆ entry.kvPages :=
    fun _ inside => mem_of_mem_drop (mem_of_mem_take inside)
  rcases PdConfig.of_mem_chunkWrites mem with rfl | ⟨_, rfl⟩ | rfl | ⟨stateful, rfl⟩
  · refine ⟨found, fun page inside => ?_, real, nofun, nofun⟩
    exact mem_append_left _ (mem_append_left _ (map_subset _ sent inside))
  · refine ⟨found, fun page inside => ?_, real, nofun, nofun⟩
    exact mem_append_left _ (mem_append_right _ (map_subset _ sent inside))
  · exact ⟨found, nil_subset _, real, fun _ => rfl, nofun⟩
  · exact ⟨found, fun page inside => mem_append_right _ inside, real, nofun, fun _ => stateful⟩

namespace PdOk

variable (ok : PdOk cfg server) (room : ℕ)

include ok

/-- The entry of a room changes, and its pages stay. -/
theorem set {room : ℕ} {entry next : PdRoom} (is : server.rooms room = some entry)
    (kvPages : next.kvPages = entry.kvPages)
    (statePages : next.statePages = entry.statePages) {owner : DstPage → Option ℕ}
    (others : ∀ other kept, other ≠ room → server.rooms other = some kept → kept.phase ≠ .released →
      ∀ page ∈ kept.pages, server.owner page = some other → owner page = some other)
    (roomOk : RoomOk cfg { server with owner := owner } room next) :
    PdOk cfg { server with rooms := update server.rooms room (some next), owner := owner } where
  senders other info := by
    obtain ⟨chunks, senderOk⟩ := ok.senders other info
    refine ⟨chunks, senderOk.congr rfl (fun _ => Iff.rfl) fun known => ?_⟩
    change update server.rooms room (some next) other ≠ none
    rcases eq_or_ne other room with rfl | different
    · rw [update_self]
      exact Option.some_ne_none next
    · rwa [update_of_ne different]
  writes write mem := by
    obtain ⟨kept, writeOk⟩ := ok.writes write mem
    rcases eq_or_ne write.key.room room with rfl | different
    · obtain rfl := Option.some.inj (is.symm.trans writeOk.room)
      have pages : next.pages = entry.pages := by rw [PdRoom.pages, PdRoom.pages, kvPages, statePages]
      exact ⟨next, update_self .., pages ▸ writeOk.pages, writeOk.real, writeOk.aux, statePages ▸ writeOk.state⟩
    · exact ⟨kept, writeOk.congr (update_of_ne different ..)⟩
  landed := ok.landed
  rooms other kept found := by
    change update server.rooms room (some next) other = some kept at found
    rcases eq_or_ne other room with rfl | different
    · rw [update_self] at found
      obtain rfl := Option.some.inj found
      exact roomOk.congr (fun _ _ _ owned => owned) id (List.Subset.refl _)
    · rw [update_of_ne different] at found
      exact (ok.rooms other kept found).congr (others other kept different found) id (List.Subset.refl _)

/-- A change of the status or the conclusion of a room. -/
theorem modifyRoom {room : ℕ} {change : PdRoom → PdRoom}
    (keeps : ∀ entry, (change entry).kvPages = entry.kvPages ∧ (change entry).statePages = entry.statePages)
    (roomOk : ∀ entry, server.rooms room = some entry → RoomOk cfg server room (change entry)) :
    PdOk cfg (server.modifyRoom room change) := by
  rw [PdServer.modifyRoom]
  cases is : server.rooms room with
  | none =>
    have same : update server.rooms room (Option.map change none) = server.rooms :=
      update_eq_self_iff.mpr is.symm
    rw [same]
    exact ok
  | some entry =>
    exact ok.set is (keeps entry).1 (keeps entry).2 (fun _ _ _ _ _ _ _ owned => owned) (roomOk entry is)

theorem release {room : ℕ} {entry : PdRoom} (is : server.rooms room = some entry) (kept : entry.phase ≠ .released)
    (quiet : server.Quiet cfg room) : PdOk cfg (server.release room entry) := by
  have roomOk := ok.rooms room entry is
  rw [PdServer.release]
  refine @set cfg server ok room entry { entry with phase := .released } is rfl rfl _
    (fun other otherEntry different found _ page mem owned => ?_) ?_
  · -- pages of two rooms are apart because each page has one owner
    have apart : page ∉ entry.pages := fun inside =>
      different (Option.some.inj (owned.symm.trans (roomOk.owned kept page inside)))
    exact (if_neg apart).trans owned
  · exact ⟨fun still => absurd rfl still, fun _ => quiet, nofun, fun _ => quiet,
      roomOk.collected⟩

theorem preAlloc (kvPages statePages : List ℕ) : PdOk cfg (server.step cfg (.preAlloc room kvPages statePages)) := by
  rw [PdServer.step]
  split_ifs with fresh
  · obtain ⟨unused, free⟩ := fresh
    have different : ∀ {other entry}, server.rooms other = some entry → other ≠ room := by
      rintro other entry found rfl
      exact Option.some_ne_none entry (found.symm.trans unused)
    constructor
    · intro other info
      obtain ⟨chunks, senderOk⟩ := ok.senders other info
      refine ⟨chunks, senderOk.congr rfl (fun _ => Iff.rfl) fun known => ?_⟩
      obtain ⟨entry, found⟩ := Option.ne_none_iff_exists'.mp known
      dsimp only
      rwa [update_of_ne (different found)]
    · intro write mem
      obtain ⟨entry, writeOk⟩ := ok.writes write mem
      exact ⟨entry, writeOk.congr (update_of_ne (different writeOk.room) ..)⟩
    · exact ok.landed
    · intro other entry found
      dsimp only at found
      rcases eq_or_ne other room with rfl | apart
      · rw [update_self] at found
        obtain rfl := Option.some.inj found
        exact ⟨fun _ page mem => if_pos mem, nofun, nofun, nofun,
          fun _ => ⟨[], TransferStatus.collected_init .., by simp⟩⟩
      · rw [update_of_ne apart] at found
        refine (ok.rooms other entry found).congr (fun _ page mem owned => ?_) id (List.Subset.refl _)
        refine (if_neg fun inside => ?_).trans owned
        exact Option.some_ne_none other (owned.symm.trans (free page inside))
  · exact ok

theorem bootstrap (info : BootstrapInfo) : PdOk cfg (server.step cfg (.bootstrap room info)) := by
  rw [PdServer.step]
  split_ifs with new
  · obtain ⟨known, real, unknown⟩ := new
    constructor
    · intro other rank
      obtain ⟨chunks, senderOk⟩ := ok.senders other rank
      by_cases same : other = room ∧ rank = info
      · obtain ⟨rfl, rfl⟩ := same
        obtain ⟨rfl, none⟩ := senderOk.unknown unknown
        have sender : update server.senders other
            (update (server.senders other) rank (.sending 0 0)) other rank = .sending 0 0 := by simp
        refine ⟨0, fun posted => absurd posted (none _), fun posted => absurd posted (none _), fun is => ?_,
          fun is => ?_, fun _ => ⟨real, known⟩⟩
        · obtain ⟨rfl, rfl⟩ := SenderState.sending.inj (sender.symm.trans is)
          exact ⟨rfl, fun _ => ⟨rfl, rfl⟩⟩
        · exact SenderState.noConfusion (sender.symm.trans is)
      · exact ⟨chunks, senderOk.congr (update_sender_of_ne same _) (fun _ => Iff.rfl) id⟩
    · intro write mem
      obtain ⟨entry, writeOk⟩ := ok.writes write mem
      exact ⟨entry, writeOk.congr rfl⟩
    · exact ok.landed
    · intro other entry found
      refine (ok.rooms other entry found).congr (fun _ _ _ owned => owned) (fun quiet => ?_) (List.Subset.refl _)
      exact @Quiet.update_sender _ _ room _ info quiet real (unknown ▸ nofun) _ [] (by simp)
  · exact ok

theorem send {room count : ℕ} {info : BootstrapInfo} (settled : server.Settled cfg (.send room info count)) :
    PdOk cfg (server.step cfg (.send room info count)) := by
  rw [PdServer.step]
  split
  · next entry currIdx chunkId found sender =>
    split
    · obtain ⟨chunks, senderOk⟩ := ok.senders room info
      obtain ⟨rfl, mirrored⟩ := senderOk.sending sender
      obtain ⟨real, known⟩ := senderOk.known (sender ▸ nofun)
      have whole : 0 < cfg.c4DramLayerNum → chunkId = 0 ∧ currIdx + count = entry.kvPages.length := by
        intro hasMirror
        obtain ⟨rfl, rfl⟩ := mirrored hasMirror
        have := settled entry found hasMirror sender
        exact ⟨rfl, by omega⟩
      constructor
      · intro other rank
        by_cases same : other = room ∧ rank = info
        · obtain ⟨rfl, rfl⟩ := same
          exact ⟨chunkId + 1, senderOk.send sender real known whole⟩
        · obtain ⟨chunks, otherOk⟩ := ok.senders other rank
          refine ⟨chunks, otherOk.congr (update_sender_of_ne same _) (fun notif => ?_) id⟩
          rw [posted_append, or_iff_right]
          rintro ⟨write, mem, is⟩
          obtain ⟨inRoom, ofRank⟩ := PdConfig.key_of_mem_chunkWrites mem
          rw [is] at inRoom ofRank
          exact same ⟨inRoom, ofRank⟩
      · intro write mem
        rcases mem_append.mp mem with new | old
        · exact ⟨entry, writeOk_of_mem_chunkWrites real found new⟩
        · obtain ⟨owner, writeOk⟩ := ok.writes write old
          exact ⟨owner, writeOk.congr rfl⟩
      · intro key mem
        exact posted_append.mpr (.inr (ok.landed key mem))
      · intro other kept otherFound
        refine (ok.rooms other kept otherFound).congr (fun _ _ _ owned => owned) (fun quiet => ?_) (List.Subset.refl _)
        exact quiet.update_sender real (sender ▸ nofun) fun write mem => (PdConfig.key_of_mem_chunkWrites mem).1
    · exact ok
  · exact ok

theorem land (key : WriteKey) : PdOk cfg (server.step cfg (.land key)) := by
  rw [PdServer.step]
  split_ifs with posted
  · constructor
    · intro room info
      obtain ⟨chunks, senderOk⟩ := ok.senders room info
      exact ⟨chunks, senderOk.congr rfl (fun _ => Iff.rfl) id⟩
    · intro write mem
      obtain ⟨entry, writeOk⟩ := ok.writes write mem
      exact ⟨entry, writeOk.congr rfl⟩
    · intro other mem
      rcases mem_cons.mp mem with rfl | old
      · exact posted
      · exact ok.landed other old
    · intro room entry found
      refine (ok.rooms room entry found).congr (fun _ _ _ owned => owned) (fun quiet => ?_) (subset_cons_self _ _)
      exact ⟨quiet.1, fun write mem inRoom hasPages => mem_cons_of_mem _ (quiet.2 write mem inRoom hasPages)⟩
  · exact ok

theorem notify (key : WriteKey) : PdOk cfg (server.step cfg (.notify key)) := by
  rw [PdServer.step]
  split_ifs with landed
  · refine ok.modifyRoom (fun entry => by split_ifs <;> exact ⟨rfl, rfl⟩) fun entry found => ?_
    have roomOk := ok.rooms _ entry found
    split_ifs with waiting
    · refine { roomOk with collected := fun _ => ?_ }
      obtain ⟨delivered, collected, isLanded⟩ := roomOk.collected waiting
      refine ⟨key.notif :: delivered, collected.cons key.notif, fun notif mem => ?_⟩
      rcases mem_cons.mp mem with rfl | old
      · exact ⟨key.info, landed⟩
      · exact isLanded notif old
    · exact roomOk
  · exact ok

theorem nodeFailure : PdOk cfg (server.step cfg (.nodeFailure room)) := by
  refine ok.modifyRoom (fun entry => by split_ifs <;> exact ⟨rfl, rfl⟩) fun entry found => ?_
  have roomOk := ok.rooms _ entry found
  split_ifs with done
  · exact roomOk
  · refine { roomOk with collected := fun waiting => ?_ }
    obtain ⟨delivered, collected, isLanded⟩ := roomOk.collected waiting
    exact ⟨delivered, { collected with }, isLanded⟩

theorem timeout : PdOk cfg (server.step cfg (.timeout room)) := by
  refine ok.modifyRoom (fun entry => by split_ifs <;> exact ⟨rfl, rfl⟩) fun entry found => ?_
  have roomOk := ok.rooms _ entry found
  split_ifs with waiting
  · exact ⟨roomOk.owned, roomOk.released, fun running => absurd ((roomOk.running running).symm.trans waiting) nofun,
      nofun, nofun⟩
  · exact roomOk

theorem poll (accepted : cfg.topology.Accepted) (alone : Alone cfg) (room : ℕ) :
    PdOk cfg (server.step cfg (.poll room)) := by
  refine ok.modifyRoom (fun entry => by split_ifs <;> exact ⟨rfl, rfl⟩) fun entry found => ?_
  have roomOk := ok.rooms _ entry found
  split_ifs with done failed
  · exact ⟨roomOk.owned, roomOk.released, fun running => absurd ((roomOk.running running).symm.trans done.1) nofun,
      nofun, nofun⟩
  · exact ⟨roomOk.owned, roomOk.released, fun _ => rfl,
      fun _ => ok.quiet_of_isDone accepted alone found done.1 (Bool.eq_false_iff.mpr failed) done.2, nofun⟩
  · exact roomOk

theorem popTransferred {room : ℕ} (settled : server.Settled cfg (.popTransferred room)) :
    PdOk cfg (server.step cfg (.popTransferred room)) := by
  rw [PdServer.step]
  cases found : server.rooms room with
  | none => exact ok
  | some entry =>
    dsimp only
    split_ifs with transferring
    · cases concluded : entry.concludeState with
      | none => exact ok
      | some conclusion =>
        cases conclusion with
        | failed => exact ok.release found (transferring ▸ nofun) (settled entry found concluded)
        | success =>
          refine ok.modifyRoom (fun entry => ⟨rfl, rfl⟩) fun same foundSame => ?_
          obtain rfl := Option.some.inj (found.symm.trans foundSame)
          have roomOk := ok.rooms _ entry found
          exact ⟨fun _ => roomOk.owned (transferring ▸ nofun), nofun, fun _ => concluded, roomOk.success,
            roomOk.collected⟩
    · exact ok

theorem finish : PdOk cfg (server.step cfg (.finish room)) := by
  rw [PdServer.step]
  cases found : server.rooms room with
  | none => exact ok
  | some entry =>
    dsimp only
    split_ifs with running
    · have roomOk := ok.rooms _ entry found
      exact ok.release found (running ▸ nofun) (roomOk.success (roomOk.running running))
    · exact ok

theorem step (accepted : cfg.topology.Accepted) (alone : Alone cfg) {event : PdEvent}
    (settled : server.Settled cfg event) : PdOk cfg (server.step cfg event) := by
  cases event with
  | preAlloc room kvPages statePages => exact ok.preAlloc room kvPages statePages
  | bootstrap room info => exact ok.bootstrap room info
  | send room info count => exact ok.send settled
  | land key => exact ok.land key
  | notify key => exact ok.notify key
  | nodeFailure room => exact ok.nodeFailure room
  | timeout room => exact ok.timeout room
  | poll room => exact ok.poll accepted alone room
  | popTransferred room => exact ok.popTransferred settled
  | finish room => exact ok.finish room

/-- A write that has not landed is one of a room that still has its pages. -/
private theorem noStray (event : PdEvent) : server.NoStray event := by
  cases event with
  | land key =>
    rintro outstanding write mem rfl page inside other owner
    obtain ⟨entry, writeOk⟩ := ok.writes write mem
    have roomOk := ok.rooms _ entry writeOk.room
    have kept : entry.phase ≠ .released := fun released =>
      outstanding ((roomOk.released released).2 write mem rfl (ne_nil_of_mem inside))
    exact Option.some.inj ((Option.mem_def.mp owner).symm.trans (roomOk.owned kept page (writeOk.pages inside)))
  | _ => trivial

end PdOk

/-- If the receiver flags stand for one transfer each and failed rooms are released when nothing can be written for them
any more, no write lands in a page of another room. -/
theorem no_stray_write (cfg : PdConfig) (accepted : cfg.topology.Accepted) (alone : Alone cfg) (events : List PdEvent)
    (settled : Along (step cfg) (Settled cfg) init events) : Along (step cfg) NoStray init events :=
  settled.imp_of_invariant ok_init (fun _ _ ok settled => ok.step accepted alone settled)
    fun _ event ok _ => ok.noStray event

/-- One prefill rank, with a mirror and state pages. -/
def onePair : PdConfig := ⟨⟨1, 1, 1, 1, 0, 0, true⟩, 1, true⟩

def onlyRank : BootstrapInfo := ⟨0, 0, false⟩

/-- The transfers of a room that is sent as one chunk. -/
def roomNotifs : List Notif := [.kv 0 true 0, .c4 0 true 0, .aux, .state]

/-- A room that succeeds and ends, and one with the same pages that times out and is released after its writes. -/
def settledRun : List PdEvent :=
  [.preAlloc 0 [1, 2] [1], .bootstrap 0 onlyRank, .send 0 onlyRank 2] ++
    roomNotifs.map (fun notif => .land ⟨0, onlyRank, notif⟩) ++
    roomNotifs.map (fun notif => .notify ⟨0, onlyRank, notif⟩) ++
    [.poll 0, .popTransferred 0, .finish 0, .preAlloc 1 [2] [1], .bootstrap 1 onlyRank, .timeout 1,
      .send 1 onlyRank 1] ++
    roomNotifs.map (fun notif => .land ⟨1, onlyRank, notif⟩) ++ [.popTransferred 1, .preAlloc 2 [2, 1] [1]]

theorem no_stray_write_on_settledRun :
    Along (step onePair) (Settled onePair) init settledRun ∧ Along (step onePair) NoStray init settledRun :=
  have settled : Along (step onePair) (Settled onePair) init settledRun := by decide +kernel
  ⟨settled, no_stray_write onePair (by decide) (fun _ => by decide) settledRun settled⟩

/-- A room times out before the prefill rank sends, and its pages go to another one. -/
def timedOutRun : List PdEvent :=
  [.preAlloc 0 [1] [1], .bootstrap 0 onlyRank, .timeout 0, .popTransferred 0, .preAlloc 1 [1] [1], .send 0 onlyRank 1]

/-- Nothing tells the prefill rank that the receiver gave up: all three writes go to pages of the other room. -/
theorem stray_writes_after_timeout :
    ¬(run (step onePair) init timedOutRun).NoStray (.land ⟨0, onlyRank, .kv 0 true 0⟩) ∧
      ¬(run (step onePair) init timedOutRun).NoStray (.land ⟨0, onlyRank, .c4 0 true 0⟩) ∧
      ¬(run (step onePair) init timedOutRun).NoStray (.land ⟨0, onlyRank, .state⟩) := by
  decide +kernel

end PdServer

end FlashMemory
