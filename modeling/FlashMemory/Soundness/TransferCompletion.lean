import FlashMemory.Model.Transfer
import FlashMemory.Collections.Run
import Mathlib.Data.Finset.Range

/-! # When a room may start decoding

The status counts the device transfers chunk by chunk, but keeps one flag for all mirror transfers of
the room, which the first notification sets. So a finished status shows that some mirror transfer
landed. That is all of them exactly when the prompt is sent in one chunk: with more chunks, the other
mirror transfers may still be under way when everything else has been delivered.
-/

namespace FlashMemory

open List

/-- Whenever the status is done without failure, the whole mirror has landed. -/
def MirrorBeforeDecode (plan : RoomPlan) : Prop :=
  ∀ events : List RoomEvent, let room := run (Room.step plan) (Room.init plan) events
    room.status.isDone = true → room.status.isFailure = false → room.status.expectsC4 = true →
      ∀ chunkId < plan.chunks, room.C4Landed plan chunkId

namespace Room

variable {plan : RoomPlan} {room : Room}

/-! ## What a received flag shows -/

theorem mem_posted {notif : Notif} :
    notif ∈ room.posted plan ↔ ∃ chunkId < room.sent, notif ∈ addTransferRequest plan chunkId := by
  simp only [posted, mem_flatMap, mem_range]

private theorem c4_of_mem {chunkId other ppRank : ℕ} {isLast : Bool}
    (mem : .c4 other isLast ppRank ∈ addTransferRequest plan chunkId) :
    Notif.c4 other isLast ppRank = .c4 chunkId (decide (chunkId + 1 = plan.chunks)) plan.ppRank := by
  simp only [addTransferRequest, mem_append, mem_cons, not_mem_nil, or_false] at mem
  rcases mem with (kv | c4) | tail
  · contradiction
  · exact c4
  · split_ifs at tail <;> simp at tail

/-- Landed transfers were posted, and a received mirror notification has its transfer. -/
structure Honest (plan : RoomPlan) (room : Room) : Prop where
  bounded : room.sent ≤ plan.chunks
  genuine : ∀ notif ∈ room.landed, ∃ chunkId < plan.chunks, notif ∈ addTransferRequest plan chunkId
  received : room.status.receivedC4 = true → ∃ chunkId < plan.chunks, room.C4Landed plan chunkId

theorem Honest.init (plan : RoomPlan) : Honest plan (Room.init plan) :=
  ⟨Nat.zero_le _, fun _ mem => by contradiction, fun received => by contradiction⟩

theorem Honest.deliver (honest : Honest plan room) {notif : Notif} (landed : notif ∈ room.landed)
    (received : (room.status.update plan.required notif).receivedC4 = true) :
    ∃ chunkId < plan.chunks, room.C4Landed plan chunkId := by
  cases notif with
  | kv chunkId isLast ppRank =>
    refine honest.received ?_
    simp only [TransferStatus.update] at received
    split_ifs at received <;> exact received
  | c4 chunkId isLast ppRank =>
    obtain ⟨posted, below, mem⟩ := honest.genuine _ landed
    rw [c4_of_mem mem] at landed
    exact ⟨posted, below, landed⟩
  | aux => exact honest.received received
  | state => exact honest.received received

theorem Honest.next (honest : Honest plan room) (event : RoomEvent) : Honest plan (room.step plan event) := by
  cases event with
  | send => exact ⟨Nat.min_le_right .., honest.genuine, honest.received⟩
  | land notif =>
    simp only [step]
    split_ifs with posted
    · obtain ⟨chunkId, below, mem⟩ := mem_posted.mp posted
      refine ⟨honest.bounded, forall_mem_cons.mpr ⟨?_, honest.genuine⟩, fun received => ?_⟩
      · exact ⟨chunkId, Nat.lt_of_lt_of_le below honest.bounded, mem⟩
      · obtain ⟨chunkId, below, landed⟩ := honest.received received
        exact ⟨chunkId, below, mem_cons_of_mem _ landed⟩
    · exact honest
  | deliver notif =>
    simp only [step]
    split_ifs with landed
    · exact ⟨honest.bounded, honest.genuine, honest.deliver landed⟩
    · exact honest
  | fail =>
    simp only [step]
    split_ifs
    · exact honest
    · exact ⟨honest.bounded, honest.genuine, honest.received⟩

private theorem receivedC4_of_isDone {status : TransferStatus} (done : status.isDone = true)
    (ok : status.isFailure = false) (expects : status.expectsC4 = true) : status.receivedC4 = true := by
  unfold TransferStatus.isDone at done
  cases ranks : status.numPpRanksExpected with
  | none => simp [ok, ranks] at done
  | some count => simp_all

/-- One chunk has one mirror transfer, and the flag is its flag. -/
theorem mirrorBeforeDecode_of_single (single : plan.chunks = 1) : MirrorBeforeDecode plan := by
  intro events room done ok expects chunkId below
  have honest : Honest plan room :=
    (along_of_forall (fun _ _ => trivial)).invariant (Honest.init plan) fun _ event honest _ => honest.next event
  obtain ⟨other, otherBelow, landed⟩ := honest.received (receivedC4_of_isDone done ok expects)
  obtain rfl : chunkId = other := by omega
  exact landed

/-! ## An early start -/

/-- Land and deliver one transfer after the other. -/
def complete (notifs : List Notif) : List RoomEvent :=
  notifs.flatMap fun notif => [.land notif, .deliver notif]

private theorem run_complete {notifs : List Notif} (posted : ∀ notif ∈ notifs, notif ∈ room.posted plan) :
    run (step plan) room (complete notifs) =
      ⟨room.sent, notifs.reverse ++ room.landed, notifs.foldl (·.update plan.required) room.status⟩ := by
  induction notifs generalizing room with
  | nil => rfl
  | cons notif rest ih =>
    have here := posted notif (mem_cons_self ..)
    have delivered : run (step plan) room [.land notif, .deliver notif] =
        ⟨room.sent, notif :: room.landed, room.status.update plan.required notif⟩ := by
      simp [run, step, here]
    rw [complete, flatMap_cons, run_append, delivered, ← complete, ih]
    · simp
    · exact (forall_mem_cons.mp posted).2

private theorem run_send (plan : RoomPlan) (count : ℕ) : run (step plan) (Room.init plan) (List.replicate count .send) =
    { Room.init plan with sent := min count plan.chunks } := by
  induction count with
  | zero => simp [run, Room.init]
  | succ count ih =>
    rw [replicate_succ', run_append, ih]
    simp only [run, foldl_cons, foldl_nil, step, Room.init]
    congr 1
    omega

def kvNotif (plan : RoomPlan) (chunkId : ℕ) : Notif :=
  .kv chunkId (decide (chunkId + 1 = plan.chunks)) plan.ppRank

/-- The device notifications before the last one are collected and nothing else. -/
private theorem foldl_kv {last count : ℕ} (chunks : plan.chunks = last + 1) (early : count ≤ last)
    (status : TransferStatus) (fresh : status.receivedKvsPerPp = fun _ => ∅) :
    ((List.range count).map (kvNotif plan)).foldl (·.update plan.required) status =
      { status with receivedKvsPerPp := Function.update (fun _ => ∅) plan.ppRank (Finset.range count) } := by
  induction count with
  | zero =>
    cases status
    subst fresh
    simp
  | succ count ih =>
    have notLast : ¬ count + 1 = plan.chunks := by omega
    rw [range_succ, map_append, foldl_append, ih (by omega)]
    simp [kvNotif, TransferStatus.update, notLast, Finset.range_add_one]

/-- Everything but the mirror transfers after the first. -/
def earlyNotifs (plan : RoomPlan) : List Notif :=
  (List.range plan.chunks).map (kvNotif plan) ++ [.c4 0 (decide (0 + 1 = plan.chunks)) plan.ppRank, .aux] ++
    if plan.sendsState then [.state] else []

private theorem earlyNotifs_posted (some : 0 < plan.chunks) :
    ∀ notif ∈ earlyNotifs plan, ∃ chunkId < plan.chunks, notif ∈ addTransferRequest plan chunkId := by
  simp only [earlyNotifs, forall_mem_append, forall_mem_cons, forall_mem_map,
    mem_range]
  refine ⟨⟨fun chunkId below => ⟨chunkId, below, mem_cons_self ..⟩, ⟨0, some, ?_⟩,
    ⟨plan.chunks - 1, by omega, ?_⟩, forall_mem_nil _⟩, ?_⟩
  · simp [addTransferRequest]
  · simp [addTransferRequest, Nat.sub_add_cancel some]
  · intro notif mem
    split_ifs at mem with sends
    · obtain rfl := mem_singleton.mp mem
      exact ⟨plan.chunks - 1, by omega, by simp [addTransferRequest, Nat.sub_add_cancel some, sends]⟩
    · contradiction

/-- They are all that the status waits for. -/
private theorem isDone_early (some : 0 < plan.chunks) (alone : plan.required.getD 1 = 1)
    (states : plan.expectsState = true → plan.sendsState = true) :
    let status := (earlyNotifs plan).foldl (·.update plan.required) (Room.init plan).status
    status.isDone = true ∧ status.isFailure = false ∧ status.expectsC4 = plan.expectsC4 := by
  obtain ⟨last, chunks⟩ := Nat.exists_eq_succ_of_ne_zero some.ne'
  have isLast : kvNotif plan last = .kv last true plan.ppRank := by simp [kvNotif, chunks]
  have collected := foldl_kv chunks (Nat.le_refl last) (Room.init plan).status rfl
  simp only [earlyNotifs, chunks, range_succ, map_append, foldl_append, collected,
    map_cons, map_nil, foldl_cons, foldl_nil, isLast]
  have card : (Insert.insert last (Finset.range last)).card = last + 1 := by
    rw [← Finset.range_add_one, Finset.card_range]
  have single : ((OrderedDict.empty : OrderedDict ℕ ℕ).set plan.ppRank (last + 1)).entries =
      [(plan.ppRank, last + 1)] := rfl
  cases sends : plan.sendsState with
  | true =>
    simp [TransferStatus.update, Room.init, TransferStatus.init, TransferStatus.isDone, alone, single, card]
  | false =>
    have noState : plan.expectsState = false := Bool.eq_false_iff.mpr fun expects => by
      simp [states expects] at sends
    simp [TransferStatus.update, Room.init, TransferStatus.init, TransferStatus.isDone, alone, single, card,
      noState]

end Room

/-- Decoding never starts before the mirror is complete exactly when the prompt is sent as one chunk. -/
theorem mirror_before_decode_iff_single_chunk (plan : RoomPlan) (some : 0 < plan.chunks)
    (expects : plan.expectsC4 = true) (alone : plan.required.getD 1 = 1)
    (states : plan.expectsState = true → plan.sendsState = true) :
    MirrorBeforeDecode plan ↔ plan.chunks = 1 := by
  refine ⟨fun safe => ?_, Room.mirrorBeforeDecode_of_single⟩
  by_contra several
  have sent := Room.run_send plan plan.chunks
  obtain ⟨done, ok, waits⟩ := Room.isDone_early some alone states
  have posted : ∀ notif ∈ Room.earlyNotifs plan,
      notif ∈ ({ Room.init plan with sent := min plan.chunks plan.chunks } : Room).posted plan :=
    fun notif member => Room.mem_posted.mpr (by simpa using Room.earlyNotifs_posted some notif member)
  have final := safe (List.replicate plan.chunks .send ++ Room.complete (Room.earlyNotifs plan))
  rw [run_append, sent, Room.run_complete posted] at final
  have landed := final done ok (waits.trans expects) 1 (by omega)
  simp [Room.C4Landed, Room.earlyNotifs, Room.kvNotif, Room.init] at landed

theorem mirror_before_decode_of_one_chunk : MirrorBeforeDecode ⟨1, 0, true, true, true, none⟩ :=
  (mirror_before_decode_iff_single_chunk _ Nat.one_pos rfl rfl fun _ => rfl).mpr rfl

/-- Two chunks: the first mirror notification arrives, the second mirror transfer is still under way,
and the status is done. -/
theorem decode_before_second_mirror_chunk :
    let plan : RoomPlan := ⟨2, 0, true, true, true, none⟩
    let room := run (Room.step plan) (Room.init plan) ([.send, .send] ++ Room.complete
      [.kv 0 false 0, .c4 0 false 0, .kv 1 true 0, .aux, .state])
    room.status.isDone = true ∧ room.status.isFailure = false ∧ room.status.expectsC4 = true ∧
      ¬ room.C4Landed plan 1 := by
  decide

end FlashMemory
