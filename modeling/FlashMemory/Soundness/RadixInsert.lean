import FlashMemory.Soundness.RadixMatch

/-! # Inserting a key

`insert` goes down along its key like a match. Up to `update_kv_after_len` it leaves the nodes alone. Beyond it every
slot of the insertion is used up: it becomes the slot of a new node or of a tombstone that gets new slots, or it is
freed. Where this begins is a node boundary, which lies at or beyond the end of every node in the tree that
spells a prefix of the key and ends at or before `update_kv_after_len`. Slots before `swa_evicted_seqlen` do not get
into living nodes.
-/

namespace FlashMemory

open List RadixCache

variable {τ : Type} [DecidableEq τ] {cfg : RadixConfig}

/-- A key agrees to its end with a key that it is a prefix of. -/
private theorem keyMatchLoop_eq_length {pageSize fuel : ℕ} {key0 key1 : List τ} (positive : 0 < pageSize)
    (aligned : pageSize ∣ key0.length) (enough : key0.length ≤ fuel) (initial : key0 = key1.take key0.length) :
    keyMatchLoop pageSize fuel key0 key1 = key0.length := by
  induction fuel generalizing key0 key1 with
  | zero => rw [keyMatchLoop, Nat.le_zero.mp enough]
  | succ fuel ih =>
    rw [keyMatchLoop]
    by_cases empty : key0 = []
    · rw [if_neg fun agree => agree.1 empty, empty, length_nil]
    · have page : pageSize ≤ key0.length := Nat.le_of_dvd (length_pos_iff.mpr empty) aligned
      have first : key0.take pageSize = key1.take pageSize := by
        rw [initial, take_take, min_eq_left (by simpa using page)]
      have nonempty : key1 ≠ [] := by
        rintro rfl
        exact empty (initial.trans take_nil)
      have rest := @ih (key0.drop pageSize) (key1.drop pageSize)
        (by rw [length_drop]; exact Nat.dvd_sub aligned (Nat.dvd_refl _))
        (by rw [length_drop]; omega)
        (by rw [length_drop, ← drop_take, ← initial])
      rw [if_pos ⟨empty, nonempty, first⟩, rest, length_drop]
      omega

theorem keyMatch_eq_length {key0 key1 : List τ} (aligned : cfg.pageSize ∣ key0.length)
    (initial : key0 = key1.take key0.length) : keyMatch cfg key0 key1 = key0.length := by
  refine keyMatchLoop_eq_length cfg.pageSize_pos aligned (le_min le_rfl ?_) initial
  rw [initial, length_take]
  exact (min_le_right ..)

section Insert

variable {cache cache' cache'' : RadixCache τ} {pos pos' : ℕ → ℕ} {node child next target after evicted skip m : ℕ}
  {key : List τ} {value pending : List ℕ} {fails : RadixCache τ → Prop}

/-- Every living slot was living before, or is one of these. -/
def Refills (cache cache' : RadixCache τ) (slots : List ℕ) : Prop :=
  ∀ slot, cache'.Alive slot → cache.Alive slot ∨ slot ∈ slots

omit [DecidableEq τ] in
theorem Refills.trans {slots slots' : List ℕ} (first : Refills cache cache' slots)
    (second : Refills cache' cache'' slots') (inside : slots' ⊆ slots) : Refills cache cache'' slots := by
  intro slot alive
  rcases second slot alive with alive | fresh
  · exact first slot alive
  · exact .inr (inside fresh)

theorem Refills.of_edits {slots : List ℕ} (shape : Shape cfg cache pos)
    (edits : Edits cfg (cache, slots) (cache', pending)) : Refills cache cache' slots :=
  fun _ alive => edits.alive shape (.inl alive)

/-- One round of the descent, from a node to the next one, which ends `m` tokens further on. -/
structure Round (cfg : RadixConfig) (after evicted : ℕ) (key : List τ) (cache : RadixCache τ) (pos : ℕ → ℕ) (node : ℕ)
    (value : List ℕ) (m next : ℕ) (cache' : RadixCache τ) (pos' : ℕ → ℕ) : Prop where
  positive : 0 < m
  aligned : cfg.pageSize ∣ m
  remaining : m ≤ key.length - pos node
  skipped : pos node + m ≤ after → ∀ pending, Edits cfg (cache, pending) (cache', pending)
  used : after < pos node + m → Edits cfg (cache, value) (cache', value.drop m)
  shape : Shape cfg cache' pos'
  member : next ∈ cache'.fullLru
  position : pos' next = pos node + m
  onward : ∀ target, Beyond cache pos key node target → target ≠ node → pos target ≤ after →
    pos node + m ≤ after ∧ Beyond cache' pos' key next target ∧ pos' target = pos target
  refills : Refills cache cache' (value.drop (evicted - pos node))

/-- An insertion has gone down from a node: it has skipped some slots, and used up others. -/
structure Passed (cfg : RadixConfig) (after : ℕ) (key : List τ) (cache : RadixCache τ) (pos : ℕ → ℕ) (node : ℕ)
    (value : List ℕ) (skip : ℕ) (cache' : RadixCache τ) (pending : List ℕ) : Prop where
  aligned : cfg.pageSize ∣ skip
  early : skip = 0 ∨ pos node + skip ≤ after
  edits : Edits cfg (cache, value.drop skip) (cache', pending)
  reaches : ∀ target, Beyond cache pos key node target → pos target ≤ after → pos target ≤ pos node + skip

namespace Passed

/-- The descent ends where the key does, or where it leaves the tree. -/
theorem stop (shape : Shape cfg cache pos) (stuck : Stuck cfg cache pos key node) :
    Passed cfg after key cache pos node value 0 cache value where
  aligned := Nat.dvd_zero _
  early := .inl rfl
  edits := .refl
  reaches := fun target beyond _ => by
    rw [beyond.eq_of_stuck shape stuck, Nat.add_zero]

/-- One round of the descent, and what follows it. -/
theorem cons {cache₁ : RadixCache τ} {pos₁ : ℕ → ℕ}
    (round : Round cfg after evicted key cache pos node value m next cache₁ pos₁)
    (rest : Passed cfg after key cache₁ pos₁ next (value.drop m) skip cache' pending) :
    Passed cfg after key cache pos node value (if pos node + m ≤ after then m + skip else 0) cache' pending := by
  have position := round.position
  by_cases before : pos node + m ≤ after
  · rw [if_pos before]
    refine ⟨Nat.dvd_add round.aligned rest.aligned, ?_, ?_, fun target beyond early => ?_⟩
    · rcases rest.early with zero | early
      · exact .inr (by omega)
      · exact .inr (by omega)
    · refine (round.skipped before _).trans ?_
      rw [← drop_drop]
      exact rest.edits
    · by_cases further : target = node
      · rw [further]
        omega
      · obtain ⟨_, beyond', same⟩ := round.onward target beyond further early
        have := rest.reaches target beyond' (by omega)
        omega
  · rw [if_neg before]
    have zero : skip = 0 := by
      rcases rest.early with zero | early
      · exact zero
      · omega
    refine ⟨Nat.dvd_zero _, .inl rfl, ?_, fun target beyond early => ?_⟩
    · refine (round.used (not_le.mp before)).trans ?_
      rw [zero] at rest
      exact rest.edits
    · by_cases further : target = node
      · rw [further, Nat.add_zero]
      · exact absurd (round.onward target beyond further early).1 before

end Passed

/-! ## One round -/

omit [DecidableEq τ] in
/-- The first pages of the pending slots are taken. -/
theorem RadixCache.Taken.take (aligned : cfg.pageSize ∣ m) (room : m ≤ value.length) :
    Taken cfg value (value.take m) (value.drop m) := by
  refine ⟨[], value.drop m, ?_, rfl, Nat.dvd_zero _, ?_⟩
  · rw [nil_append, take_append_drop]
  · rwa [length_take, min_eq_left room]

/-- What a round does at its node: nothing, or it uses up the slots. -/
structure Updated (cfg : RadixConfig) (after evicted total m node : ℕ) (value : List ℕ) (cache : RadixCache τ)
    (pos : ℕ → ℕ) (cache' : RadixCache τ) (pos' : ℕ → ℕ) : Prop where
  skipped : total + m ≤ after → cache' = cache ∧ pos' = pos
  used : after < total + m → Edits cfg (cache, value) (cache', value.drop m)
  shape : Shape cfg cache' pos'
  member : node ∈ cache'.fullLru
  here : pos' node = pos node
  refills : Refills cache cache' (value.drop (evicted - total))

private theorem insertMru_perm {lru : List ℕ} (mem : node ∈ lru) (nodup : lru.Nodup) :
    (insertMru lru node).Perm lru := by
  refine (perm_ext_iff_of_nodup (insertMru_nodup nodup) nodup).mpr fun entry => ?_
  rw [mem_insertMru]
  exact ⟨fun either => either.elim (fun same => same ▸ mem) id, .inr⟩

section

variable (shape : Shape cfg cache pos) (mem : node ∈ cache.fullLru)

include shape mem

/-- Part of the node gets new slots and the slots for the rest are freed. -/
private theorem updated_split {total : ℕ} (dead : (cache.nodes node).swaTombstone = true)
    (length : (cache.nodes node).key.length = m) (room : m ≤ value.length) (aligned : cfg.pageSize ∣ m)
    (splits : Splits cfg cache node (evicted - total)) (beyond : after < total + m) :
    Updated cfg after evicted total m node value cache pos
      (((cache.split cfg node (evicted - total)).revive cfg node ((value.take m).drop (evicted - total))).free cfg
        (value.take (evicted - total)))
      (splitPos cache pos node (evicted - total)) := by
  generalize startIs : evicted - total = start at splits ⊢
  have isChild := shape.split_child splits
  have shape' := shape.split splits
  have mem' : node ∈ (cache.split cfg node start).fullLru := (mem_fullLru_split mem).mpr (.inr mem)
  have short := splits.short
  have valueLength := shape.valueLength node mem
  have sizes : ((value.take m).drop start).length = ((cache.split cfg node start).nodes node).value.length := by
    rw [isChild, length_drop, length_drop, length_take, min_eq_left room, valueLength, length]
  -- the slots of the upper part stay, those of the lower part are taken from the middle
  have first : Taken cfg value ((value.take m).drop start) (value.take start ++ value.drop m) := by
    refine ⟨value.take start, value.drop m, ?_, rfl, ?_, ?_⟩
    · have pieces := take_append_drop start (value.take m)
      rw [take_take, min_eq_left (by omega)] at pieces
      rw [pieces, take_append_drop]
    · rw [length_take, min_eq_left (by omega)]
      exact splits.aligned
    · rw [length_drop, length_take, min_eq_left room]
      exact Nat.dvd_sub aligned splits.aligned
  have second : Taken cfg (value.take start ++ value.drop m) (value.take start) (value.drop m) := by
    refine ⟨[], value.drop m, by simp, rfl, Nat.dvd_zero _, ?_⟩
    rw [length_take, min_eq_left (by omega)]
    exact splits.aligned
  refine ⟨fun skipped => absurd skipped (not_le.mpr beyond), fun _ => ?_, ?_, ?_, shape.splitPos_inTree (.inr mem),
    fun slot alive => ?_⟩
  · have start : Edits cfg (cache, value) (cache.split cfg node start, value) := .single (.split splits)
    refine (start.tail (.revive mem' ?_ sizes first)).tail (.free second)
    rw [isChild]
    exact dead
  · exact (shape'.revive mem' sizes).free
  · rw [free_fullLru]
    exact sameTree_revive.mem.mpr mem'
  · refine alive.of_free.of_revive.imp (.of_split shape splits) fun inside => ?_
    rw [drop_take] at inside
    rw [startIs]
    exact mem_of_mem_take inside

theorem ensures_updateNode {total : ℕ} (length : (cache.nodes node).key.length = m) (room : m ≤ value.length)
    (aligned : cfg.pageSize ∣ m) (totalAligned : cfg.pageSize ∣ total) (evictedAligned : cfg.pageSize ∣ evicted) :
    Ensures (updateNode cfg after evicted total m node value) cache
      (fun _ cache' => ∃ pos', Updated cfg after evicted total m node value cache pos cache' pos')
      (fun cache' => cache' = cache ∧ after < total + m ∧ ¬cache.Sound) := by
  have freed : after < total + m →
      Updated cfg after evicted total m node value cache pos (cache.free cfg (value.take m)) pos := by
    refine fun beyond => ⟨fun skipped => absurd skipped (not_le.mpr beyond), fun _ => ?_, shape.free, ?_, rfl, ?_⟩
    · exact .single (.free (.take aligned room))
    · rwa [free_fullLru]
    · exact fun slot alive => .inl alive.of_free
  rw [updateNode, ensures_bind, ensures_get]
  dsimp only
  by_cases skipped : total + m ≤ after
  · rw [if_pos skipped]
    exact ⟨pos, fun _ => ⟨rfl, rfl⟩, fun beyond => absurd skipped (not_le.mpr beyond), shape, mem, rfl, fun _ => .inl⟩
  rw [if_neg skipped]
  have beyond := not_le.mp skipped
  by_cases dead : (cache.nodes node).swaTombstone = true
  · rw [if_pos dead, ensures_bind, assertThat, ensures_ensure]
    by_cases unlocked : (cache.nodes node).swaLockRef = 0
    · rw [if_pos unlocked, ensures_bind, ensures_assertThat (Nat.mod_eq_zero_of_dvd evictedAligned)]
      have outside : node ∉ cache.swaLru := fun alive => by
        have := ((shape.swaMember node).mp alive).2
        rw [dead] at this
        exact Bool.noConfusion this
      have sizes : (value.take m).length = (cache.nodes node).value.length := by
        rw [length_take, min_eq_left room, shape.valueLength node mem, length]
      split_ifs with early partly
      · rw [ensures_bind, ensures_assertThat outside, ensures_set]
        refine ⟨pos, fun skipped => absurd skipped (not_le.mpr beyond), fun _ => ?_, shape.revive mem sizes, ?_, rfl,
          fun slot alive => alive.of_revive.imp_right fun inside => ?_⟩
        · exact .single (.revive mem dead sizes (.take aligned room))
        · exact sameTree_revive.mem.mpr mem
        · rw [Nat.sub_eq_zero_of_le early, drop_zero]
          exact mem_of_mem_take inside
      · have splits : Splits cfg cache node (evicted - total) :=
          ⟨mem, by omega, by omega, Nat.dvd_sub evictedAligned totalAligned⟩
        have outside' : node ∉ (cache.split cfg node (evicted - total)).swaLru := fun alive => by
          have := (((shape.split splits).swaMember node).mp alive).2
          rw [shape.split_child splits] at this
          exact Bool.noConfusion (dead.symm.trans this)
        rw [ensures_bind]
        refine ensures_splitNode shape splits ?_
        rw [ensures_bind, ensures_get, ensures_bind, ensures_assertThat outside', ensures_set]
        exact ⟨_, updated_split shape mem dead length room aligned splits beyond⟩
      · exact ⟨pos, freed beyond⟩
    · rw [if_neg unlocked]
      exact ⟨rfl, beyond, fun sound => unlocked (sound node mem dead)⟩
  · rw [if_neg dead]
    exact ⟨pos, freed beyond⟩

private theorem ensures_resetNodeMru {post : Unit → RadixCache τ → Prop}
    (ensured : ∀ full swa fullLinks swaLinks, Reorders cache full swa fullLinks swaLinks →
      post () { cache with fullLru := full, swaLru := swa, fullLinks := fullLinks, swaLinks := swaLinks }) :
    Ensures (resetNodeMru node) cache post fails := by
  have alive : (cache.nodes node).swaTombstone = false → node ∈ cache.swaLru :=
    fun alive => (shape.swaMember node).mpr ⟨mem, alive⟩
  rw [resetNodeMru, ensures_bind, ensures_get]
  dsimp only
  rw [ensures_bind, ensures_assertThat ⟨mem, alive⟩, ensures_set]
  refine ensured _ _ _ _ ⟨insertMru_perm mem shape.nodup, ?_, fun represents => represents.resetNodeMru mem, ?_⟩ <;>
    split_ifs with dead
  · exact .refl _
  · exact insertMru_perm (alive (by simpa using dead)) shape.swaNodup
  · exact fun represents => represents
  · exact fun represents => represents.resetNodeMru (alive (by simpa using dead))

end

/-- The node that holds the part of the key that was found. -/
structure Located (cfg : RadixConfig) (child m : ℕ) (cache : RadixCache τ) (pos : ℕ → ℕ) (next : ℕ)
    (cache' : RadixCache τ) (pos' : ℕ → ℕ) : Prop where
  edits : ∀ pending, Edits cfg (cache, pending) (cache', pending)
  shape : Shape cfg cache' pos'
  member : next ∈ cache'.fullLru
  length : (cache'.nodes next).key.length = m
  position : pos' next = pos (cache.nodes child).parent + m
  whole : m = (cache.nodes child).key.length → next = child ∧ cache' = cache ∧ pos' = pos

private theorem ensures_splitIfPartial {rest : List τ} (shape : Shape cfg cache pos) (mem : child ∈ cache.fullLru)
    (agrees : Agrees cfg cache child rest m) :
    Ensures (splitIfPartial cfg child m) cache
      (fun next cache' => ∃ pos', Located cfg child m cache pos next cache' pos')
      fails := by
  rw [splitIfPartial, ensures_bind, ensures_get]
  split_ifs with short
  · have splits : Splits cfg cache child m := ⟨mem, agrees.pos, short, agrees.aligned⟩
    refine ensures_splitNode shape splits ⟨_, fun _ => .single (.split splits), shape.split splits,
      (mem_fullLru_split mem).mpr (.inl rfl), ?_, splitPos_counter, fun whole => absurd whole short.ne⟩
    rw [shape.split_counter splits, length_take,
      min_eq_left short.le]
  · have whole : m = (cache.nodes child).key.length := le_antisymm agrees.le (not_lt.mp short)
    exact ⟨pos, fun _ => .refl, shape, mem, whole.symm, whole ▸ shape.position child mem, fun _ => ⟨rfl, rfl, rfl⟩⟩

/-- Where the descent of an insertion stops. -/
structure Stopped (cfg : RadixConfig) (key : List τ) (cache : RadixCache τ) (pos : ℕ → ℕ)
    (progress : InsertProgress τ) : Prop where
  shape : Shape cfg cache pos
  inTree : cache.InTree progress.node
  position : pos progress.node = progress.totalPrefixLength
  within : progress.totalPrefixLength ≤ key.length
  rest : progress.key = key.drop progress.totalPrefixLength
  length : progress.value.length = progress.key.length
  ends : progress.key = [] ∨ (cache.nodes progress.node).children.get? (childKey cfg progress.key) = none

/-- What the rounds leave over of the slots. -/
theorem Round.length_rest (round : Round cfg after evicted key cache pos node value m next cache' pos')
    (length : value.length = (key.drop (pos node)).length) : (value.drop m).length = (key.drop (pos' next)).length := by
  rw [round.position, ← drop_drop, length_drop, length_drop, length]

section

variable (shape : Shape cfg cache pos) (inTree : cache.InTree node)
  (length : value.length = (key.drop (pos node)).length) (aligned : cfg.pageSize ∣ key.length)
  (evictedAligned : cfg.pageSize ∣ evicted)

include shape inTree length aligned evictedAligned

/-- The descent ends at the node, or it goes on after one round. -/
theorem ensures_insertLoop_succ {post : InsertProgress τ → RadixCache τ → Prop} {fuel : ℕ}
    (stops : key.drop (pos node) = [] ∨ (cache.nodes node).children.get? (childKey cfg (key.drop (pos node))) = none →
      post ⟨node, key.drop (pos node), value, pos node⟩ cache)
    (goes : ∀ m next cache' pos', Round cfg after evicted key cache pos node value m next cache' pos' →
      Ensures (insertLoop cfg after evicted fuel ⟨next, key.drop (pos' next), value.drop m, pos' next⟩) cache'
        post fails)
    (raises : ∀ cache', Passed cfg after key cache pos node value 0 cache' value → ¬cache.Sound → fails cache') :
    Ensures (insertLoop cfg after evicted (fuel + 1) ⟨node, key.drop (pos node), value, pos node⟩) cache post
      fails := by
  rw [insertLoop, ensures_bind, ensures_get]
  dsimp only
  cases found : if key.drop (pos node) = [] then none
      else (cache.nodes node).children.get? (childKey cfg (key.drop (pos node))) with
  | none =>
    apply stops
    split_ifs at found with done
    · exact .inl done
    · exact .inr found
  | some child =>
    split_ifs at found with done
    obtain ⟨mem, below, first⟩ := (shape.children node inTree _ _).mp found
    have restAligned : cfg.pageSize ∣ (key.drop (pos node)).length := by
      rw [length_drop]
      exact Nat.dvd_sub aligned (shape.dvd_pos inTree)
    have agrees := agrees_keyMatch shape mem done restAligned first
    -- a node further down that the key leads to is behind the whole child
    have through : ∀ target, Beyond cache pos key node target → target ≠ node → child ∈ cache.path target ∧
        keyMatch cfg (cache.nodes child).key (key.drop (pos node)) = (cache.nodes child).key.length := by
      intro target beyond further
      obtain ⟨entry, passed, there, spells⟩ := beyond.found shape further
      obtain rfl : entry = child := Option.some_inj.mp (there.symm.trans found)
      exact ⟨passed, keyMatch_eq_length (shape.aligned entry mem) spells⟩
    dsimp only
    generalize keyMatch cfg (cache.nodes child).key (key.drop (pos node)) = m at agrees through ⊢
    rw [ensures_bind]
    refine ensures_resetNodeMru shape mem fun full swa fullLinks swaLinks reorders => ?_
    have childPos := shape.position child mem
    rw [below] at childPos
    have room : m ≤ value.length := length ▸ agrees.le_rest
    have remaining := agrees.le_rest
    rw [length_drop] at remaining
    have touched : ∀ pending, Edits cfg (cache, pending)
        ({ cache with fullLru := full, swaLru := swa, fullLinks := fullLinks, swaLinks := swaLinks }, pending) :=
      fun pending => .single (.touch reorders)
    have mem' : child ∈ full := reorders.fullPerm.mem_iff.mpr mem
    rw [ensures_bind]
    refine (ensures_splitIfPartial (shape.touch reorders) mem'
      ⟨agrees.pos, agrees.aligned, agrees.le, agrees.le_rest, agrees.take, agrees.stops⟩).mono ?_ fun _ fails => fails
    rintro next cache₂ ⟨pos₂, located⟩
    have reached : ∀ pending, Edits cfg (cache, pending) (cache₂, pending) :=
      fun pending => (touched pending).trans (located.edits pending)
    rw [ensures_bind]
    refine (ensures_updateNode located.shape located.member located.length room agrees.aligned (shape.dvd_pos inTree)
      evictedAligned).mono ?_ ?_
    · rintro _ cache₃ ⟨pos₃, updated⟩
      have here : pos₃ next = pos node + m := updated.here.trans (below ▸ located.position)
      rw [drop_drop, ← here]
      refine goes m next cache₃ pos₃ ⟨agrees.pos, agrees.aligned, remaining, fun before pending => ?_, fun beyond => ?_,
        updated.shape, updated.member, here, fun target beyond further early => ?_, ?_⟩
      · rw [(updated.skipped before).1]
        exact reached pending
      · exact (reached value).trans (updated.used beyond)
      · obtain ⟨passed, whole⟩ := through target beyond further
        have low := shape.pos_le beyond.inTree passed
        have before : pos node + m ≤ after := by omega
        obtain ⟨rfl, rfl, rfl⟩ := located.whole whole
        obtain ⟨rfl, rfl⟩ := updated.skipped before
        have same := @sameTree_touch _ cache full swa fullLinks swaLinks reorders.fullPerm
        refine ⟨before, ⟨same.inTree.mpr beyond.inTree, .inr (.inr ?_), fun entry above => ?_⟩, rfl⟩
        · rw [same.path]
          exact passed
        · rw [same.path] at above
          exact beyond.spelled entry above
      · intro slot alive
        refine (updated.refills slot alive).imp_left fun alive => ?_
        exact (Refills.of_edits shape (reached []) slot alive).resolve_right not_mem_nil
    · rintro cache' ⟨rfl, beyond, unsound⟩
      refine raises _ ⟨Nat.dvd_zero _, .inl rfl, reached value, fun target here early => ?_⟩ fun sound => unsound ?_
      · by_cases further : target = node
        · rw [further, Nat.add_zero]
        · obtain ⟨passed, whole⟩ := through target here further
          have low := shape.pos_le here.inTree passed
          omega
      · exact (reached []).sound shape sound

theorem ensures_insertLoop (within : pos node ≤ key.length) (fuel : ℕ) (enough : key.length - pos node ≤ fuel) :
    Ensures (insertLoop cfg after evicted fuel ⟨node, key.drop (pos node), value, pos node⟩) cache
      (fun progress cache' => ∃ pos' skip, Stopped cfg key cache' pos' progress ∧
        Passed cfg after key cache pos node value skip cache' progress.value)
      (fun cache' => ∃ skip pending, Passed cfg after key cache pos node value skip cache' pending ∧ ¬cache.Sound) := by
  induction fuel generalizing cache pos node value with
  | zero =>
    have empty : key.drop (pos node) = [] := drop_eq_nil_of_le (by omega)
    exact ⟨pos, 0, ⟨shape, inTree, rfl, within, rfl, length, .inl empty⟩, .stop shape (.inl empty)⟩
  | succ fuel ih =>
    apply ensures_insertLoop_succ shape inTree length aligned evictedAligned
    · exact fun ends => ⟨pos, 0, ⟨shape, inTree, rfl, within, rfl, length, ends⟩, .stop shape ends⟩
    · intro m next cache₁ pos₁ round
      have position := round.position
      have remaining := round.remaining
      have positive := round.positive
      refine (ih round.shape (.inr round.member) (round.length_rest length) (by omega) (by omega)).mono ?_ ?_
      · rintro progress cache' ⟨pos', skip, stopped, passed⟩
        exact ⟨pos', _, stopped, .cons round passed⟩
      · rintro cache' ⟨skip, pending, passed, unsound⟩
        refine ⟨_, pending, .cons round passed, fun sound => unsound ?_⟩
        rcases Nat.lt_or_ge after (pos node + m) with beyond | before
        · exact (round.used beyond).sound shape sound
        · exact (round.skipped before []).sound shape sound
    · exact fun cache' passed unsound => ⟨0, value, passed, unsound⟩

/-- The descent brings slots behind the evicted part to life, and leaves the last ones. -/
theorem ensures_insertLoop_refills (fuel : ℕ) :
    Ensures (insertLoop cfg after evicted fuel ⟨node, key.drop (pos node), value, pos node⟩) cache
      (fun progress cache' => Refills cache cache' (value.drop (evicted - pos node)) ∧
        progress.value.drop (evicted - progress.totalPrefixLength) ⊆ value.drop (evicted - pos node))
      (fun _ => True) := by
  induction fuel generalizing cache pos node value with
  | zero => exact ⟨fun _ => .inl, List.Subset.refl _⟩
  | succ fuel ih =>
    apply ensures_insertLoop_succ shape inTree length aligned evictedAligned
    · exact fun _ => ⟨fun _ => .inl, List.Subset.refl _⟩
    · intro m next cache₁ pos₁ round
      have later : (value.drop m).drop (evicted - pos₁ next) ⊆ value.drop (evicted - pos node) := by
        rw [drop_drop, round.position]
        exact drop_subset_drop_left _ (by omega)
      refine (ih round.shape (.inr round.member) (round.length_rest length)).mono ?_ fun _ _ => trivial
      rintro progress cache' ⟨refills, rest⟩
      exact ⟨round.refills.trans refills later, List.Subset.trans rest later⟩
    · exact fun _ _ _ => trivial

end

/-! ## The rest of the key -/

section Rest

variable {progress : InsertProgress τ} {fails : RadixCache τ → Prop}

theorem ensures_addNewNode {post : ℕ → RadixCache τ → Prop} {dead : Bool} {parent : ℕ} (shape : Shape cfg cache pos)
    (adds : Adds cfg cache parent key value) (ensured : post cache.counter (cache.addNode cfg parent key value dead)) :
    Ensures (addNewNode cfg parent key value dead) cache post fails := by
  rw [addNewNode, ensures_bind, ensures_get]
  rw [ensures_bind, ensures_assertThat ⟨adds.nonempty, shape.counter_not_mem, fun _ => shape.counter_not_mem_swa⟩]
  exact ensured

private theorem ensures_maybeSplitLeafForSwaLock {leaf : ℕ} (pending : List ℕ) (shape : Shape cfg cache pos)
    (mem : leaf ∈ cache.fullLru) :
    Ensures (maybeSplitLeafForSwaLock cfg leaf) cache
      (fun _ cache' => ∃ pos', Shape cfg cache' pos' ∧ Edits cfg (cache, pending) (cache', pending)) fails := by
  have length := shape.valueLength leaf mem
  rw [maybeSplitLeafForSwaLock, ensures_bind, ensures_get]
  dsimp only
  split_ifs with small
  · exact ⟨pos, shape, .refl⟩
  · simp only [not_or, not_le, not_not] at small
    obtain ⟨_, _, _, long, splitAligned, _⟩ := small
    have tail : 0 < (cfg.slidingWindowSize + cfg.pageSize - 1) / cfg.pageSize * cfg.pageSize := by
      have := cfg.slidingWindowSize_pos
      exact Nat.mul_pos (Nat.div_pos (by omega) cfg.pageSize_pos) cfg.pageSize_pos
    have splits : Splits cfg cache leaf ((cache.nodes leaf).value.length -
        (cfg.slidingWindowSize + cfg.pageSize - 1) / cfg.pageSize * cfg.pageSize) :=
      ⟨mem, by omega, by omega, Nat.dvd_of_mod_eq_zero splitAligned⟩
    rw [ensures_bind]
    exact ensures_splitNode shape splits ⟨_, shape.split splits, .single (.split splits)⟩

/-- The leaf for the rest of the key. -/
private theorem ensures_newLeaf {parent : ℕ} (shape : Shape cfg cache pos) (adds : Adds cfg cache parent key value) :
    Ensures (do
      let newLeaf ← addNewNode cfg parent key value false
      if cfg.splitLeafOnInsert then maybeSplitLeafForSwaLock cfg newLeaf else pure ()) cache
      (fun _ cache' => ∃ pos', Shape cfg cache' pos' ∧ Edits cfg (cache, value) (cache', [])) fails := by
  have added : Edit cfg (cache, value) (cache.addNode cfg parent key value false, []) :=
    .add false adds ⟨[], [], by simp, rfl, Nat.dvd_zero _, adds.length ▸ adds.aligned⟩
  rw [ensures_bind]
  refine ensures_addNewNode shape adds ?_
  split_ifs
  · refine (ensures_maybeSplitLeafForSwaLock [] (shape.addNode adds) (mem_fullLru_addNode.mpr (.inl rfl))).mono ?_
      fun _ fails => fails
    rintro _ cache' ⟨pos', shape', edits⟩
    exact ⟨pos', shape', edits.head added⟩
  · exact ⟨_, shape.addNode adds, .single added⟩

private theorem ensures_insertRest (stopped : Stopped cfg key cache pos progress) (aligned : cfg.pageSize ∣ key.length)
    (evictedAligned : cfg.pageSize ∣ evicted) :
    Ensures (insertRest cfg evicted progress) cache
      (fun _ cache' => ∃ pos', Shape cfg cache' pos' ∧ Edits cfg (cache, progress.value) (cache', []) ∧
        (evicted ≤ key.length → Refills cache cache' (progress.value.drop (evicted - progress.totalPrefixLength))))
          fails := by
  have shape := stopped.shape
  have totalAligned : cfg.pageSize ∣ progress.totalPrefixLength := stopped.position ▸ shape.dvd_pos stopped.inTree
  have restAligned : cfg.pageSize ∣ progress.key.length := by
    rw [stopped.rest, length_drop]
    exact Nat.dvd_sub aligned totalAligned
  have length := stopped.length
  rw [insertRest]
  by_cases empty : progress.key = []
  · rw [if_pos empty]
    have none : progress.value = [] := length_eq_zero_iff.mp (by rw [length, empty, length_nil])
    rw [none]
    exact ⟨pos, shape, .refl, fun _ _ => .inl⟩
  rw [if_neg empty]
  have absent := stopped.ends.resolve_left empty
  have positive := length_pos_iff.mpr empty
  by_cases all : evicted = progress.totalPrefixLength + progress.key.length
  · rw [if_pos all, ensures_modify]
    exact ⟨pos, shape.free, .single (.free ⟨[], [], by simp, rfl, Nat.dvd_zero _, length ▸ restAligned⟩),
      fun _ _ alive => .inl alive.of_free⟩
  rw [if_neg all]
  dsimp only
  by_cases some : progress.totalPrefixLength < evicted ∧ evicted < progress.totalPrefixLength + progress.key.length
  · rw [if_pos some]
    obtain ⟨more, less⟩ := some
    have tombstoneAligned : cfg.pageSize ∣ evicted - progress.totalPrefixLength :=
      Nat.dvd_sub evictedAligned totalAligned
    have tombstonePos : 0 < evicted - progress.totalPrefixLength := by omega
    have tombstoneShort : evicted - progress.totalPrefixLength < progress.key.length := by omega
    generalize evicted - progress.totalPrefixLength = dead at tombstoneAligned tombstonePos tombstoneShort
    have adds : Adds cfg cache progress.node (progress.key.take dead) (progress.value.take dead) := by
      refine ⟨stopped.inTree, ?_, ?_, ?_, ?_⟩
      · rw [← length_pos_iff, length_take]
        omega
      · rw [length_take, min_eq_left tombstoneShort.le]
        exact tombstoneAligned
      · rw [length_take, length_take, length]
      · rw [childKey, take_take, min_eq_left (Nat.le_of_dvd tombstonePos tombstoneAligned)]
        exact absent
    have shape' : Shape cfg
        (cache.addNode cfg progress.node (progress.key.take dead) (progress.value.take dead) true) _ :=
      shape.addNode adds
    have adds' : Adds cfg (cache.addNode cfg progress.node (progress.key.take dead) (progress.value.take dead) true)
        cache.counter (progress.key.drop dead) (progress.value.drop dead) := by
      refine ⟨.inr (mem_fullLru_addNode.mpr (.inl rfl)), ?_, ?_, ?_, ?_⟩
      · rw [← length_pos_iff, length_drop]
        omega
      · rw [length_drop]
        exact Nat.dvd_sub restAligned tombstoneAligned
      · rw [length_drop, length_drop, length]
      · rw [addNode_counter (shape.ne_counter stopped.inTree), OrderedDict.get?_empty]
    rw [ensures_bind, addTombstone, if_pos tombstonePos]
    refine ensures_addNewNode shape adds ?_
    refine (ensures_newLeaf shape' adds').mono ?_ fun _ fails => fails
    rintro _ cache' ⟨pos', shape'', edits⟩
    refine ⟨pos', shape'', edits.head (.add true adds (.take tombstoneAligned (by omega))), fun _ slot alive => ?_⟩
    -- the first node of the two is a tombstone
    refine (Refills.of_edits shape' edits slot alive).imp_left fun alive => ?_
    exact (Alive.of_addNode shape stopped.inTree alive).resolve_right fun living => Bool.noConfusion living.1
  · rw [if_neg some, ensures_bind, addTombstone, if_neg (lt_irrefl 0)]
    refine (ensures_newLeaf shape ⟨stopped.inTree, empty, restAligned, length, absent⟩).mono ?_ fun _ fails => fails
    rintro _ cache' ⟨pos', shape', edits⟩
    refine ⟨pos', shape', edits, fun within => ?_⟩
    have whole : evicted - progress.totalPrefixLength = 0 := by
      have := congrArg List.length stopped.rest
      rw [length_drop] at this
      have := stopped.within
      omega
    rw [whole, drop_zero]
    exact .of_edits shape edits

end Rest

/-! ## The whole insertion -/

/-- `insert` uses up the slots beyond some node boundary. It raises only if a tombstone is locked. -/
theorem ensures_insert (shape : Shape cfg cache pos) (length : value.length = key.length)
    (aligned : cfg.pageSize ∣ key.length) (evictedAligned : cfg.pageSize ∣ evicted) :
    Ensures (insert cfg key value after evicted) cache
      (fun _ cache' => ∃ pos' skip, Shape cfg cache' pos' ∧
        Passed cfg after key cache pos rootNode value skip cache' [] ∧
        (evicted ≤ key.length → Refills cache cache' (value.drop evicted)))
      (fun cache' => ∃ skip pending, Passed cfg after key cache pos rootNode value skip cache' pending ∧
        ¬cache.Sound) := by
  have whole : value.length = (key.drop (pos rootNode)).length := by
    rw [shape.rootPos, drop_zero, length]
  have loop := @ensures_insertLoop _ _ cfg cache pos rootNode after evicted key value shape (.inl rfl) whole aligned
    evictedAligned (shape.rootPos.le.trans (Nat.zero_le _)) key.length (Nat.sub_le ..)
  have refills := @ensures_insertLoop_refills _ _ cfg cache pos rootNode after evicted key value shape
    (.inl rfl) whole aligned evictedAligned key.length
  rw [shape.rootPos, drop_zero] at loop refills
  rw [insert, ensures_bind]
  refine (loop.and refills).mono ?_ fun _ fails => fails.1
  rintro progress cache' ⟨⟨pos', skip, stopped, passed⟩, first, within⟩
  rw [ensures_bind]
  refine (ensures_insertRest stopped aligned evictedAligned).mono ?_ fun _ fails => fails
  rintro _ cache'' ⟨pos'', shape'', edits, second⟩
  exact ⟨pos'', skip, shape'', ⟨passed.aligned, passed.early, passed.edits.trans edits, passed.reaches⟩,
    fun short => first.trans (second short) within⟩

end Insert

end FlashMemory
