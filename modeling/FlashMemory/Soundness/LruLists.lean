import FlashMemory.Model.LruList

/-! # The pointers follow the sequence

Every operation of `LRUList` that its caller may make keeps the pointers those of the sequence of nodes, and the walks
towards the head find what a search in the sequence finds.
-/

namespace FlashMemory

open List

namespace LinkedList

open RadixCache

variable {list : LinkedList ℕ} {items : List ℕ} {node : ℕ} {before after : List ℕ}

theorem filter_ne_append (nodup : (before ++ node :: after).Nodup) :
    (before ++ node :: after).filter (· ≠ node) = before ++ after := by
  obtain ⟨_, _, apart⟩ := nodup_append.mp nodup
  have left : ∀ other ∈ before, other ≠ node := fun other mem => apart other mem node (mem_cons_self ..)
  have right : ∀ other ∈ after, other ≠ node := fun other mem same =>
    (nodup_cons.mp (nodup_append.mp nodup).2.1).1 (same ▸ mem)
  rw [filter_append, filter_cons_of_neg (by simp), filter_eq_self.mpr (by simpa using left),
    filter_eq_self.mpr (by simpa using right)]

section

variable (represents : list.Represents items)
include represents

theorem Represents.insertMru (fresh : node ∉ items) :
    (list.insertMru node).Represents (RadixCache.insertMru items node) := by
  have same : items.filter (· ≠ node) = items :=
    filter_eq_self.mpr fun other mem => by simpa using fun equal : other = node => fresh (equal ▸ mem)
  have nodup : (node :: items).Nodup := nodup_cons.mpr ⟨fresh, represents.nodup⟩
  rw [RadixCache.insertMru, same]
  exact .of_chain (@chain_addAfter _ _ list node [] items nodup represents.chain) nodup (represents.members.cons node)

theorem Represents.removeNode (mem : node ∈ items) :
    (list.removeNode node).Represents (items.filter (· ≠ node)) := by
  obtain ⟨before, after, rfl⟩ := append_of_mem mem
  have nodup := represents.nodup
  refine .of_chain ?_ (nodup.filter _) (represents.members.filter _)
  rw [filter_ne_append nodup]
  exact chain_unlink nodup represents.chain

theorem Represents.resetNodeMru (mem : node ∈ items) :
    (list.resetNodeMru node).Represents (RadixCache.insertMru items node) := by
  obtain ⟨before, after, rfl⟩ := append_of_mem mem
  have nodup := represents.nodup
  have moved : (node :: (before ++ after)).Nodup := (perm_middle.nodup_iff).mp nodup
  rw [RadixCache.insertMru, filter_ne_append nodup]
  have unlinked := chain_unlink nodup represents.chain
  exact ⟨@chain_addAfter _ _ _ node [] _ moved unlinked, moved,
    represents.members.trans perm_middle⟩

end

/-- The loop has moved the nodes `done` to the front and goes on behind them. -/
theorem Represents.resetLoop {done path rest : List ℕ} (represents : list.Represents (done ++ rest))
    (within : path ⊆ rest) (distinct : path.Nodup) :
    (list.resetLoop (endOf done) path).Represents (done ++ path ++ rest.filter (· ∉ path)) := by
  induction path generalizing list done rest with
  | nil => simpa [LinkedList.resetLoop] using represents
  | cons node above ih =>
    obtain ⟨apart, distinct⟩ := nodup_cons.mp distinct
    obtain ⟨before, after, rfl⟩ := append_of_mem (within (mem_cons_self ..))
    have nodup := represents.nodup
    have split : done ++ (before ++ node :: after) = (done ++ before) ++ node :: after := (append_assoc ..).symm
    have moved : (done ++ node :: (before ++ after)).Nodup :=
      ((perm_middle.append_left done).nodup_iff).mp nodup
    have unlinked := chain_unlink (split ▸ nodup) (split ▸ represents.chain)
    rw [append_assoc] at unlinked
    have next : ((list.unlink (.entry node)).addAfter (endOf done) (.entry node)).Represents
        ((done ++ [node]) ++ (before ++ after)) := by
      rw [append_assoc, singleton_append]
      exact ⟨chain_addAfter moved unlinked, moved, represents.members.trans (perm_middle.append_left done)⟩
    have within' : above ⊆ before ++ after := by
      intro other mem
      have inside := within (mem_cons_of_mem _ mem)
      have other_ne : other ≠ node := fun same => apart (same ▸ mem)
      simpa [other_ne] using inside
    have result := ih next within' distinct
    rw [endOf_concat] at result
    have kept : (before ++ node :: after).filter (· ∉ node :: above) = (before ++ after).filter (· ∉ above) := by
      have inner := filter_ne_append (nodup_append.mp nodup).2.1
      rw [← inner, filter_filter]
      refine filter_congr fun other _ => ?_
      by_cases same : other = node <;> simp [same]
    rw [LinkedList.resetLoop, kept]
    simpa using result

theorem Represents.resetNodeAndParentsMru {path : List ℕ} (represents : list.Represents items) (within : path ⊆ items)
    (distinct : path.Nodup) :
    (list.resetNodeAndParentsMru path).Represents (path ++ items.filter (· ∉ path)) := by
  have started : list.Represents ([] ++ items) := represents
  exact started.resetLoop within distinct

/-! ## Walking towards the head -/

/-- The link before another one. -/
theorem Represents.prev_eq (represents : list.Represents (before ++ node :: after)) :
    list.prev (.entry node) = endOf before := by
  obtain ⟨front, last, back, _, within⟩ := links_around before after
  have chain := represents.chain
  rw [within] at chain
  exact (isChain_append_cons_cons.mp chain).2.1.2

theorem Represents.prev_tail (represents : list.Represents items) : list.prev .tail = endOf items := by
  obtain ⟨front, ends⟩ := exists_front items
  have chain := represents.chain
  rw [links, ends, append_assoc] at chain
  exact (isChain_append_cons_cons.mp chain).2.1.2

variable {free : ℕ → Bool}

/-- A walk that starts behind these nodes finds the last of them that may be taken. -/
theorem Represents.getPrev_eq {fuel : ℕ} {link : Link ℕ}
    (represents : list.Represents (before ++ after)) (starts : list.prev link = endOf before)
    (enough : before.length < fuel) : list.getPrev free fuel link = before.reverse.find? free := by
  induction before using List.reverseRecOn generalizing fuel link after with
  | nil =>
    cases fuel with
    | zero => exact absurd enough (Nat.not_lt_zero _)
    | succ fuel => rw [LinkedList.getPrev, starts]; rfl
  | append_singleton before last ih =>
    cases fuel with
    | zero => exact absurd enough (Nat.not_lt_zero _)
    | succ fuel =>
      rw [append_assoc] at represents
      rw [length_append, length_singleton] at enough
      rw [LinkedList.getPrev, starts, endOf_concat, reverse_append, reverse_singleton, singleton_append,
        find?_cons]
      dsimp only
      cases taken : free last with
      | true => rfl
      | false => exact ih represents represents.prev_eq (Nat.lt_of_succ_lt_succ enough)

/-- `get_prev_no_lock`. -/
theorem Represents.prevOf_eq (represents : list.Represents items) (mem : node ∈ items) :
    list.getPrev free (items.length + 1) (.entry node) = prevOf items free node := by
  obtain ⟨before, after, rfl⟩ := append_of_mem mem
  have apart : node ∉ before := fun earlier =>
    (nodup_append.mp represents.nodup).2.2 node earlier node (mem_cons_self ..) rfl
  have taken : (before ++ node :: after).takeWhile (· ≠ node) = before := by
    rw [takeWhile_append_of_pos (by simpa using fun other mem => ne_of_mem_of_not_mem mem apart)]
    simp
  rw [prevOf, taken]
  refine represents.getPrev_eq represents.prev_eq ?_
  rw [length_append]
  omega

/-- `get_lru_no_lock`. -/
theorem Represents.lruOf_eq (represents : list.Represents items) :
    list.getPrev free (items.length + 1) .tail = lruOf items free := by
  have whole : list.Represents (items ++ []) := (append_nil items).symm ▸ represents
  exact whole.getPrev_eq represents.prev_tail (Nat.lt_succ_self _)

end LinkedList

end FlashMemory
