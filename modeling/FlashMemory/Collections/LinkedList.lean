import Mathlib.Data.List.Chain
import Mathlib.Data.List.Nodup
import Mathlib.Logic.Function.Basic

/-! # Doubly linked lists

The items of a doubly linked list point to their neighbours, between a head and a tail that are no items. A dictionary
tells which items the list holds. The two primitives change four pointers and two pointers; `Represents` says that the
pointers and the dictionary are those of a given sequence of items.
-/

namespace FlashMemory

open List Function

/-- An item of a linked list, or one of its ends. -/
inductive Link (ι : Type) where
  | head
  | entry (item : ι)
  | tail
deriving DecidableEq, Repr

structure LinkedList (ι : Type) where
  prev : Link ι → Link ι
  next : Link ι → Link ι
  /-- The keys of the dictionary. -/
  members : List ι

namespace LinkedList

variable {ι : Type} [DecidableEq ι] {list : LinkedList ι} {items : List ι} {item : ι}

def empty : LinkedList ι := ⟨fun _ => .head, fun _ => .tail, []⟩

/-- Put a link behind another one. -/
def addAfter (list : LinkedList ι) (old new : Link ι) : LinkedList ι :=
  { list with
    prev := Function.update (Function.update list.prev new old) (list.next old) new
    next := Function.update (Function.update list.next new (list.next old)) old new }

/-- Take a link out. Its own pointers stay as they are. -/
def unlink (list : LinkedList ι) (link : Link ι) : LinkedList ι :=
  { list with
    next := Function.update list.next (list.prev link) (list.next link)
    prev := Function.update list.prev (list.next link) (list.prev link) }

/-- Two neighbours point to each other. -/
def Joined (list : LinkedList ι) (first second : Link ι) : Prop := list.next first = second ∧ list.prev second = first

/-- The items between the two ends. -/
def links (items : List ι) : List (Link ι) := .head :: items.map .entry ++ [.tail]

structure Represents (list : LinkedList ι) (items : List ι) : Prop where
  chain : (links items).IsChain list.Joined
  nodup : items.Nodup
  members : list.members.Perm items

omit [DecidableEq ι] in
theorem links_nodup (nodup : items.Nodup) : (links items).Nodup := by
  have inner : (items.map Link.entry).Nodup := nodup.map fun _ _ same => Link.entry.inj same
  simp [links, nodup_append, inner]

omit [DecidableEq ι] in
theorem represents_empty : (empty : LinkedList ι).Represents [] :=
  ⟨.cons_cons ⟨rfl, rfl⟩ (.singleton _), nodup_nil, .refl _⟩

section Links

variable {front back : List (Link ι)} {first link last : Link ι}

omit [DecidableEq ι] in
/-- The pointers between links that a change spares. -/
theorem isChain_of_spared {list' : LinkedList ι} {part : List (Link ι)} (chain : part.IsChain list.Joined)
    (next : ∀ link ∈ part.dropLast, list'.next link = list.next link)
    (prev : ∀ link ∈ part.tail, list'.prev link = list.prev link) : part.IsChain list'.Joined := by
  induction chain with
  | nil => exact .nil
  | singleton => exact .singleton _
  | @cons_cons first second rest joined _ ih =>
    refine .cons_cons ⟨?_, ?_⟩ (ih (fun link mem => next link ?_) fun link mem => prev link ?_)
    · exact (next first (mem_cons_self ..)).trans joined.1
    · exact (prev second (mem_cons_self ..)).trans joined.2
    · exact mem_cons_of_mem _ mem
    · exact mem_cons_of_mem _ mem

variable (nodup : (front ++ first :: link :: last :: back).Nodup)
include nodup

theorem isChain_unlink (chain : (front ++ first :: link :: last :: back).IsChain list.Joined) :
    (front ++ first :: last :: back).IsChain (list.unlink link).Joined := by
  obtain ⟨left, joined, right⟩ := isChain_append_cons_cons.mp chain
  obtain ⟨joined', right⟩ := isChain_cons_cons.mp right
  have prev : list.prev link = first := joined.2
  have next : list.next link = last := joined'.1
  simp only [nodup_append, nodup_cons, mem_cons] at nodup
  refine isChain_append_cons_cons.mpr ⟨isChain_of_spared left ?_ ?_, ⟨?_, ?_⟩, isChain_of_spared right ?_ ?_⟩
  all_goals simp only [unlink, prev, next]
  · intro other mem
    rw [dropLast_concat] at mem
    exact update_of_ne (fun same => by grind) ..
  · intro other mem
    have mem := mem_of_mem_tail mem
    exact update_of_ne (fun same => by grind) ..
  · exact update_self ..
  · exact update_self ..
  · intro other mem
    have mem := dropLast_subset _ mem
    exact update_of_ne (fun same => by grind) ..
  · intro other mem
    exact update_of_ne (fun same => by grind) ..

theorem isChain_addAfter (chain : (front ++ first :: last :: back).IsChain list.Joined) :
    (front ++ first :: link :: last :: back).IsChain (list.addAfter first link).Joined := by
  obtain ⟨left, joined, right⟩ := isChain_append_cons_cons.mp chain
  have next : list.next first = last := joined.1
  simp only [nodup_append, nodup_cons, mem_cons] at nodup
  refine isChain_append_cons_cons.mpr ⟨isChain_of_spared left ?_ ?_, ⟨?_, ?_⟩,
    isChain_cons_cons.mpr ⟨⟨?_, ?_⟩, isChain_of_spared right ?_ ?_⟩⟩
  all_goals simp only [addAfter, next]
  · intro other mem
    rw [dropLast_concat] at mem
    rw [update_of_ne (fun same => by grind), update_of_ne (fun same => by grind)]
  · intro other mem
    have mem := mem_of_mem_tail mem
    rw [update_of_ne (fun same => by grind), update_of_ne (fun same => by grind)]
  · exact update_self ..
  · rw [update_of_ne (fun same => by grind)]
    exact update_self ..
  · rw [update_of_ne (fun same => by grind)]
    exact update_self ..
  · exact update_self ..
  · intro other mem
    have mem := dropLast_subset _ mem
    rw [update_of_ne (fun same => by grind), update_of_ne (fun same => by grind)]
  · intro other mem
    rw [update_of_ne (fun same => by grind), update_of_ne (fun same => by grind)]

end Links

/-! ## Items -/

/-- The link behind which an item comes after these items. -/
def endOf (before : List ι) : Link ι := (before.getLast?.map Link.entry).getD .head

omit [DecidableEq ι] in
@[simp] theorem endOf_concat (before : List ι) : endOf (before ++ [item]) = .entry item := by
  simp [endOf]

omit [DecidableEq ι] in
theorem exists_front (before : List ι) : ∃ front, Link.head :: before.map Link.entry = front ++ [endOf before] := by
  induction before using List.reverseRecOn with
  | nil => exact ⟨[], rfl⟩
  | append_singleton before item _ =>
    refine ⟨.head :: before.map .entry, ?_⟩
    rw [endOf_concat, map_append, map_singleton, cons_append]

omit [DecidableEq ι] in
private theorem exists_back (after : List ι) : ∃ last back, after.map Link.entry ++ [Link.tail] = last :: back := by
  cases after with
  | nil => exact ⟨_, _, rfl⟩
  | cons item after => exact ⟨_, _, rfl⟩

omit [DecidableEq ι] in
/-- The links around a position. -/
theorem links_around (before after : List ι) :
    ∃ front last back, links (before ++ after) = front ++ endOf before :: last :: back ∧
    ∀ item, links (before ++ item :: after) = front ++ endOf before :: .entry item :: last :: back := by
  obtain ⟨front, left⟩ := exists_front before
  obtain ⟨last, back, right⟩ := exists_back after
  have whole : ∀ middle : List ι, links (before ++ middle) = front ++
      endOf before :: (middle.map .entry ++ [.tail]) := by
    intro middle
    rw [links, map_append, ← cons_append, left]
    simp
  refine ⟨front, last, back, ?_, fun item => ?_⟩
  · rw [whole, right]
  · rw [whole, map_cons, cons_append, right]

variable {before after : List ι}

theorem chain_unlink (nodup : (before ++ item :: after).Nodup)
    (chain : (links (before ++ item :: after)).IsChain list.Joined) :
    (links (before ++ after)).IsChain (list.unlink (.entry item)).Joined := by
  have distinct := links_nodup nodup
  obtain ⟨front, last, back, without, within⟩ := links_around before after
  rw [within] at chain distinct
  rw [without]
  exact isChain_unlink distinct chain

theorem chain_addAfter (nodup : (before ++ item :: after).Nodup)
    (chain : (links (before ++ after)).IsChain list.Joined) :
    (links (before ++ item :: after)).IsChain (list.addAfter (endOf before) (.entry item)).Joined := by
  have distinct := links_nodup nodup
  obtain ⟨front, last, back, without, within⟩ := links_around before after
  rw [without] at chain
  rw [within] at distinct ⊢
  exact isChain_addAfter distinct chain

omit [DecidableEq ι] in
/-- The chain depends on the pointers only. -/
theorem Represents.of_chain {members : List ι} (chain : (links items).IsChain list.Joined) (nodup : items.Nodup)
    (same : members.Perm items) : Represents { list with members := members } items :=
  ⟨chain.imp fun _ _ joined => joined, nodup, same⟩

end LinkedList

end FlashMemory
