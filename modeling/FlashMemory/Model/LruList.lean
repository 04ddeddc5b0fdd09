import FlashMemory.Collections.LinkedList

/-! # The least recently used lists

`LRUList` is a doubly linked list of tree nodes, the most recently used one behind the head, with a dictionary of the
nodes it holds. Its asserts are checked by the callers. The tree also keeps the sequence of the nodes, most recently
used first, on which the operations of a list are plain list operations.
-/

namespace FlashMemory

namespace LinkedList

/-- `insert_mru`. -/
def insertMru (list : LinkedList ℕ) (node : ℕ) : LinkedList ℕ :=
  { list.addAfter .head (.entry node) with members := node :: list.members }

/-- `remove_node`. -/
def removeNode (list : LinkedList ℕ) (node : ℕ) : LinkedList ℕ :=
  { list.unlink (.entry node) with members := list.members.filter (· ≠ node) }

/-- `reset_node_mru`. -/
def resetNodeMru (list : LinkedList ℕ) (node : ℕ) : LinkedList ℕ :=
  (list.unlink (.entry node)).addAfter .head (.entry node)

/-- The loop of `reset_node_and_parents_mru` over the nodes of a path, with `prev_node`. -/
def resetLoop (list : LinkedList ℕ) : Link ℕ → List ℕ → LinkedList ℕ
  | _, [] => list
  | prevNode, node :: above =>
    ((list.unlink (.entry node)).addAfter prevNode (.entry node)).resetLoop (.entry node) above

/-- `reset_node_and_parents_mru`. -/
def resetNodeAndParentsMru (list : LinkedList ℕ) (path : List ℕ) : LinkedList ℕ := list.resetLoop .head path

/-- The walk of `get_prev_no_lock` and `get_prev_leaf_no_lock` towards the head. -/
def getPrev (list : LinkedList ℕ) (free : ℕ → Bool) : ℕ → Link ℕ → Option ℕ
  | 0, _ => none
  | fuel + 1, link =>
    match list.prev link with
    | .entry node => if free node then some node else list.getPrev free fuel (.entry node)
    | _ => none

end LinkedList

/-! ## The sequence of the nodes -/

namespace RadixCache

/-- `insert_mru`, and `reset_node_mru` for a node that is in the list. -/
def insertMru (lru : List ℕ) (node : ℕ) : List ℕ := node :: lru.filter (· ≠ node)

/-- `get_prev_no_lock`: the next more recently used entry that may be taken. -/
def prevOf (lru : List ℕ) (free : ℕ → Bool) (node : ℕ) : Option ℕ :=
  (lru.takeWhile (· ≠ node)).reverse.find? free

/-- `get_lru_no_lock`: the least recently used entry that may be taken. -/
def lruOf (lru : List ℕ) (free : ℕ → Bool) : Option ℕ := lru.reverse.find? free

end RadixCache

end FlashMemory
