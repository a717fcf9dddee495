import Drakeydb.Lib.Alternating

/-!
# The B+ tree

`core/bptree_set.h` and `core/detail/bptree_internal.h`: the node layout, the search inside a node,
the functions that move items between neighbouring nodes, and the paths. A node is indexed by its
height, so that all leaves of a tree have the same depth by construction; a leaf is a node whose
children carry nothing.

The key array and the child array of a node are kept as one alternating sequence. Functions return
`none` where the source would read past the end of one of the arrays.

A path is the list of positions from the root down; the empty path is the one past either end of the
tree. The loops that go up along a path are modelled by the return of the recursion along it.
-/

namespace Drakeydb.BPTreeSet

open Lib (Alternating)

/-! ## §1 Layout -/

def kBPNodeSize : ℕ := 256

/-- `BPNodeLayout` of a key type, by the size of a key. The source asserts that fewer than 128 keys
    fit a leaf, and assumes small items of up to sixteen bytes. -/
structure Layout where
  keySize : ℕ
  two_le_keySize : 2 ≤ keySize
  keySize_le : keySize ≤ 16

namespace Layout

variable (L : Layout)

def kMaxLeafKeys : ℕ := (kBPNodeSize - 4) / L.keySize

def kMaxInnerKeys : ℕ := (kBPNodeSize - 8 - 4 - 4) / (L.keySize + 8)

/-- `MaxItems` of a node of height `h`. -/
def maxItems (h : ℕ) : ℕ := if h = 0 then L.kMaxLeafKeys else L.kMaxInnerKeys

def minItems (h : ℕ) : ℕ := L.maxItems h / 2

end Layout

/-! ## §2 Nodes -/

/-- The items of a node with its children, and the number of items below it. A leaf does not use the
    stored count. -/
structure NodeOf (α β : Type) where
  count : ℕ
  items : Alternating α β

/-- What lies between the items of a node of height `h`: nothing, or a node of the height below. -/
@[reducible] def Child (α : Type) : ℕ → Type
  | 0 => Unit
  | h + 1 => NodeOf α (Child α h)

/-- `BPTreeNode` at height `h`. -/
abbrev Node (α : Type) (h : ℕ) : Type := NodeOf α (Child α h)

variable {α : Type}

/-- The items below a child, in order. -/
def Child.toList : (h : ℕ) → Child α h → List α
  | 0, _ => []
  | h + 1, n => NodeOf.items n |>.seq (Child.toList h)

namespace Node

variable {h : ℕ}

/-- The items below a node, in order. -/
def toList (n : Node α h) : List α := n.items.seq (Child.toList h)

abbrev numItems (n : Node α h) : ℕ := n.items.num

def availableSlotCount (L : Layout) (n : Node α h) : ℕ := L.maxItems h - n.numItems

def treeCount : {h : ℕ} → Node α h → ℕ
  | 0, n => n.numItems
  | _ + 1, n => n.count

end Node

/-- `TreeCount` of a child. -/
def Child.treeCount : {h : ℕ} → Child α h → ℕ
  | 0, _ => 0
  | h + 1, n => Node.treeCount (h := h) n

/-- `TreeCount` of several children. -/
def treeCounts {h : ℕ} (cs : List (Child α h)) : ℕ := (cs.map Child.treeCount).sum

namespace Node

variable {h : ℕ}

/-- `InitSingle` of a new leaf. -/
def initSingle (item : α) : Node α 0 := ⟨1, ⟨(), [(item, ())]⟩⟩

/-- `InsertItem`, with the child that `InnerInsert` puts to its right. -/
def insertItem (n : Node α h) (index : ℕ) (item : α) (right : Child α h) : Node α h :=
  { n with items := n.items.insert index item right }

def increaseTreeCount (n : Node α h) (delta : ℕ) : Node α h := { n with count := n.count + delta }

/-- `IncreaseTreeCount` with a negative delta. -/
def decreaseTreeCount (n : Node α h) (delta : ℕ) : Node α h := { n with count := n.count - delta }

def setChild (n : Node α (h + 1)) (i : ℕ) (c : Node α h) : Node α (h + 1) :=
  { n with items := n.items.setChild i c }

def setKey (n : Node α h) (i : ℕ) (k : α) : Node α h := { n with items := n.items.setKey i k }

/-! ## §3 Search in a node -/

/-- The loop of `BSearch`; `cut` tells on which side of the query a key is. -/
def bsearchLoop (keys : List α) (cut : α → Ordering) : ℕ → ℕ → ℕ → Option (ℕ × Bool)
  | 0, _, hi => some (hi, false)
  | fuel + 1, lo, hi =>
    if lo < hi then
      let mid := (lo + hi) / 2
      match keys[mid]? with
      | none => none
      | some item =>
        match cut item with
        | .eq => some (mid, true)
        | .lt => bsearchLoop keys cut fuel lo mid
        | .gt => bsearchLoop keys cut fuel (mid + 1) hi
    else some (hi, false)

/-- `BSearch`: the index of the first key not below the query, and whether it is equal. The last key
    is compared first. -/
def bsearch (n : Node α h) (cut : α → Ordering) : Option (ℕ × Bool) :=
  let hi := n.numItems
  match n.items.keys.getLast? with
  | none => none
  | some last =>
    match cut last with
    | .gt => some (hi, false)
    | .eq => some (hi - 1, true)
    | .lt => bsearchLoop n.items.keys cut (hi - 1) 0 (hi - 1)

/-! ## §4 Moving items -/

/-- `Split`: the left half, the median, and the right half. -/
def split (n : Node α h) : Option (Node α h × α × Node α h) :=
  let mid := n.numItems / 2
  match n.items.rest[mid]? with
  | none => none
  | some (median, child) =>
    let right : Alternating α (Child α h) := ⟨child, n.items.rest.drop (mid + 1)⟩
    let rightSubtreeCount := right.num + treeCounts right.children
    some (⟨n.count - (rightSubtreeCount + 1), ⟨n.items.first, n.items.rest.take mid⟩⟩, median,
      ⟨rightSubtreeCount, right⟩)

/-- `RebalanceChildToLeft` on the two children and the separator: `count` keys go from `src` to
    `dest` on its left. -/
def moveToLeft (dest : Node α h) (sep : α) (src : Node α h) (count : ℕ) :
    Option (Node α h × α × Node α h) :=
  match src.items.rest[count - 1]? with
  | none => none
  | some (newSep, child) =>
    let moved := src.items.rest.take (count - 1)
    let srcMoveCount := treeCounts (src.items.first :: moved.map Prod.snd)
    some (⟨dest.count + srcMoveCount + count,
        ⟨dest.items.first, dest.items.rest ++ (sep, src.items.first) :: moved⟩⟩, newSep,
      ⟨src.count - srcMoveCount - count, ⟨child, src.items.rest.drop count⟩⟩)

/-- `RebalanceChildToRight` on the two children and the separator: `count` keys go from `src` to
    `dest` on its right. -/
def moveToRight (src : Node α h) (sep : α) (dest : Node α h) (count : ℕ) :
    Option (Node α h × α × Node α h) :=
  let left := src.numItems - count
  match src.items.rest[left]? with
  | none => none
  | some (newDelim, child) =>
    let moved := src.items.rest.drop (left + 1)
    let srcMoveCount := treeCounts (child :: moved.map Prod.snd)
    some (⟨src.count - srcMoveCount - count, ⟨src.items.first, src.items.rest.take left⟩⟩, newDelim,
      ⟨dest.count + srcMoveCount + count,
        ⟨child, moved ++ (sep, dest.items.first) :: dest.items.rest⟩⟩)

def mergeFromRight (n : Node α h) (key : α) (right : Node α h) : Node α h :=
  ⟨n.count + (right.treeCount + 1), n.items.merge key right.items⟩

/-- The children at `i` and `i + 1` and the key between them. -/
def window (n : Node α (h + 1)) (i : ℕ) : Option (Node α h × α × Node α h) :=
  match n.items.child i, n.items.key i, n.items.child (i + 1) with
  | some l, some k, some r => some (l, k, r)
  | _, _, _ => none

/-- Put children and a key in the place of those at `i`. -/
def setWindow (n : Node α (h + 1)) (i : ℕ) (w : Node α h × α × Node α h) : Node α (h + 1) :=
  ((n.setChild i w.1).setKey i w.2.1).setChild (i + 1) w.2.2

def rebalanceChildToLeft (n : Node α (h + 1)) (childPos count : ℕ) : Option (Node α (h + 1)) :=
  match n.window (childPos - 1) with
  | none => none
  | some (dest, sep, src) => (dest.moveToLeft sep src count).map (n.setWindow (childPos - 1))

def rebalanceChildToRight (n : Node α (h + 1)) (childPos count : ℕ) : Option (Node α (h + 1)) :=
  match n.window childPos with
  | none => none
  | some (src, sep, dest) => (src.moveToRight sep dest count).map (n.setWindow childPos)

/-! ## §5 Making room, and filling up -/

/-- How many keys `RebalanceChild` moves to a sibling: all its room if the insertion is at the far
    end of the full node, or else half of it. -/
def toMove (destFree : ℕ) (farEnd : Bool) : ℕ :=
  if 0 < destFree then
    if farEnd then destFree else if 1 < destFree then destFree / 2 else 0
  else 0

/-- The first half of `RebalanceChild`, with the sibling on the left; `some none` without room
there. -/
def rebalanceWithLeft (L : Layout) (n : Node α (h + 1)) (pos insertPos : ℕ) :
    Option (Option (Node α (h + 1) × ℕ × ℕ)) :=
  if 0 < pos then
    match n.window (pos - 1) with
    | none => none
    | some (left, _, node) =>
      let count := toMove (left.availableSlotCount L) (insertPos == node.numItems)
      if count = 0 then some none
      else
        (n.rebalanceChildToLeft pos count).map fun n' =>
          some (n', if insertPos < count then (pos - 1, left.numItems + insertPos + 1)
            else (pos, insertPos - count))
  else some none

/-- The second half of `RebalanceChild`, with the sibling on the right. -/
def rebalanceWithRight (L : Layout) (n : Node α (h + 1)) (pos insertPos : ℕ) :
    Option (Option (Node α (h + 1) × ℕ × ℕ)) :=
  if pos < n.numItems then
    match n.window pos with
    | none => none
    | some (node, _, right) =>
      let count := toMove (right.availableSlotCount L) (insertPos == 0)
      if count = 0 then some none
      else
        (n.rebalanceChildToRight pos count).map fun n' =>
          -- the items that are left in the full node
          let numItems := node.numItems - count
          some (n', if numItems < insertPos then (pos + 1, insertPos - (numItems + 1))
            else (pos, insertPos))
  else some none

/-- `RebalanceChild`: moves items of the full child at `pos` to a sibling, first to the left one. On
    success, also the child and the position for what was to be inserted at `insertPos`. -/
def rebalanceChild (L : Layout) (n : Node α (h + 1)) (pos insertPos : ℕ) :
    Option (Option (Node α (h + 1) × ℕ × ℕ)) :=
  match n.rebalanceWithLeft L pos insertPos with
  | none => none
  | some (some res) => some (some res)
  | some none => n.rebalanceWithRight L pos insertPos

/-- The merge of the children at `i` and `i + 1`, if their items fit one node: `MergeFromRight`,
then `ShiftLeft` drops the key and the right one of the two. -/
def mergeChildren (L : Layout) (n : Node α (h + 1)) (i : ℕ) : Option (Node α (h + 1)) :=
  match n.window i with
  | none => none
  | some (l, k, r) =>
    if l.numItems + 1 + r.numItems ≤ L.maxItems h then
      some { n with items := (n.setChild i (l.mergeFromRight k r)).items.erase i }
    else none

/-- `MergeOrRebalanceChild`: the child at `pos` has too few items. Also whether two children were
    merged. -/
def mergeOrRebalanceChild (L : Layout) (n : Node α (h + 1)) (pos : ℕ) :
    Option (Node α (h + 1) × Bool) :=
  match (if 0 < pos then n.mergeChildren L (pos - 1) else none) with
  | some n' => some (n', true)
  | none =>
    if pos < n.numItems then
      match n.mergeChildren L pos with
      | some n' => some (n', true)
      | none =>
        match n.window pos with
        | none => none
        | some (node, _, right) =>
          (n.rebalanceChildToLeft (pos + 1) ((right.numItems - node.numItems) / 2)).map (·, false)
    else
      match n.window (pos - 1) with
      | none => none
      | some (left, _, node) =>
        (n.rebalanceChildToRight (pos - 1) ((left.numItems - node.numItems) / 2)).map (·, false)

end Node

/-- Positions from the root down. -/
abbrev Path : Type := List ℕ

/-- `kMaxDepth` of a path. -/
def kMaxDepth : ℕ := 16

namespace Node

/-! ## §6 Paths -/

/-- `Locate`: whether a key is equal to the query, and the path to it or to where it would be. -/
def locate (cut : α → Ordering) : {h : ℕ} → Node α h → Option (Bool × Path)
  | 0, n => (n.bsearch cut).map fun res => (res.2, [res.1])
  | h + 1, n =>
    match n.bsearch cut with
    | none => none
    | some (index, true) => some (true, [index])
    | some (index, false) =>
      match n.items.child index with
      | none => none
      | some c => (locate cut (h := h) c).map fun res => (res.1, index :: res.2)

/-- `Terminal`: the key a path points to, `none` if it has no valid terminal. -/
def terminal : {h : ℕ} → Node α h → Path → Option α
  | _, _, [] => none
  | _, n, [pos] => n.items.key pos
  | 0, _, _ :: _ :: _ => none
  | h + 1, n, pos :: path =>
    match n.items.child pos with
    | none => none
    | some c => terminal (h := h) c path

/-- `Rank`: the items before the terminal of a path. -/
def rank : {h : ℕ} → Node α h → Path → ℕ
  | _, _, [] => 0
  | 0, _, pos :: _ => pos
  | _ + 1, n, [pos] => treeCounts (n.items.children.take (pos + 1)) + pos
  | h + 1, n, pos :: path =>
    match n.items.child pos with
    | none => 0
    | some c => treeCounts (n.items.children.take pos) + pos + rank (h := h) c path

/-- The path to the first key below a node. -/
def digLeft : {h : ℕ} → Node α h → Path
  | 0, _ => [0]
  | h + 1, n => 0 :: digLeft (h := h) n.items.first

/-- The path to the last key below a node. -/
def digRight : {h : ℕ} → Node α h → Path
  | 0, n => [n.numItems - 1]
  | h + 1, n =>
    match n.items.child n.numItems with
    | none => []
    | some c => n.numItems :: digRight (h := h) c

/-- `Next`; from the last position of a leaf the path goes up to the first key on its right. -/
def next : {h : ℕ} → Node α h → Path → Path
  | _, _, [] => []
  | 0, n, pos :: _ => if pos + 1 < n.numItems then [pos + 1] else []
  | h + 1, n, [pos] =>
    match n.items.child (pos + 1) with
    | none => []
    | some c => (pos + 1) :: digLeft (h := h) c
  | h + 1, n, pos :: path =>
    match n.items.child pos with
    | none => []
    | some c =>
      match next (h := h) c path with
      | [] => if pos = n.numItems then [] else [pos]
      | path' => pos :: path'

/-- `Prev`; from the first position of a leaf the path goes up to the first key on its left. -/
def prev : {h : ℕ} → Node α h → Path → Path
  | _, _, [] => []
  | 0, _, pos :: _ => if pos = 0 then [] else [pos - 1]
  | h + 1, n, [pos] =>
    match n.items.child pos with
    | none => []
    | some c => pos :: digRight (h := h) c
  | h + 1, n, pos :: path =>
    match n.items.child pos with
    | none => []
    | some c =>
      match prev (h := h) c path with
      | [] => if pos = 0 then [] else [pos - 1]
      | path' => pos :: path'

/-- The loop of `ToRank` over the children of one node: the child that holds the item, with the rank
    in it, or the key. -/
def rankLoop {h : ℕ} : List (Child α h) → ℕ → ℕ → Option (ℕ × Option (Child α h × ℕ))
  | [], _, _ => none
  | c :: cs, i, rank =>
    if rank < c.treeCount then some (i, some (c, rank))
    else
      if rank - c.treeCount = 0 then some (i, none)
      else rankLoop cs (i + 1) (rank - c.treeCount - 1)

/-- The descent of `ToRank`. -/
def toRank : {h : ℕ} → Node α h → ℕ → Path
  | 0, _, rank => [rank]
  | h + 1, n, 0 => 0 :: toRank (h := h) n.items.first 0
  | h + 1, n, rank + 1 =>
    match rankLoop n.items.children 0 (rank + 1) with
    | none => []
    | some (i, none) => [i]
    | some (i, some (c, rank)) => i :: toRank (h := h) c rank

/-! ## §7 Insertion -/

/-- Where an insertion stands after a level: `done`, or with an item, and the node on its right,
that did not fit the node of this level. -/
inductive Inserted (α : Type) (h : ℕ) where
  | done (node : Node α h)
  | full (node : Node α h) (pos : ℕ) (item : α) (right : Child α h)

/-- The insertion of an item into one of two nodes that shared the items of a full one: into `node`
    itself or into `other`. The count of `node` already has the items below `right`. -/
def insertShared {h : ℕ} (node other : Node α h) (intoNode : Bool) (pos : ℕ) (item : α)
    (right : Child α h) : Node α h × Node α h :=
  if intoNode then ((node.insertItem pos item right).increaseTreeCount 1, other)
  else (node.decreaseTreeCount right.treeCount,
    (other.insertItem pos item right).increaseTreeCount (right.treeCount + 1))

/-- The split of a full node with the insertion into one of the halves. -/
def splitInsert {h : ℕ} (node : Node α h) (pos : ℕ) (item : α) (right : Child α h) :
    Option (Node α h × α × Node α h) :=
  match node.split with
  | none => none
  | some (l, median, r) =>
    let intoLeft := decide (pos ≤ l.numItems)
    let both :=
      insertShared l r intoLeft (if intoLeft then pos else pos - l.numItems - 1) item right
    some (both.1, median, both.2)

/-- The insertion after `RebalanceChild` made room: into the child at `target`, which is the full
one at `pos` or its sibling. -/
def insertRebalanced {h : ℕ} (n : Node α (h + 1)) (pos target insertPos : ℕ) (item : α)
    (right : Child α h) : Option (Node α (h + 1)) :=
  if target = pos then
    match n.items.child pos with
    | none => none
    | some c =>
      some (n.setChild pos ((insertItem (h := h) c insertPos item right).increaseTreeCount 1))
  else
    match n.items.child pos, n.items.child target with
    | some c, some d =>
      let both := insertShared (h := h) c d false insertPos item right
      some ((n.setChild pos both.1).setChild target both.2)
    | _, _ => none

/-- One round of `InsertToFullLeaf`, for the parent `n` of the level that reported. -/
def insertUp (L : Layout) {h : ℕ} (n : Node α (h + 1)) (pos : ℕ) :
    Inserted α h → Option (Inserted α (h + 1))
  | .done c => some (.done ((n.setChild pos c).increaseTreeCount 1))
  | .full c insertPos item right =>
    let n := n.setChild pos c
    match n.rebalanceChild L pos insertPos with
    | none => none
    | some (some (n', target, p)) =>
      (n'.insertRebalanced pos target p item right).map fun n' => .done (n'.increaseTreeCount 1)
    | some none =>
      match c.splitInsert insertPos item right with
      | none => none
      | some (l, median, r) =>
        let n := n.setChild pos l
        if n.numItems < L.kMaxInnerKeys then
          some (.done ((n.insertItem pos median r).increaseTreeCount 1))
        else some (.full n pos median r)

/-- `Insert` and `InsertToFullLeaf` along a path that leads to a leaf. -/
def insertAt (L : Layout) : {h : ℕ} → Node α h → Path → α → Option (Inserted α h)
  | 0, n, [pos], item =>
    if n.numItems = L.kMaxLeafKeys then some (.full n pos item ())
    else some (.done ((n.insertItem pos item ()).increaseTreeCount 1))
  | h + 1, n, pos :: path, item =>
    match n.items.child pos with
    | none => none
    | some c => (insertAt L (h := h) c path item).bind (n.insertUp L pos)
  | _, _, _, _ => none

/-! ## §8 Deletion -/

/-- One round of `Delete(path)`, for the parent `n` of a level that lost an item; `active` tells
    whether the loop reached that level. -/
def deleteUp (L : Layout) {h : ℕ} (n : Node α (h + 1)) (pos : ℕ) (below : Node α h × Bool) :
    Option (Node α (h + 1) × Bool) :=
  let n := (n.setChild pos below.1).decreaseTreeCount 1
  if below.2 && decide (below.1.numItems < L.minItems h) then n.mergeOrRebalanceChild L pos
  else some (n, false)

/-- `ShiftLeft` of a leaf. -/
def leafErase (n : Node α 0) (pos : ℕ) : Node α 0 :=
  ⟨n.count - 1, n.items.erase pos⟩

/-- `DigRight` with `LeafEraseRight`: the last key below a node is popped. -/
def popRight (L : Layout) : {h : ℕ} → Node α h → Option (α × Node α h × Bool)
  | 0, n =>
    match n.items.key (n.numItems - 1) with
    | none => none
    | some k => some (k, n.leafErase (n.numItems - 1), true)
  | h + 1, n =>
    match n.items.child n.numItems with
    | none => none
    | some c =>
      match popRight L (h := h) c with
      | none => none
      | some (k, below) => (n.deleteUp L n.numItems below).map fun res => (k, res)

/-- `Delete(path)`; a key of an inner node is overwritten by the last key of its left subtree, which
is popped from its leaf. -/
def deleteAt (L : Layout) : {h : ℕ} → Node α h → Path → Option (Node α h × Bool)
  | 0, n, [pos] => if pos < n.numItems then some (n.leafErase pos, true) else none
  | h + 1, n, [pos] =>
    match n.items.child pos with
    | none => none
    | some c =>
      match popRight L (h := h) c with
      | none => none
      | some (k, below) => (n.setKey pos k).deleteUp L pos below
  | h + 1, n, pos :: path =>
    match n.items.child pos with
    | none => none
    | some c => (deleteAt L (h := h) c path).bind (n.deleteUp L pos)
  | _, _, _ => none

end Node

/-! ## §9 The tree -/

/-- `BPTree`: the root with its height above the leaves, and the number of items. -/
structure BPTree (α : Type) where
  root : Option (Sigma (Node α))
  count : ℕ

namespace BPTree

def empty : BPTree α := ⟨none, 0⟩

section

variable (t : BPTree α)

def height : ℕ := t.root.elim 0 (·.1 + 1)

def size : ℕ := t.count

/-- The items of the tree, in order. -/
def toList : List α := t.root.elim [] fun root => root.2.toList

def clear (_ : BPTree α) : BPTree α := empty

/-- `Locate`; there must be a root. -/
def locate (cut : α → Ordering) : Option (Bool × Path) :=
  t.root.bind fun root => root.2.locate cut

/-- `Terminal` of a path into the tree. -/
def terminal (path : Path) : Option α :=
  t.root.bind fun root => root.2.terminal path

/-- `Rank` of a path into the tree. -/
def rank (path : Path) : ℕ := t.root.elim 0 fun root => root.2.rank path

/-- `Next` of a path into the tree. -/
def next (path : Path) : Path := t.root.elim [] fun root => root.2.next path

/-- `Prev` of a path into the tree. -/
def prev (path : Path) : Path := t.root.elim [] fun root => root.2.prev path

def fromRank (rank : ℕ) : Path :=
  t.root.elim [] fun root => if rank + 1 = t.count then root.2.digRight else root.2.toRank rank

end

/-- The end of `InsertToFullLeaf`: a root that did not take the item is split below a new one. -/
def insertRoot {h : ℕ} : Node.Inserted α h → Option (Sigma (Node α))
  | .done n => some ⟨h, n⟩
  | .full n pos item right =>
    (n.splitInsert pos item right).map fun w =>
      ⟨h + 1, ⟨w.1.treeCount + w.2.2.treeCount + 1, ⟨w.1, [(w.2.1, w.2.2)]⟩⟩⟩

/-- `Delete(path)`. -/
def deletePath (L : Layout) (t : BPTree α) (path : Path) : Option (BPTree α) :=
  match t.root with
  | none => none
  | some ⟨h, n⟩ =>
    match n.deleteAt L path with
    | none => none
    | some (n', active) =>
      if active && decide (n'.numItems < L.minItems h) && n'.numItems == 0 then
        match h, n' with
        | 0, _ => some ⟨none, t.count - 1⟩
        | h + 1, n' => some ⟨some ⟨h, n'.items.first⟩, t.count - 1⟩
      else some ⟨some ⟨h, n'⟩, t.count - 1⟩

variable [LinearOrder α]

/-- The comparator with a key on its left. -/
def cmp (item : α) : α → Ordering := compare item

def contains (t : BPTree α) (item : α) : Option Bool := (t.locate (cmp item)).map Prod.fst

def insert (L : Layout) (t : BPTree α) (item : α) : Option (BPTree α × Bool) :=
  match t.root with
  | none => some (⟨some ⟨0, Node.initSingle item⟩, 1⟩, true)
  | some ⟨_, n⟩ =>
    match n.locate (cmp item) with
    | none => none
    | some (true, _) => some (t, false)
    | some (false, path) =>
      ((n.insertAt L path item).bind insertRoot).map fun root => (⟨some root, t.count + 1⟩, true)

/-- `Delete(item)`. -/
def delete (L : Layout) (t : BPTree α) (item : α) : Option (BPTree α × Bool) :=
  match t.root with
  | none => some (t, false)
  | some ⟨_, n⟩ =>
    match n.locate (cmp item) with
    | none => none
    | some (false, _) => some (t, false)
    | some (true, path) => (t.deletePath L path).map (·, true)

/-- `GetRank`; the outer `none` stands for a failed lookup of a node. -/
def getRank (t : BPTree α) (item : α) (reverse : Bool) : Option (Option ℕ) :=
  match t.root with
  | none => some none
  | some ⟨_, n⟩ =>
    match n.locate (cmp item) with
    | none => none
    | some (false, _) => some none
    | some (true, path) => some (some (if reverse then t.count - n.rank path - 1 else n.rank path))

omit [LinearOrder α]

def geq (t : BPTree α) (cut : α → Ordering) : Option Path :=
  (t.locate cut).map fun res =>
    if !res.1 && (t.terminal res.2).isNone then t.next res.2 else res.2

def leq (t : BPTree α) (cut : α → Ordering) : Option Path :=
  (t.locate cut).map fun res => if res.1 then res.2 else t.prev res.2

/-- The loop of `Iterate`: the items the callback was called with, and the result. `none` where
there is no terminal to read. -/
def iterateLoop (t : BPTree α) (cb : α → Bool) : ℕ → Path → Option (List α × Bool)
  | 0, _ => some ([], true)
  | rounds + 1, path =>
    match t.terminal path with
    | none => none
    | some item =>
      if !cb item then some ([item], false)
      else if t.next path = [] then some ([item], true)
      else (t.iterateLoop cb rounds (t.next path)).map fun res => (item :: res.1, res.2)

def iterate (t : BPTree α) (rankStart rankEnd : ℕ) (cb : α → Bool) : Option (List α × Bool) :=
  if t.size ≤ rankStart then some ([], true)
  else t.iterateLoop cb (rankEnd + 1 - rankStart) (t.fromRank rankStart)

/-- The loop of `IterateReverse`. -/
def iterateReverseLoop (t : BPTree α) (cb : α → Bool) : ℕ → Path → Option (List α × Bool)
  | 0, _ => some ([], true)
  | rounds + 1, path =>
    match t.terminal path with
    | none => none
    | some item =>
      if !cb item then some ([item], false)
      else (t.iterateReverseLoop cb rounds (t.prev path)).map fun res => (item :: res.1, res.2)

/-- `IterateReverse`; ranks count from the end. -/
def iterateReverse (t : BPTree α) (rankStart rankEnd : ℕ) (cb : α → Bool) :
    Option (List α × Bool) :=
  t.iterateReverseLoop cb (rankEnd + 1 - rankStart) (t.fromRank (t.count - 1 - rankStart))

end BPTree

end Drakeydb.BPTreeSet
