import Mathlib.Data.List.Sort
import Mathlib.Data.Prod.Lex
import Mathlib.Order.SuccPred.Basic
import Drakeydb.Search.BlockList

/-!
# The numeric range tree

`RangeTree` of `core/search/range_tree.{h,cc}`: blocks of pairs of a document and a value, keyed by
their lower bounds. A block that grows is split at the median of its values, unless all its values
are the same; then values above it get a block of their own, which begins right after it. A block
that shrinks is merged with its left neighbour. Values are an order with a least and a greatest
element, the infinities, and with successors (`nextafter`); those that are stored are finite.
-/

namespace Drakeydb.Search

variable {α : Type} [LinearOrder α] [BoundedOrder α] [SuccOrder α]

/-- A document with one of its values, ordered by document first. -/
abbrev Entry (α : Type) := ℕ ×ₗ α

def entry (id : ℕ) (value : α) : Entry α := toLex (id, value)

namespace Entry

def id (e : Entry α) : ℕ := (ofLex e).1

def value (e : Entry α) : α := (ofLex e).2

end Entry

/-! ## §1 The code -/

/-- `RangeBlock`: the pairs, and the largest value ever seen. -/
structure RangeBlock (α : Type) where
  list : BlockList (Entry α)
  maxSeen : α

def RangeBlock.empty (maxSize : ℕ) : RangeBlock α := ⟨.empty maxSize, ⊥⟩

def RangeBlock.insert (b : RangeBlock α) (e : Entry α) : RangeBlock α :=
  ⟨(b.list.insert e).1, max b.maxSeen e.value⟩

def RangeBlock.elems (b : RangeBlock α) : List (Entry α) := b.list.elems

/-- What the loop of `Split` has collected. -/
structure SplitState (α : Type) where
  left : BlockList (Entry α)
  right : BlockList (Entry α)
  medianEntries : List (Entry α)
  lmin : α
  lmax : α
  rmin : α
  rmax : α

/-- One round of the loop. -/
def splitStep (median : α) (s : SplitState α) (e : Entry α) : SplitState α :=
  if e.value < median then
    { s with left := (s.left.pushBack e).1, lmin := min s.lmin e.value, lmax := max s.lmax e.value }
  else if median < e.value then
    { s with
      right := (s.right.pushBack e).1, rmin := min s.rmin e.value, rmax := max s.rmax e.value }
  else { s with medianEntries := s.medianEntries ++ [e] }

structure SplitResult (α : Type) where
  left : BlockList (Entry α)
  right : BlockList (Entry α)
  median : α
  lmin : α
  lmax : α
  rmax : α

/-- The value that `nth_element` puts into the middle. -/
def medianValue (values : List α) : α :=
  ((values.insertionSort (· ≤ ·))[values.length / 2]?).getD ⊥

/-- The entries with the median value. -/
def insertAll (b : BlockList (Entry α)) (entries : List (Entry α)) : BlockList (Entry α) :=
  entries.foldl (fun b e => (b.insert e).1) b

def split (b : BlockList (Entry α)) : SplitResult α :=
  let median := medianValue (b.elems.map Entry.value)
  let s := b.elems.foldl (splitStep median) ⟨.empty b.blockSize, .empty b.blockSize, [], ⊤, ⊥, ⊤, ⊥⟩
  if s.left.size < s.right.size then
    ⟨insertAll s.left s.medianEntries, s.right, s.rmin, min s.lmin median, median, s.rmax⟩
  else ⟨s.left, insertAll s.right s.medianEntries, median, s.lmin, s.lmax, max s.rmax median⟩

/-- `RangeTree`: the map from lower bounds to blocks. -/
structure RangeTree (α : Type) where
  maxSize : ℕ
  entries : List (α × RangeBlock α)

namespace RangeTree

section

variable (entries : List (α × RangeBlock α))

/-- `lower_bound` of the map, as a position. -/
def lowerBound (key : α) : ℕ :=
  (entries.takeWhile fun e => e.1 < key).length

/-- `FindRangeBlockImpl`. -/
def findRangeBlock (value : α) : ℕ :=
  let it := lowerBound entries value
  if it ≠ 0 ∧ (entries[it]?.all fun e => value < e.1) then it - 1 else it

/-- `emplace` of the map: nothing happens if there is such a key. -/
def emplace (key : α) (block : RangeBlock α) :
    List (α × RangeBlock α) :=
  if entries.any fun e => e.1 == key then entries
  else entries.take (lowerBound entries key) ++ (key, block) ::
    entries.drop (lowerBound entries key)

def new (maxSize : ℕ) : RangeTree α := ⟨maxSize, emplace [] ⊥ (.empty maxSize)⟩

/-- `isinf` of a lower bound. -/
def isInf (bound : α) : Bool := bound == ⊥ || bound == ⊤

def splitBlock (it : ℕ) : List (α × RangeBlock α) :=
  match entries[it]? with
  | none => entries
  | some (lowerBound, block) =>
    let result := split block.list
    let entries := entries.eraseIdx it
    let entries :=
      if result.left.size ≠ 0 ∨ isInf lowerBound then
        emplace entries (if isInf lowerBound then lowerBound
          else result.lmin) ⟨result.left, result.lmax⟩
      else entries
    emplace entries result.median ⟨result.right, result.rmax⟩

end

def add (t : RangeTree α) (id : ℕ) (value : α) : RangeTree α :=
  let it := findRangeBlock t.entries value
  match t.entries[it]? with
  | none => t
  | some (bound, block) =>
    -- a large block of one value only is left alone
    if t.maxSize ≤ block.list.size ∧ bound = block.maxSeen ∧ value ≠ bound then
      let entries := emplace t.entries (Order.succ bound) (.empty t.maxSize)
      ⟨t.maxSize, entries.modify (lowerBound entries (Order.succ bound)) fun e =>
        (e.1, e.2.insert (entry id value))⟩
    else
      let block := block.insert (entry id value)
      let entries := t.entries.set it (bound, block)
      if block.list.size ≤ t.maxSize ∨ bound = block.maxSeen then ⟨t.maxSize, entries⟩
      else ⟨t.maxSize, splitBlock entries it⟩

def remove (t : RangeTree α) (id : ℕ) (value : α) : RangeTree α :=
  let it := findRangeBlock t.entries value
  match t.entries[it]? with
  | none => t
  | some (bound, block) =>
    let block : RangeBlock α := ⟨(block.list.remove (entry id value)).1, block.maxSeen⟩
    let entries := t.entries.set it (bound, block)
    match t.entries[it - 1]? with
    | none => ⟨t.maxSize, entries⟩
    | some (lbound, lblock) =>
      if block.list.size < t.maxSize / 4 ∧ it ≠ 0 ∧
          block.list.size + lblock.list.size < t.maxSize / 2 then
        ⟨t.maxSize,
          (entries.set (it - 1) (lbound, block.elems.foldl RangeBlock.insert lblock)).eraseIdx it⟩
      else ⟨t.maxSize, entries⟩

end RangeTree

end Drakeydb.Search
