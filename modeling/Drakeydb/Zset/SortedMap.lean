import Drakeydb.BPTreeSet.OrderedSet
import Drakeydb.Zset.Spec

/-!
# Sorted sets in a hash map with a B+ tree

`SortedMap` of `core/sorted_map.cc`: a hash map from members to scores and a B+ tree of the same
entries. Queries ask the tree for the first or the last entry of a range and walk from there.
`GetRange` and its relatives only know one of the two infinite strings at each end of a range of
members; where the other one stands, its bytes are compared.
-/

namespace Drakeydb.Zset

open Search (Bytes)
open Lib
open BPTreeSet (BPTree Path wordLayout)

variable {σ : Type} [LinearOrder σ]

structure SortedMap (σ : Type) where
  scoreMap : List (Bytes × σ)
  scoreTree : BPTree (Entry σ)

namespace SortedMap

/-! ## §1 Queries of the tree -/

/-- `Query`: a score, unless scores are ignored, with a string that may be infinite. -/
structure Query (σ : Type) where
  score : Option σ
  str : Bytes
  strIsInfinite : Bool

/-- The part of `KeyCompareTo` that compares strings. -/
def Query.compareStr (q : Query σ) (key : Entry σ) : Ordering :=
  if q.strIsInfinite then .gt else sdscmp q.str key.member

/-- `KeyCompareTo`. -/
def Query.compareTo (q : Query σ) (key : Entry σ) : Ordering :=
  match q.score with
  | none => q.compareStr key
  | some score =>
    if score < key.score then .lt else if key.score < score then .gt else q.compareStr key

/-- The query of a score, from `BuildScoredKey`: its string is empty or infinite. -/
def scoredKey (score : σ) (strIsInfinite : Bool) : Query σ := ⟨some score, [], strIsInfinite⟩

/-- The query of a string, with scores ignored. -/
def lexKey (str : LexStr) : Query σ := ⟨none, str.data, false⟩

/-- The place from where a query collects: behind `offset` entries, and behind the one the tree led
to if an open end leaves it out. -/
def skipFrom (t : BPTree (Entry σ)) (w : Walker Path (Entry σ)) (offset : ℕ)
    (isEnd : Entry σ → Bool) :
    Option Path → Option (Option Path)
  | none => none
  | some path =>
    if path = [] then some none
    else
      match t.terminal path with
      | none => none
      | some e => some (w.skip (if isEnd e then (offset + 1) % 2 ^ 32 else offset) (some path))

/-- `CollectByPath`. For a large limit the entries are counted first and copied in a second walk. -/
def collectByPath (t : BPTree (Entry σ)) (path : Path) (range : RangeSpec σ) (offset limit : ℕ) :
    Option (List (Entry σ)) :=
  let begin := t.forward.skip offset (some path)
  let inside := t.forward.collect
    (fun e => decide (range.max < e.score) || decide (range.max = e.score) &&
      range.maxex) limit begin
  if limit ≤ 100 then inside
  else inside.bind fun counted => t.forward.collect (fun _ => false) counted.length begin

section

variable (zs : SortedMap σ)

def getRange (range : RangeSpec σ) (offset limit : ℕ) (reverse : Bool) :
    Option (List (Entry σ)) :=
  let t := zs.scoreTree
  if t.size ≤ offset ∨ limit = 0 then some []
  else if reverse then
    (skipFrom t t.backward offset (fun e => range.maxex && decide (range.max = e.score))
      (t.leq (scoredKey range.max (!range.maxex)).compareTo)).bind
      (t.backward.collect
        (fun e => decide (e.score < range.min) || decide (range.min = e.score) &&
          range.minex) limit)
  else
    (t.geq (scoredKey range.min range.minex).compareTo).bind fun path =>
      if path = [] then some [] else collectByPath t path range offset limit

def getLexRange (range : LexRangeSpec) (offset limit : ℕ) (reverse : Bool) :
    Option (List (Entry σ)) :=
  let t := zs.scoreTree
  if t.size ≤ offset ∨ limit = 0 then some []
  else if reverse then
    (if range.max ≠ .cmaxstring then
      skipFrom t t.backward offset (fun e => range.maxex && sdscmp e.member range.max.data == .eq)
        (t.leq (lexKey range.max).compareTo)
          else some (BPTree.valid (t.fromRank (t.size - offset - 1)))).bind
      (t.backward.collect
        (fun e => range.min != .cminstring && (sdscmp e.member range.min.data == .lt ||
          sdscmp e.member range.min.data == .eq && range.minex)) limit)
  else
    (if range.min ≠ .cminstring then
      skipFrom t t.forward offset (fun e => range.minex && sdscmp e.member range.min.data == .eq)
        (t.geq (lexKey range.min).compareTo) else some (BPTree.valid (t.fromRank offset))).bind
      (t.forward.collect
        (fun e => range.max != .cmaxstring && (sdscmp e.member range.max.data == .gt ||
          sdscmp e.member range.max.data == .eq && range.maxex)) limit)

/-- The number of ranks of a range, which may be the wrong way round. -/
def rankCount (minRank maxRank : ℕ) : ℕ := if maxRank < minRank then 0 else maxRank - minRank + 1

def count (range : RangeSpec σ) : Option ℕ :=
  let t := zs.scoreTree
  if t.size = 0 then some 0
  else
    match t.geq (scoredKey range.min range.minex).compareTo with
    | none => none
    | some minPath =>
      if minPath = [] then some 0
      else
        match t.geq (scoredKey range.max (!range.maxex)).compareTo with
        | none => none
        | some maxPath =>
          if maxPath = [] then some (t.size - t.rank minPath)
          else
            match t.terminal maxPath with
            | none => none
            | some bound =>
              if range.maxex || decide (range.max < bound.score) then
                if t.rank maxPath ≤ t.rank minPath then some 0
                else some (rankCount (t.rank minPath) (t.rank maxPath - 1))
              else some (rankCount (t.rank minPath) (t.rank maxPath))

/-- The first rank of a range of members for `LexCount` and `DeleteRangeByLex`; `none` inside if the
tree has no entry there. -/
def minLexRank (t : BPTree (Entry σ)) (range : LexRangeSpec) : Option (Option ℕ) :=
  if range.min = .cminstring then some (some 0)
  else
    match t.geq (lexKey range.min).compareTo with
    | none => none
    | some path =>
      if path = [] then some none
      else
        match t.terminal path with
        | none => none
        | some e => some (some (if range.minex && sdscmp e.member range.min.data == .eq then
            t.rank path + 1 else t.rank path))

/-- The end of `LexCount`, from the first rank of the range on. -/
def lexCountFrom (t : BPTree (Entry σ)) (range : LexRangeSpec) (minRank : ℕ) : Option ℕ :=
  if range.max = .cmaxstring then some (rankCount minRank (t.size - 1))
  else
    match t.geq (lexKey range.max).compareTo with
    | none => none
    | some path =>
      if path = [] then some (rankCount minRank (t.size - 1))
      else
        match t.terminal path with
        | none => none
        | some e =>
          if sdscmp e.member range.max.data == .gt || range.maxex then
            if t.rank path ≤ minRank then some 0 else some (rankCount minRank (t.rank path - 1))
          else some (rankCount minRank (t.rank path))

def lexCount (range : LexRangeSpec) : Option ℕ :=
  let t := zs.scoreTree
  if t.size = 0 then some 0
  else if range.min = .cmaxstring ∨ range.max = .cminstring then some 0
  else
    match minLexRank t range with
    | none => none
    | some none => some 0
    | some (some minRank) => if t.size ≤ minRank then some 0 else lexCountFrom t range minRank

/-- `Iterate`, with a callback that never stops. -/
def iterate (startRank len : ℕ) (reverse : Bool) : Option (List (Entry σ)) :=
  let endRank := startRank + len - 1
  (if reverse then zs.scoreTree.iterateReverse startRank endRank fun _ => true
    else zs.scoreTree.iterate startRank endRank fun _ => true).map Prod.fst

/-! ## §2 Changes -/

/-- `score_map->Erase`. -/
def eraseMember (scoreMap : List (Bytes × σ)) (member : Bytes) : List (Bytes × σ) :=
  scoreMap.filter fun e => e.1 != member

/-- The entry at a rank is deleted from the tree and from the map. -/
def deleteAtRank (rank : ℕ) : Option (SortedMap σ) :=
  let path := zs.scoreTree.fromRank rank
  match zs.scoreTree.terminal path with
  | none => none
  | some item =>
    (zs.scoreTree.deletePath wordLayout path).map fun t => ⟨eraseMember zs.scoreMap item.member, t⟩

end

/-- The loop of `DeleteRangeByRank`. -/
def deleteRankLoop (start : ℕ) : ℕ → SortedMap σ → Option (SortedMap σ)
  | 0, zs => some zs
  | rounds + 1, zs => (zs.deleteAtRank start).bind (deleteRankLoop start rounds)

/-- `DeleteRangeByRank`; the number reported is `unsigned`. -/
def deleteRangeByRank (zs : SortedMap σ) (start end' : ℕ) : Option (SortedMap σ × ℕ) :=
  (deleteRankLoop start (end' + 1 - start) zs).map (·, (end' + 2 ^ 32 - start + 1) % 2 ^ 32)

/-- The loop of `DeleteRangeByScore`, which makes at most as many rounds as there are entries. -/
def deleteScoreLoop (range : RangeSpec σ) : ℕ → SortedMap σ → ℕ → Option (SortedMap σ × ℕ)
  | 0, zs, deleted => some (zs, deleted)
  | rounds + 1, zs, deleted =>
    if zs.scoreTree.size = 0 then some (zs, deleted)
    else
      match zs.scoreTree.geq (scoredKey range.min range.minex).compareTo with
      | none => none
      | some path =>
        if path = [] then some (zs, deleted)
        else
          match zs.scoreTree.terminal path with
          | none => none
          | some item =>
            if decide (range.max < item.score) || range.maxex &&
              decide (item.score = range.max) then
              some (zs, deleted)
            else
              match zs.scoreTree.delete wordLayout item with
              | none => none
              | some (t, _) =>
                deleteScoreLoop range rounds ⟨eraseMember zs.scoreMap item.member, t⟩ (deleted + 1)

def deleteRangeByScore (zs : SortedMap σ) (range : RangeSpec σ) : Option (SortedMap σ × ℕ) :=
  deleteScoreLoop range zs.scoreTree.size zs 0

/-- The loop of `DeleteRangeByLex`. -/
def deleteLexLoop (range : LexRangeSpec) (rank : ℕ) : ℕ → SortedMap σ → ℕ → Option (SortedMap σ × ℕ)
  | 0, zs, deleted => some (zs, deleted)
  | rounds + 1, zs, deleted =>
    if zs.scoreTree.size ≤ rank then some (zs, deleted)
    else
      match zs.scoreTree.terminal (zs.scoreTree.fromRank rank) with
      | none => none
      | some item =>
        if range.max != .cmaxstring && (sdscmp item.member range.max.data == .gt ||
            sdscmp item.member range.max.data == .eq && range.maxex) then some (zs, deleted)
        else (zs.deleteAtRank rank).bind fun zs => deleteLexLoop range rank rounds zs (deleted + 1)

def deleteRangeByLex (zs : SortedMap σ) (range : LexRangeSpec) : Option (SortedMap σ × ℕ) :=
  if zs.scoreTree.size = 0 then some (zs, 0)
  else
    match minLexRank zs.scoreTree range with
    | none => none
    | some none => some (zs, 0)
    | some (some rank) => deleteLexLoop range rank zs.scoreTree.size zs 0

/-- The loop of `PopTopScores` over the tree. -/
def popLoop (step : ℕ) : ℕ → BPTree (Entry σ) → ℕ → Option (BPTree (Entry σ))
  | 0, t, _ => some t
  | rounds + 1, t, rank => (t.deletePath wordLayout (t.fromRank rank)).bind fun t =>
      popLoop step rounds t (rank - step)

def popTopScores (zs : SortedMap σ) (count : ℕ) (reverse : Bool) :
    Option (List (Entry σ) × SortedMap σ) :=
  let sz := zs.scoreMap.length
  if sz = 0 ∨ count = 0 then some ([], zs)
  else
    let count := min count sz
    let t := zs.scoreTree
    match (if reverse then t.iterateReverse 0 (count - 1) fun _ => true
        else t.iterate 0 (count - 1) fun _ => true) with
    | none => none
    | some (res, _) =>
      let scoreMap := (res.map Entry.member).foldl eraseMember zs.scoreMap
      if scoreMap.isEmpty then some (res, ⟨scoreMap, t.clear⟩)
      else
        (popLoop (if reverse then 1 else 0) res.length t (if reverse then t.size - 1 else 0)).map
          fun t => (res, ⟨scoreMap, t⟩)

/-! ## §3 What is held -/

/-- The tree and the map have the entries of a sorted set. The number of entries is kept in
thirty-two bits. -/
structure Holds (zs : SortedMap σ) (xs : List (Entry σ)) : Prop where
  ok : zs.scoreTree.Ok wordLayout
  toList_eq : zs.scoreTree.toList = xs
  zset : IsZset xs
  perm : zs.scoreMap.Perm (xs.map fun e => (e.member, e.score))
  length_lt : xs.length < 2 ^ 32

variable {zs : SortedMap σ} {xs : List (Entry σ)}

theorem Holds.size_eq (h : zs.Holds xs) : zs.scoreTree.size = xs.length := by
  rw [BPTree.size, h.ok.count_eq, h.toList_eq]

theorem Holds.nodup (h : zs.Holds xs) : xs.Nodup := h.zset.sorted.imp fun hlt => hlt.ne

end SortedMap

end Drakeydb.Zset
