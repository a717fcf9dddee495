import Drakeydb.Dash.Bucket

/-!
# Dash Segments

The functions of `Segment` in `core/dash_internal.h`, with the entries, fingerprints, stash pointers
and versions they read and write. A segment is an array of regular buckets followed by four stash
buckets. A key lives in its home bucket, in the neighbour of its home bucket as a probing entry, or
in a stash bucket; the home bucket and its neighbour point to the stash buckets that hold its
overflow.

The asserts of the source are read as its release build has them: `Segment::Split` drops an entry
for which the right segment has no room, and the model reports that in `SplitState.found`. The
`on_move_cb` callbacks, the iterator pins and `segment_id_` are left out; none of them is read by
the functions below.
-/

namespace Drakeydb.Dash

variable {P : Policy} {K V : Type}

structure Segment (P : Policy) (K V : Type) where
  bucket : PhysicalBid P → Bucket P K V
  localDepth : ℕ

abbrev Segment.Iterator (P : Policy) := PhysicalBid P × SlotId P

/-- What a bump policy answers: on a key, and on the stale key that a free slot still holds. -/
structure BumpPolicy (K : Type) where
  canBump : K → Bool
  canBumpFree : Bool

namespace Segment

def empty (depth : ℕ) : Segment P K V := ⟨fun _ => Bucket.empty, depth⟩

variable (s : Segment P K V)

/-! ## §1 Access -/

def set (bid : PhysicalBid P) (b : Bucket P K V) : Segment P K V :=
  { s with bucket := Function.update s.bucket bid b }

/-- Changes one bucket in place. -/
def modify (bid : PhysicalBid P) (f : Bucket P K V → Bucket P K V) : Segment P K V :=
  s.set bid (f (s.bucket bid))

def slot (bid : PhysicalBid P) (j : SlotId P) : Option (Slot K V) := (s.bucket bid).slot j

def slowSize : ℕ := (∑ b, (s.bucket (.regular b)).size) + ∑ p, (s.bucket (.stash p)).size

/-! ## §2 Stash Pointers -/

/-- `SetStashPtr` on the bucket `bid`, with its neighbour as `next`. -/
def setStashPtr (bid : LogicalBid P) (pos : StashPos) (fp : UInt8) : Segment P K V :=
  let s' :=
    match (s.bucket (.regular bid)).setStash fp pos false with
    | some b => s.set (.regular bid) b
    | none =>
      match (s.bucket (.regular (nextBid bid))).setStash fp pos true with
      | some b => s.set (.regular (nextBid bid)) b
      | none => s.modify (.regular bid) fun b => { b with overflowCount := b.overflowCount + 1 }
  s'.modify (.regular bid) fun b => { b with stashPresent := true }

/-- `UnsetStashPtr` on the bucket `bid`, with its neighbour as `next`. The flag says that the
    pointer was found in the neighbour. -/
def unsetStashPtr (bid : LogicalBid P) (fp : UInt8) (pos : StashPos) : Segment P K V × Bool :=
  let (s', res) :=
    match (s.bucket (.regular bid)).clearStash fp pos false with
    | some b => (s.set (.regular bid) b, false)
    | none =>
      match (s.bucket (.regular (nextBid bid))).clearStash fp pos true with
      | some b => (s.set (.regular (nextBid bid)) b, true)
      | none =>
        (s.modify (.regular bid) fun b => { b with overflowCount := b.overflowCount - 1 }, false)
  let unused := (s'.bucket (.regular bid)).noStashRef false &&
    (s'.bucket (.regular bid)).overflowCount == 0 &&
    (s'.bucket (.regular (nextBid bid))).noStashRef true
  (s'.modify (.regular bid) fun b => { b with stashPresent := b.stashPresent && !unused }, res)

def removeStashReference (pos : StashPos) (hash : Hash) : Segment P K V :=
  (s.unsetStashPtr (homeIndex P hash) (fpHash hash) pos).1

/-! ## §3 Find -/

/-- The callback of `FindIt`: looks for the key in one stash bucket. -/
def findInStash (hash : Hash) (pred : K → Bool) (pos : StashPos) : Option (SlotId P) :=
  (s.bucket (.stash pos)).findByFp (fpHash hash) false pred

def findIt (hash : Hash) (pred : K → Bool) : Option (Iterator P) :=
  let bidx := homeIndex P hash
  let nid := nextBid bidx
  let target := s.bucket (.regular bidx)
  let probe := s.bucket (.regular nid)
  match target.findByFp (fpHash hash) false pred with
  | some sid => some (.regular bidx, sid)
  | none =>
    match probe.findByFp (fpHash hash) true pred with
    | some sid => some (.regular nid, sid)
    | none =>
      if target.stashPresent = false then none
      -- some stash entry of this bucket has no pointer: all four stash buckets are searched
      else if target.overflowCount ≠ 0 then
        Fin.findSome? fun pos => (s.findInStash hash pred pos).map fun sid => (.stash pos, sid)
      else
        match target.iterateStash (fpHash hash) false fun _ => s.findInStash hash pred with
        | some (pos, sid) => some (.stash pos, sid)
        | none =>
          (probe.iterateStash (fpHash hash) true fun _ => s.findInStash hash pred).map
            fun (pos, sid) => (.stash pos, sid)

/-! ## §4 Insert -/

/-- `MoveToOther`: moves an owned entry to the neighbour (`ownItems`) or a hosted one back home.
    The result names the slot that became free. -/
def moveToOther (ownItems : Bool) (src dst : LogicalBid P) :
    Option (Segment P K V × SlotId P) := do
  let srcSlot ← Fin.find? ((s.bucket (.regular src)).getProbe !ownItems)
  -- `InsertUniq` asks for an owned entry of full buckets only, so the slot found is busy
  let e ← s.slot (.regular src) srcSlot
  let (b, _) ← (s.bucket (.regular dst)).tryInsertToBucket e.key e.value e.fp ownItems
  let s' := s.set (.regular dst) (b.updateVersion (s.bucket (.regular src)).version)
  return (s'.modify (.regular src) (·.delete srcSlot), srcSlot)

/-- The stash part of `InsertUniq`: the first stash bucket with room, from `bid % 4` on. -/
def insertStash (bid : LogicalBid P) (key : K) (value : V) (fp : UInt8) :
    Option (Segment P K V × Iterator P) :=
  Fin.findSome? fun i : Fin kStashBucketNum =>
    let pos : StashPos := ⟨(bid.val + i.val) % kStashBucketNum, Nat.mod_lt _ (by decide)⟩
    ((s.bucket (.stash pos)).tryInsertToBucket key value fp false).map fun (b, j) =>
      ((s.set (.stash pos) b).setStashPtr bid pos fp, (.stash pos, j))

/-- `InsertUniq`: `none` when the segment has no room. -/
def insertUniq (key : K) (value : V) (hash : Hash) (spread : Bool) :
    Option (Segment P K V × Iterator P) :=
  let bid := homeIndex P hash
  let nid := nextBid bid
  let fp := fpHash hash
  let toNeighbor :=
    spread && decide ((s.bucket (.regular nid)).size < (s.bucket (.regular bid)).size)
  let first := if toNeighbor then nid else bid
  match (s.bucket (.regular first)).tryInsertToBucket key value fp toNeighbor with
  | some (b, j) => some (s.set (.regular first) b, (.regular first, j))
  | none =>
    match if spread then none
        else (s.bucket (.regular nid)).tryInsertToBucket key value fp true with
    | some (b, j) => some (s.set (.regular nid) b, (.regular nid, j))
    | none =>
      match s.moveToOther true nid (nextBid nid) with
      | some (s', j) =>
        some (s'.modify (.regular nid) (·.insert j key value fp true), (.regular nid, j))
      | none =>
        match s.moveToOther false bid (prevBid bid) with
        | some (s', j) =>
          some (s'.modify (.regular bid) (·.insert j key value fp false), (.regular bid, j))
        | none => s.insertStash bid key value fp

/-- `Insert`: the iterator with `true` if the entry was inserted, with `false` for a duplicate, and
    no iterator if the segment is full. -/
def insert [DecidableEq K] (key : K) (value : V) (hash : Hash) :
    Segment P K V × Option (Iterator P) × Bool :=
  match s.findIt hash (· = key) with
  | some it => (s, some it, false)
  | none =>
    match s.insertUniq key value hash true with
    | some (s', it) => (s', some it, true)
    | none => (s, none, false)

/-! ## §5 Delete and Shift -/

def delete (it : Iterator P) (hash : Hash) : Segment P K V :=
  let s' :=
    match it.1 with
    | .regular _ => s
    | .stash pos => s.removeStashReference pos hash
  s'.modify it.1 (·.delete it.2)

/-! ## §6 Moving out of the Stash -/

/-- `TryMoveFromStash`: into the home bucket or its neighbour. The slot of the stash bucket is
    freed by the caller. -/
def tryMoveFromStash (pos : StashPos) (j : SlotId P) (hash : Hash) :
    Option (Segment P K V × Iterator P) := do
  let e ← s.slot (.stash pos) j
  let place (bid : LogicalBid P) (probe : Bool) : Option (Segment P K V × Iterator P) :=
    ((s.bucket (.regular bid)).tryInsertToBucket e.key e.value (fpHash hash) probe).map
      fun (b, i) =>
        ((s.set (.regular bid) (b.updateVersion (s.bucket (.stash pos)).version)
          ).removeStashReference pos hash, (.regular bid, i))
  (place (homeIndex P hash) false).or (place (nextBid (homeIndex P hash)) true)

section

variable (hashFn : K → Hash)

/-- The loop of `UnloadStash` over the slots of one stash bucket. The slots to free are collected
    in a mask. -/
def unloadSlot (pos : StashPos)
    (acc : Segment P K V × (SlotId P → Bool) × ℕ) (j : SlotId P) :
    Segment P K V × (SlotId P → Bool) × ℕ :=
  match acc.1.slot (.stash pos) j with
  | none => acc
  | some e =>
    match acc.1.tryMoveFromStash pos j (hashFn e.key) with
    | some (s', _) => (s', Function.update acc.2.1 j true, acc.2.2 + 1)
    | none => acc

/-- One stash bucket of `UnloadStash`. -/
def unloadBucket (acc : Segment P K V × ℕ) (pos : StashPos) :
    Segment P K V × ℕ :=
  let (s', mask, moved) :=
    (List.finRange P.kSlotNum).foldl (unloadSlot hashFn pos) (acc.1, fun _ => false, acc.2)
  (s'.modify (.stash pos) (·.clearSlots mask), moved)

/-- `UnloadStash`: the number of moved entries comes with the segment. -/
def unloadStash : Segment P K V × ℕ :=
  (List.finRange kStashBucketNum).foldl (unloadBucket hashFn) (s, 0)

/-- The swap of `BumpUp`: the entry `e` of a stash bucket changes places with the entry `x` in the
    last slot of a full regular bucket. -/
def swapWithStash (pos : StashPos) (j : SlotId P) (swapBid : LogicalBid P) (e x : Slot K V)
    (fp : UInt8) (probe : Bool) : Segment P K V :=
  let ver := max (s.bucket (.stash pos)).version (s.bucket (.regular swapBid)).version
  let s1 := s.modify (.stash pos) fun b =>
    ((b.delete j).insert j x.key x.value x.fp false).setVersion ver
  s1.modify (.regular swapBid) fun b =>
    ((b.delete (lastSlot P)).insert (lastSlot P) e.key e.value fp probe).setVersion ver

/-- The regular case of `BumpUp`: one slot to the left. -/
def bumpRegular (b : LogicalBid P) (j : SlotId P) (bp : BumpPolicy K) :
    Segment P K V × Iterator P :=
  if j.val = 0 then (s, (.regular b, j))
  else
    let i := prevSlot j
    if ((s.slot (.regular b) i).elim bp.canBumpFree fun x => bp.canBump x.key) then
      (s.modify (.regular b) (·.swap i j), (.regular b, i))
    else (s, (.regular b, j))

/-- The stash case of `BumpUp` when no regular bucket has room: the entry `e` is swapped with the
    last entry of the bucket that pointed to it. -/
def bumpBySwap (pos : StashPos) (j : SlotId P) (e : Slot K V) (hash : Hash) (bp : BumpPolicy K) :
    Segment P K V × Iterator P :=
  let target := homeIndex P hash
  let (s1, offs) := s.unsetStashPtr target (fpHash hash) pos
  let swapBid := if offs then nextBid target else target
  match s1.slot (.regular swapBid) (lastSlot P) with
  -- nothing could be moved out of the stash, so both buckets are full and this is not taken
  | none => (s1.setStashPtr target pos (fpHash hash), (.stash pos, j))
  | some x =>
    if bp.canBump x.key = false then (s1.setStashPtr target pos (fpHash hash), (.stash pos, j))
    else
      -- the pointer of the swapped out entry belongs to its own home bucket
      let owner := if x.probe then prevBid swapBid else swapBid
      ((s1.swapWithStash pos j swapBid e x (fpHash hash) offs).setStashPtr owner pos x.fp,
        (.regular swapBid, lastSlot P))

/-- `BumpUp` of the entry at `(bid, j)`. -/
def bumpUp (bid : PhysicalBid P) (j : SlotId P) (hash : Hash) (bp : BumpPolicy K) :
    Segment P K V × Iterator P :=
  match s.slot bid j with
  | none => (s, (bid, j))
  | some e =>
    if bp.canBump e.key = false then (s, (bid, j))
    else
      match bid with
      | .regular b => s.bumpRegular b j bp
      | .stash pos =>
        match s.tryMoveFromStash pos j hash with
        | some (s', it) => (s'.modify (.stash pos) (·.delete j), it)
        | none => s.bumpBySwap pos j e hash bp

/-! ## §7 Split -/

/-- `is_mine` for a segment of this depth: the last of the `depth` leading hash bits is 0. -/
def isMine (depth : ℕ) (hash : Hash) : Bool := hash.toNat / 2 ^ (64 - depth) % 2 == 0

/-- The state of `Split`: both segments, and whether every assert on the way held. -/
structure SplitState (P : Policy) (K V : Type) where
  left : Segment P K V
  right : Segment P K V
  found : Bool

/-- Moves an entry to the right segment with the version of its bucket. -/
def SplitState.moveRight (st : SplitState P K V) (e : Slot K V) (hash : Hash) (version : ℕ) :
    SplitState P K V :=
  match st.right.insertUniq e.key e.value hash false with
  | some (r, it) => { st with right := r.modify it.1 (·.updateVersion version) }
  | none => { st with found := false }

/-- Does the entry in this slot leave for the right segment? -/
def leaves (bid : PhysicalBid P) (j : SlotId P) : Bool :=
  (s.slot bid j).any fun e => !isMine s.localDepth (hashFn e.key)

/-- One slot of the regular bucket `src` of `Split`. -/
def SplitState.splitRegularSlot (depth : ℕ) (src : Bucket P K V)
    (st : SplitState P K V) (j : SlotId P) : SplitState P K V :=
  match src.slot j with
  | none => st
  | some e =>
    if isMine depth (hashFn e.key) then st else st.moveRight e (hashFn e.key) src.version

/-- One regular bucket of `Split`. Until the slots are cleared the loop changes the right segment
    only. -/
def SplitState.splitRegular (st : SplitState P K V) (b : LogicalBid P) :
    SplitState P K V :=
  let st' := (List.finRange P.kSlotNum).foldl
    (splitRegularSlot hashFn st.left.localDepth (st.left.bucket (.regular b))) st
  { st' with
    left := st'.left.modify (.regular b) (·.clearSlots (st.left.leaves hashFn (.regular b))) }

/-- One slot of a stash bucket of `Split`: an entry that stays is moved back to a regular bucket if
    there is room. -/
def SplitState.splitStashSlot (pos : StashPos)
    (acc : SplitState P K V × (SlotId P → Bool)) (j : SlotId P) :
    SplitState P K V × (SlotId P → Bool) :=
  let (st, mask) := acc
  match st.left.slot (.stash pos) j with
  | none => acc
  | some e =>
    let hash := hashFn e.key
    if isMine st.left.localDepth hash then
      match st.left.tryMoveFromStash pos j hash with
      | some (l, _) => ({ st with left := l }, Function.update mask j true)
      | none => acc
    else
      let st' := st.moveRight e hash (st.left.bucket (.stash pos)).version
      ({ st' with left := st'.left.removeStashReference pos hash }, Function.update mask j true)

/-- One stash bucket of `Split`. -/
def SplitState.splitStash (st : SplitState P K V) (pos : StashPos) :
    SplitState P K V :=
  let (st', mask) :=
    (List.finRange P.kSlotNum).foldl (splitStashSlot hashFn pos) (st, fun _ => false)
  { st' with left := st'.left.modify (.stash pos) (·.clearSlots mask) }

/-- `Split` into `destRight`. -/
def split (destRight : Segment P K V) : SplitState P K V :=
  let depth := s.localDepth + 1
  let st : SplitState P K V :=
    ⟨{ s with localDepth := depth }, { destRight with localDepth := depth }, true⟩
  let st := (List.finRange P.kBucketNum).foldl (SplitState.splitRegular hashFn) st
  (List.finRange kStashBucketNum).foldl (SplitState.splitStash hashFn) st

end

end Segment
end Drakeydb.Dash
