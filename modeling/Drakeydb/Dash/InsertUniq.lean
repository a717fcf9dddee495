import Drakeydb.Dash.Cells

/-!
# Insertion into a Segment

`InsertUniq` puts an entry into its home bucket or the neighbour, makes room there by moving another
entry one bucket on or back, or falls back to the stash. `insertUniq_cases` says once what it can
do to the cells of the segment; that the invariant is kept and that exactly the new entry is added
follow from it.
-/

namespace Drakeydb.Dash

open Option Function

namespace Segment

variable {P : Policy} {K V : Type} {hashFn : K → Hash} {s s' : Segment P K V}

/-! ## §1 Cells after Writing a Bucket -/

variable {bid : PhysicalBid P} {f : Bucket P K V → Bucket P K V} {j : SlotId P}

theorem cell_modify_of_slot {o : Option (Slot K V)}
    (hf : (f (s.bucket bid)).slot = Function.update (s.bucket bid).slot j o) :
    (s.modify bid f).cell = Function.update s.cell (bid, j) o := by
  funext ⟨bid', j'⟩
  by_cases hbid : bid' = bid
  · subst hbid
    have hleft : (s.modify bid' f).cell (bid', j') = update (s.bucket bid').slot j o j' := by
      unfold cell slot
      rw [modify_bucket_self, hf]
    rw [hleft]
    by_cases hj : j' = j
    · subst hj
      rw [update_self, update_self]
    · rw [update_of_ne hj, update_of_ne (by simpa using hj)]
      rfl
  · rw [update_of_ne (by simp [hbid])]
    unfold cell slot
    rw [modify_bucket_of_ne _ hbid]

theorem cell_modify_of_same
    (hf : (f (s.bucket bid)).slot = (s.bucket bid).slot) : (s.modify bid f).cell = s.cell := by
  funext ⟨bid', j'⟩
  unfold cell slot
  by_cases hbid : bid' = bid
  · subst hbid
    rw [modify_bucket_self, hf]
  · rw [modify_bucket_of_ne _ hbid]

theorem KeepsData.cell (h : KeepsData s s') : s'.cell = s.cell := by
  funext it
  exact congrFun (h.2 it.1).1 it.2

theorem stashMeta_modify (hf : (f (s.bucket bid)).stashRef = (s.bucket bid).stashRef ∧
      (f (s.bucket bid)).overflowCount = (s.bucket bid).overflowCount ∧
      (f (s.bucket bid)).stashPresent = (s.bucket bid).stashPresent) (b : LogicalBid P) :
    (s.modify bid f).stashMeta b = s.stashMeta b := by
  dsimp only [stashMeta]
  by_cases hbid : .regular b = bid
  · subst hbid
    rw [modify_bucket_self, hf.1, hf.2.1, hf.2.2]
  · rw [modify_bucket_of_ne _ hbid]

/-! ## §2 What Each Step Does to the Cells -/

variable {ownItems : Bool}

/-- **`MoveToOther`**: an entry moves to a free slot of the other bucket and its probe bit turns. -/
theorem moveToOther_spec {src dst : LogicalBid P}
    (h : s.moveToOther ownItems src dst = some (s', j)) :
    ∃ x j', s.cell (.regular src, j) = some x ∧ x.probe = !ownItems ∧
      s.cell (.regular dst, j') = none ∧
      s'.cell = Function.update
        (Function.update s.cell (.regular dst, j') (some { x with probe := ownItems }))
        (.regular src, j) none ∧ (∀ b, s'.stashMeta b = s.stashMeta b) ∧
          s'.localDepth = s.localDepth := by
  obtain ⟨j0, hj0, h⟩ := bind_eq_some_iff.mp h
  obtain ⟨x, hx, h⟩ := bind_eq_some_iff.mp h
  obtain ⟨⟨b, j'⟩, hb, h⟩ := bind_eq_some_iff.mp h
  obtain ⟨hfree, rfl⟩ := Bucket.tryInsertToBucket_eq_some hb
  cases h
  have hprobe : x.probe = !ownItems := by
    have hget := (Fin.find?_eq_some_iff.mp hj0).1
    unfold slot at hx
    simpa [Bucket.getProbe, hx] using hget
  refine ⟨x, j', hx, hprobe, hfree, ?_, ?_, rfl⟩
  · rw [cell_modify_of_slot (j := j) (o := none) rfl]
    congr 1
    exact cell_modify_of_slot
      (f := fun b => (b.insert j' x.key x.value x.fp ownItems).updateVersion _)
      rfl
  · intro b
    rw [stashMeta_modify ⟨rfl, rfl, rfl⟩]
    exact stashMeta_modify (f := fun b => (b.insert j' x.key x.value x.fp ownItems).updateVersion _)
      ⟨rfl, rfl, rfl⟩ b

/-- What an insertion of `e` can do to the cells. In the second case the slot was taken by the
    entry `x`, which moves to a free slot of another regular bucket first. -/
inductive InsertEffect (s s' : Segment P K V) (home : LogicalBid P) (e : Slot K V) :
    Iterator P → Prop
  | direct (b : LogicalBid P) (j : SlotId P) (howner : refOwner b e.probe = home)
      (hfree : s.cell (.regular b, j) = none)
      (hcell : s'.cell = Function.update s.cell (.regular b, j) (some e))
      (hmeta : ∀ b, s'.stashMeta b = s.stashMeta b) : InsertEffect s s' home e (.regular b, j)
  | displace (b : LogicalBid P) (j : SlotId P) (howner : refOwner b e.probe = home)
      (x : Slot K V) (b' : LogicalBid P) (j' : SlotId P)
      (hx : s.cell (.regular b, j) = some x) (hfree : s.cell (.regular b', j') = none)
      (hmove : refOwner b' (!x.probe) = refOwner b x.probe)
      (hcell : s'.cell = Function.update (Function.update (Function.update s.cell
        (.regular b', j') (some { x with probe := !x.probe })) (.regular b, j) none)
          (.regular b, j) (some e))
      (hmeta : ∀ b, s'.stashMeta b = s.stashMeta b) : InsertEffect s s' home e (.regular b, j)
  | stash (pos : StashPos) (j : SlotId P) (hprobe : e.probe = false)
      (hfree : s.cell (.stash pos, j) = none)
      (s1 : Segment P K V) (hcell : s1.cell = Function.update s.cell (.stash pos, j) (some e))
      (hmeta : ∀ b, s1.stashMeta b = s.stashMeta b) (hset : s' = s1.setStashPtr home pos e.fp) :
      InsertEffect s s' home e (.stash pos, j)

variable {home : LogicalBid P} {e : Slot K V}

private theorem insertEffect_tryInsert {b : LogicalBid P}
    {bk : Bucket P K V} (howner : refOwner b e.probe = home)
    (h : (s.bucket (.regular b)).tryInsertToBucket e.key e.value e.fp e.probe = some (bk, j)) :
    InsertEffect s (s.set (.regular b) bk) home e (.regular b, j) := by
  obtain ⟨hfree, rfl⟩ := Bucket.tryInsertToBucket_eq_some h
  exact .direct b j howner hfree
    (cell_modify_of_slot (f := fun b => b.insert j e.key e.value e.fp e.probe) rfl)
    (stashMeta_modify (f := fun b => b.insert j e.key e.value e.fp e.probe) ⟨rfl, rfl, rfl⟩)

private theorem insertEffect_moveToOther {b dst : LogicalBid P} (howner : refOwner b e.probe = home)
    (hdst : refOwner dst ownItems = refOwner b !ownItems)
    (h : s.moveToOther ownItems b dst = some (s', j)) :
    InsertEffect s (s'.modify (.regular b) (·.insert j e.key e.value e.fp e.probe)) home e
      (.regular b, j) := by
  obtain ⟨x, j', hx, hprobe, hfree, hcell, hmeta, -⟩ := moveToOther_spec h
  have hown : ownItems = !x.probe := by simp [hprobe]
  subst hown
  refine .displace b j howner x dst j' hx hfree (by simpa using hdst) ?_ fun b => ?_
  · rw [cell_modify_of_slot (j := j) (o := some e) rfl, hcell]
  · rw [stashMeta_modify ⟨rfl, rfl, rfl⟩, hmeta]

variable {it : Iterator P}

private theorem insertEffect_insertStash (hprobe : e.probe = false)
    (h : s.insertStash home e.key e.value e.fp = some (s', it)) : InsertEffect s s' home e it := by
  obtain ⟨i, hi, -⟩ := Fin.findSome?_eq_some_iff.mp h
  obtain ⟨⟨b, j⟩, hb, heq⟩ := map_eq_some_iff.mp hi
  rw [← hprobe] at hb
  obtain ⟨hfree, rfl⟩ := Bucket.tryInsertToBucket_eq_some hb
  cases heq
  exact .stash _ j hprobe hfree _
    (cell_modify_of_slot (f := fun b => b.insert j e.key e.value e.fp e.probe) rfl)
    (stashMeta_modify (f := fun b => b.insert j e.key e.value e.fp e.probe) ⟨rfl, rfl, rfl⟩) rfl

variable {key : K} {value : V} {spread : Bool} {hash : Hash}

section

variable (h : s.insertUniq key value hash spread = some (s', it))
include h

/-- **`InsertUniq`**: the entry arrives at the iterator returned, by one of three ways. -/
theorem insertUniq_cases :
    ∃ probe, InsertEffect s s' (homeIndex P hash) ⟨key, value, fpHash hash, probe⟩ it := by
  have hnext : refOwner (nextBid (homeIndex P hash)) true = homeIndex P hash := prevBid_nextBid _
  dsimp only [insertUniq] at h
  generalize (spread && decide ((_ : ℕ) < _)) = toNeighbor at h
  split at h
  case h_1 bk j hbk =>
    cases h
    refine ⟨toNeighbor, insertEffect_tryInsert (e := ⟨key, value, _, toNeighbor⟩) ?_ hbk⟩
    cases toNeighbor with
    | false => rfl
    | true => exact hnext
  case h_2 =>
    split at h
    case h_1 bk j hbk =>
      cases h
      split_ifs at hbk
      exact ⟨true, insertEffect_tryInsert (e := ⟨key, value, _, true⟩) hnext hbk⟩
    case h_2 =>
      split at h
      case h_1 s1 j hmove =>
        cases h
        exact ⟨true, insertEffect_moveToOther (e := ⟨key, value, fpHash hash, true⟩) hnext
          (by simp [refOwner]) hmove⟩
      case h_2 =>
        split at h
        case h_1 s1 j hmove =>
          cases h
          exact ⟨false, insertEffect_moveToOther (e := ⟨key, value, fpHash hash, false⟩) rfl
            (by simp [refOwner]) hmove⟩
        case h_2 =>
          exact ⟨false, insertEffect_insertStash (e := ⟨key, value, fpHash hash, false⟩) rfl h⟩

/-- The slot returned holds the entry. -/
theorem cell_insertUniq : ∃ e, s'.cell it = some e ∧ e.key = key := by
  obtain ⟨probe, heffect⟩ := insertUniq_cases h
  refine ⟨⟨key, value, fpHash hash, probe⟩, ?_, rfl⟩
  cases heffect with
  | direct b j howner hfree hcell hmeta => rw [hcell, update_self]
  | displace b j howner x b' j' hx hfree hmove hcell hmeta => rw [hcell, update_self]
  | stash pos j hprobe hfree s1 hcell hmeta hset =>
    rw [hset, (keepsData_setStashPtr ..).cell, hcell, update_self]

theorem insertUniq_localDepth : s'.localDepth = s.localDepth := by
  have hmove : ∀ {own : Bool} {src dst : LogicalBid P} {s1 : Segment P K V} {j : SlotId P},
      s.moveToOther own src dst = some (s1, j) → s1.localDepth = s.localDepth := by
    intro own src dst s1 j h1
    obtain ⟨-, -, -, -, -, -, -, hdepth⟩ := moveToOther_spec h1
    exact hdepth
  dsimp only [insertUniq] at h
  split at h
  case h_1 => cases h; rfl
  case h_2 =>
    split at h
    case h_1 => cases h; rfl
    case h_2 =>
      split at h
      case h_1 s1 j h1 =>
        cases h
        exact (modify_localDepth s1 _ _).trans (hmove h1)
      case h_2 =>
        split at h
        case h_1 s1 j h1 =>
          cases h
          exact (modify_localDepth s1 _ _).trans (hmove h1)
        case h_2 =>
          obtain ⟨i, hi, -⟩ := Fin.findSome?_eq_some_iff.mp h
          obtain ⟨⟨b, j⟩, -, heq⟩ := map_eq_some_iff.mp hi
          cases heq
          exact (keepsData_setStashPtr ..).1

end

/-! ## §3 Invariant and Contents -/

variable {c : Cells P K V}

/-- While a stash cell is free, no overflow counter is at its maximum. -/
theorem Indexes.overflow_lt (hindex : s.Indexes (residents hashFn c)) {pos : StashPos}
    (hfree : c (.stash pos, j) = none) (y : LogicalBid P) : s.overflow y < 255 := by
  have hhead := (hindex y).headroom
  have hres : Multiset.card (residents hashFn c y) ≤ stashSize c := card_residents_le y
  have hlt := stashSize_lt hfree
  have hslots := P.slot_le
  unfold staleLimit at hhead
  simp only [kStashBucketNum] at hhead hlt
  omega

theorem ne_of_occupied {i i' : Iterator P} {x : Slot K V} (hx : c i = some x)
    (hfree : c i' = none) :
    i' ≠ i := by
  rintro rfl
  cases hx.symm.trans hfree

theorem InsertEffect.wf (hwf : WF hashFn s)
    (hfp : e.fp = fpHash (hashFn e.key)) (hfresh : Absent s.cell e.key)
    (h : InsertEffect s s' (homeIndex P (hashFn e.key)) e it) : WF hashFn s' := by
  cases h with
  | direct b j howner hfree hcell hmeta =>
    refine ⟨?_, ?_⟩
    · rw [hcell]
      exact hwf.cells.put ⟨hfp, howner⟩ hfresh
    · rw [hcell, residents_update_regular]
      exact hwf.index.congr hmeta
  | displace b j howner x b' j' hx hfree hmove hcell hmeta =>
    have hne := ne_of_occupied hx hfree
    have hxplaced := hwf.cells.placed _ _ hx
    rw [update_comm hne] at hcell
    refine ⟨?_, ?_⟩
    · rw [hcell]
      -- the moved entry keeps its home bucket, the new one finds the slot free
      have hplaced : Placed hashFn (.regular b') { x with probe := !x.probe } :=
        ⟨hxplaced.1, hmove.trans hxplaced.2⟩
      have hmoved : CellsOk hashFn (update (update s.cell (.regular b, j) none)
          (.regular b', j') (some { x with probe := !x.probe })) :=
        hwf.cells.move hx { x with probe := !x.probe } rfl hplaced
      have hkey : x.key ≠ e.key := hfresh _ _ hx
      refine hmoved.put ⟨hfp, howner⟩ ?_
      exact (hfresh.erase _).put (e := { x with probe := !x.probe }) hkey _
    · rw [hcell, residents_update_regular, residents_update_regular, residents_update_regular]
      exact hwf.index.congr hmeta
  | stash pos j hprobe hfree s1 hcell hmeta hset =>
    subst hset
    have hcell' := (keepsData_setStashPtr s1 (homeIndex P (hashFn e.key)) pos e.fp).cell.trans hcell
    refine ⟨?_, ?_⟩
    · rw [hcell']
      exact hwf.cells.put ⟨hfp, hprobe⟩ hfresh
    · rw [hcell', residents_put_stash hfree]
      have hindex := hwf.index.congr hmeta
      apply hindex.setStashPtr
      have hover : s1.overflow (homeIndex P (hashFn e.key)) =
        s.overflow (homeIndex P (hashFn e.key)) :=
        congrArg (fun m : _ × UInt8 × Bool => m.2.1.toNat) (hmeta _)
      rw [hover]
      exact hwf.index.overflow_lt hfree _

theorem InsertEffect.contains (hok : CellsOk hashFn s.cell) (h : InsertEffect s s' home e it) :
    Contains s'.cell key value ↔ Contains s.cell key value ∨ (key = e.key ∧ value = e.value) := by
  cases h with
  | direct b j howner hfree hcell hmeta => rw [hcell, contains_put hfree]
  | displace b j howner x b' j' hx hfree hmove hcell hmeta =>
    have hne := ne_of_occupied hx hfree
    rw [hcell, update_comm hne, contains_put,
      hok.contains_move hx hfree { x with probe := !x.probe } rfl rfl]
    simp [update_of_ne hne.symm]
  | stash pos j hprobe hfree s1 hcell hmeta hset =>
    subst hset
    rw [(keepsData_setStashPtr s1 home pos e.fp).cell, hcell, contains_put hfree]

/-- **Insertion keeps the invariant.** -/
theorem WF.insertUniq (hwf : WF hashFn s) (hfresh : Absent s.cell key)
    (h : s.insertUniq key value (hashFn key) spread = some (s', it)) : WF hashFn s' := by
  obtain ⟨probe, heffect⟩ := insertUniq_cases h
  exact heffect.wf (e := ⟨key, value, fpHash (hashFn key), probe⟩) hwf rfl hfresh

/-- **Insertion adds exactly the new entry.** -/
theorem WF.contains_insertUniq (hwf : WF hashFn s)
    (h : s.insertUniq key value hash spread = some (s', it)) {key' : K} {value' : V} :
    Contains s'.cell key' value' ↔ Contains s.cell key' value' ∨ (key' = key ∧ value' = value) := by
  obtain ⟨probe, heffect⟩ := insertUniq_cases h
  exact heffect.contains hwf.cells

end Segment
end Drakeydb.Dash
