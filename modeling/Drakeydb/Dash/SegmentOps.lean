import Drakeydb.Dash.InsertUniq

/-!
# Deleting and Moving out of the Stash

The remaining operations that stay within one segment. `Delete` removes one entry;
`UnloadStash` and `BumpUp` only move entries between buckets, which `Rearranges` says.
-/

namespace Drakeydb.Dash

open List Option Function

namespace Segment

variable {P : Policy} {K V : Type} {hashFn : K → Hash} {s s' : Segment P K V}

/-- `s'` is well formed and has the entries of `s`. -/
structure Rearranges (hashFn : K → Hash) (s s' : Segment P K V) : Prop where
  wf : WF hashFn s'
  contains : ∀ key value, Contains s'.cell key value ↔ Contains s.cell key value
  depth : s'.localDepth = s.localDepth

theorem WF.rearranges_refl (hwf : WF hashFn s) : Rearranges hashFn s s :=
  ⟨hwf, fun _ _ => Iff.rfl, rfl⟩

theorem Rearranges.trans {s1 s2 : Segment P K V} (h : Rearranges hashFn s s1)
    (h' : Rearranges hashFn s1 s2) : Rearranges hashFn s s2 :=
  ⟨h'.wf, fun k v => (h'.contains k v).trans (h.contains k v), h'.depth.trans h.depth⟩

/-! ## §1 Stash References -/

theorem keepsData_removeStashReference (s : Segment P K V) (pos : StashPos) (hash : Hash) :
    KeepsData s (s.removeStashReference pos hash) := keepsData_unsetStashPtr ..

variable {pos : StashPos} {j : SlotId P} {e : Slot K V}

/-- Removing the reference of a stash entry leaves an index of the other stash entries. -/
theorem Indexes.removeStashReference {c : Cells P K V} (hindex : s.Indexes (residents hashFn c))
    (he : c (.stash pos, j) = some e)
    (hfp : e.fp = fpHash (hashFn e.key)) :
    (s.removeStashReference pos (hashFn e.key)).Indexes
      (residents hashFn (Function.update c (.stash pos, j) none)) := by
  rw [residents_erase_stash he, hfp] at hindex
  exact hindex.unsetStashPtr

/-! ## §2 Delete and Shift -/

variable (b : LogicalBid P)

theorem delete_regular (j : SlotId P) (hash : Hash) :
    s.delete (.regular b, j) hash = s.modify (.regular b) (·.delete j) := rfl

theorem delete_stash (pos : StashPos) (j : SlotId P) (hash : Hash) :
    s.delete (.stash pos, j) hash =
      (s.removeStashReference pos hash).modify (.stash pos) (·.delete j) := rfl

theorem cell_delete (it : Iterator P) (hash : Hash) :
    (s.delete it hash).cell = Function.update s.cell it none := by
  obtain ⟨bid, j⟩ := it
  cases bid with
  | regular b => rw [delete_regular, cell_modify_of_slot rfl]
  | stash pos =>
    rw [delete_stash, cell_modify_of_slot rfl, (keepsData_removeStashReference s pos hash).cell]

variable {it : Iterator P}

/-- **`Delete` keeps the invariant.** -/
theorem WF.delete (hwf : WF hashFn s) (he : s.cell it = some e) :
    WF hashFn (s.delete it (hashFn e.key)) := by
  refine ⟨?_, ?_⟩
  · rw [cell_delete]
    exact hwf.cells.erase it
  · rw [cell_delete]
    obtain ⟨bid, j⟩ := it
    cases bid with
    | regular b =>
      rw [residents_update_regular, delete_regular]
      exact hwf.index.congr (stashMeta_modify ⟨rfl, rfl, rfl⟩)
    | stash pos =>
      rw [delete_stash]
      have hindex := hwf.index.removeStashReference he (hwf.cells.placed _ _ he).1
      exact hindex.congr (stashMeta_modify ⟨rfl, rfl, rfl⟩)

theorem WF.reorder (hwf : WF hashFn s) {σ : PhysicalBid P → Equiv.Perm (SlotId P)}
    (hcell : s'.cell = Segment.reorder s.cell σ) (hmeta : ∀ b, s'.stashMeta b = s.stashMeta b)
    (hdepth : s'.localDepth = s.localDepth) : Rearranges hashFn s s' where
  wf := by
    refine ⟨?_, ?_⟩
    · rw [hcell]
      exact hwf.cells.reorder σ
    · rw [hcell, residents_reorder]
      exact hwf.index.congr hmeta
  contains key value := by rw [hcell, contains_reorder]
  depth := hdepth

/-! ## §3 Moving out of the Stash -/

/-- **`TryMoveFromStash`**: a copy of the entry goes to a free slot of its home bucket or the
    neighbour, and its reference is removed. -/
theorem tryMoveFromStash_spec {hash : Hash} (h : s.tryMoveFromStash pos j hash = some (s', it)) :
    ∃ e b i probe, s.cell (.stash pos, j) = some e ∧ it = (.regular b, i) ∧
      refOwner b probe = homeIndex P hash ∧ s.cell (.regular b, i) = none ∧
      s' = (s.modify (.regular b) fun bk =>
        (bk.insert i e.key e.value (fpHash hash) probe).updateVersion
          (s.bucket (.stash pos)).version).removeStashReference pos hash := by
  obtain ⟨e, he, h⟩ := bind_eq_some_iff.mp h
  rcases or_eq_some_iff.mp h with h | ⟨-, h⟩ <;>
  · obtain ⟨⟨bk, i⟩, hbk, heq⟩ := map_eq_some_iff.mp h
    obtain ⟨hfree, rfl⟩ := Bucket.tryInsertToBucket_eq_some hbk
    cases heq
    exact ⟨e, _, i, _, he, rfl, by simp [refOwner], hfree, rfl⟩

/-- A bucket with the slots of the mask cleared. -/
def masked (s : Segment P K V) (bid : PhysicalBid P) (mask : SlotId P → Bool) : Segment P K V :=
  s.modify bid (·.clearSlots mask)

variable (bid : PhysicalBid P) (mask : SlotId P → Bool)

theorem cell_masked (it : Iterator P) :
    (s.masked bid mask).cell it = if it.1 = bid ∧ mask it.2 = true then none else s.cell it := by
  obtain ⟨bid', j⟩ := it
  unfold masked cell slot
  by_cases hbid : bid' = bid
  · subst hbid
    simp [Bucket.clearSlots]
  · rw [modify_bucket_of_ne _ hbid, if_neg (by simp [hbid])]

theorem stashMeta_masked (b : LogicalBid P) :
    (s.masked bid mask).stashMeta b = s.stashMeta b := stashMeta_modify ⟨rfl, rfl, rfl⟩ b

theorem cell_masked_update (j : SlotId P) :
    (s.masked bid (Function.update mask j true)).cell
      = Function.update (s.masked bid mask).cell (bid, j) none := by
  funext ⟨bid', j'⟩
  by_cases hit : (bid', j') = (bid, j)
  · rw [hit, update_self, cell_masked, if_pos (by simp)]
  · rw [update_of_ne hit, cell_masked, cell_masked]
    have hmask : bid' = bid → update mask j true j' = mask j' := by
      rintro rfl
      exact update_of_ne (by simpa using hit) ..
    by_cases hbid : bid' = bid
    · simp [hbid, hmask hbid]
    · simp [hbid]

theorem masked_none : (s.masked bid fun _ => false).cell = s.cell := by
  funext it
  rw [cell_masked, if_neg (by simp)]

/-- The cells after an entry has been moved out of the stash and its slot is marked. -/
theorem cell_masked_tryMoveFromStash (he : s.cell (.stash pos, j) = some e)
    (h : s.tryMoveFromStash pos j (hashFn e.key) = some (s', it)) :
    ∃ b i probe, refOwner b probe = homeIndex P (hashFn e.key) ∧
      (s.masked (.stash pos) mask).cell (.regular b, i) = none ∧
      (s'.masked (.stash pos) (Function.update mask j true)).cell
        = Function.update
            (Function.update (s.masked (.stash pos) mask).cell (.stash pos, j) none)
            (.regular b, i) (some ⟨e.key, e.value, fpHash (hashFn e.key), probe⟩) ∧
      (∀ p i, s'.cell (.stash p, i) = s.cell (.stash p, i)) ∧ s'.localDepth = s.localDepth ∧
      ∃ s1 : Segment P K V, s' = s1.removeStashReference pos (hashFn e.key) ∧
        ∀ b, s1.stashMeta b = s.stashMeta b := by
  obtain ⟨e', b, i, probe, he', rfl, howner, hfree, rfl⟩ := tryMoveFromStash_spec h
  obtain rfl : e' = e := some.inj (he'.symm.trans he)
  set s1 := s.modify (.regular b) fun bk =>
    (bk.insert i e'.key e'.value (fpHash (hashFn e'.key)) probe).updateVersion
      (s.bucket (.stash pos)).version with hs1
  have hcell1 : s1.cell = update s.cell (.regular b, i)
      (some ⟨e'.key, e'.value, fpHash (hashFn e'.key), probe⟩) := cell_modify_of_slot rfl
  have hkeep := keepsData_removeStashReference s1 pos (hashFn e'.key)
  have hcell' := hkeep.cell.trans hcell1
  refine ⟨b, i, probe, howner, ?_, ?_, fun p i' => ?_, hkeep.1, s1, rfl, fun b => ?_⟩
  · rw [cell_masked, if_neg (by simp), hfree]
  · -- clearing and inserting touch different cells
    rw [cell_masked_update, update_comm (by simp)]
    congr 1
    funext x
    rw [cell_masked, hcell']
    by_cases hx : x = (.regular b, i)
    · subst hx
      simp
    · rw [update_of_ne hx, update_of_ne hx, cell_masked]
  · simp [hcell']
  · exact stashMeta_modify ⟨rfl, rfl, rfl⟩ b

/-- **One step of unloading**: the entry changes place, once its stash slot is cleared. -/
theorem WF.masked_tryMoveFromStash {mask : SlotId P → Bool}
    (hwf : WF hashFn (s.masked (.stash pos) mask))
    (he : s.cell (.stash pos, j) = some e) (hmask : mask j = false)
    (h : s.tryMoveFromStash pos j (hashFn e.key) = some (s', it)) :
    Rearranges hashFn (s.masked (.stash pos) mask)
      (s'.masked (.stash pos) (Function.update mask j true)) := by
  obtain ⟨b, i, probe, howner, hfree, hcell, -, hdepth, s1, rfl, hmeta⟩ :=
    cell_masked_tryMoveFromStash mask he h
  have hme : (s.masked (.stash pos) mask).cell (.stash pos, j) = some e := by
    rw [cell_masked, if_neg (by simp [hmask]), he]
  refine ⟨⟨?_, ?_⟩, fun key value => ?_, hdepth⟩
  · rw [hcell]
    exact hwf.cells.move hme _ rfl ⟨rfl, howner⟩
  · rw [hcell, residents_update_regular]
    have hindex : s1.Indexes (residents hashFn (s.masked (.stash pos) mask).cell) :=
      hwf.index.congr fun b => by rw [stashMeta_masked, hmeta]
    exact (hindex.removeStashReference hme (hwf.cells.placed _ _ hme).1).congr
      (stashMeta_masked _ _)
  · rw [hcell]
    exact hwf.cells.contains_move hme hfree ⟨e.key, e.value, _, probe⟩ rfl rfl

private theorem unloadSlots_rearranges {l : List (SlotId P)} (hl : l.Nodup)
    (acc : Segment P K V × (SlotId P → Bool) × ℕ) (hmask : ∀ j ∈ l, acc.2.1 j = false)
    (hwf : WF hashFn (acc.1.masked (.stash pos) acc.2.1)) :
    Rearranges hashFn (acc.1.masked (.stash pos) acc.2.1)
      ((l.foldl (unloadSlot hashFn pos) acc).1.masked (.stash pos)
        (l.foldl (unloadSlot hashFn pos) acc).2.1) := by
  -- the slots still to come are not marked
  induction l generalizing acc with
  | nil => exact hwf.rearranges_refl
  | cons j l ih =>
    rw [foldl_cons]
    obtain ⟨hj, hl⟩ := nodup_cons.mp hl
    have hrest : ∀ i ∈ l, acc.2.1 i = false := fun i hi => hmask i (mem_cons_of_mem _ hi)
    have hskip := ih hl acc hrest hwf
    rcases hslot : acc.1.slot (.stash pos) j with _ | e
    · have hstep : unloadSlot hashFn pos acc j = acc := by simp only [unloadSlot, hslot]
      rwa [hstep]
    · rcases hmove : acc.1.tryMoveFromStash pos j (hashFn e.key) with _ | ⟨s', it⟩
      · have hstep : unloadSlot hashFn pos acc j = acc := by simp only [unloadSlot, hslot, hmove]
        rwa [hstep]
      · have hstep : unloadSlot hashFn pos acc j
            = (s', update acc.2.1 j true, acc.2.2 + 1) := by
          simp [unloadSlot, hslot, hmove]
        have hrearr := hwf.masked_tryMoveFromStash hslot (hmask j mem_cons_self) hmove
        rw [hstep]
        have hmask' : ∀ i ∈ l, update acc.2.1 j true i = false := by
          intro i hi
          rw [update_of_ne (by rintro rfl; exact hj hi)]
          exact hrest i hi
        exact hrearr.trans (ih hl (s', _, acc.2.2 + 1) hmask' hrearr.wf)

section

variable (hwf : WF hashFn s)
include hwf

/-- **`UnloadStash` keeps invariant and contents.** -/
theorem WF.unloadStash : Rearranges hashFn s (s.unloadStash hashFn).1 := by
  have hbucket : ∀ (acc : Segment P K V × ℕ) (pos : StashPos), WF hashFn acc.1 →
      Rearranges hashFn acc.1 (unloadBucket hashFn acc pos).1 := by
    intro acc pos hacc
    have hwf' : WF hashFn (acc.1.masked (.stash pos) fun _ => false) :=
      hacc.congr (masked_none _) (stashMeta_masked _ _)
    have hloop := unloadSlots_rearranges (nodup_finRange P.kSlotNum)
      (acc.1, fun _ => false, acc.2) (fun _ _ => rfl) hwf'
    refine Rearranges.trans ⟨hwf', fun key value => ?_, rfl⟩ hloop
    rw [masked_none]
  unfold Segment.unloadStash
  generalize finRange kStashBucketNum = l
  generalize hacc : (s, 0) = acc
  have hs : Rearranges hashFn s acc.1 := hacc ▸ hwf.rearranges_refl
  clear hacc
  induction l generalizing acc with
  | nil => exact hs
  | cons pos l ih =>
    exact ih _ (hs.trans (hbucket acc pos hs.wf))

/-! ## §4 Bump-up -/

private theorem WF.swap (bid : PhysicalBid P) (i j : SlotId P) :
    Rearranges hashFn s (s.modify bid (·.swap i j)) := by
  have hcell : (s.modify bid (·.swap i j)).cell
      = Segment.reorder s.cell (update (fun _ => Equiv.refl _) bid (Equiv.swap i j)) := by
    funext ⟨bid', j'⟩
    unfold Segment.reorder cell slot
    by_cases hbid : bid' = bid
    · subst hbid
      rw [modify_bucket_self]
      simp only [update_self]
      rfl
    · rw [modify_bucket_of_ne _ hbid]
      simp only [update_of_ne hbid, Equiv.refl_apply]
  exact hwf.reorder hcell (stashMeta_modify ⟨rfl, rfl, rfl⟩) rfl

private theorem WF.bumpRegular (j : SlotId P) (bp : BumpPolicy K) :
    Rearranges hashFn s (s.bumpRegular b j bp).1 := by
  dsimp only [Segment.bumpRegular]
  split_ifs with hj hcan
  · exact hwf.rearranges_refl
  · exact hwf.swap ..
  · exact hwf.rearranges_refl

private theorem WF.resetStashPtr (he : s.cell (.stash pos, j) = some e) :
    Rearranges hashFn s
      ((s.removeStashReference pos (hashFn e.key)).setStashPtr (homeIndex P (hashFn e.key)) pos
        (fpHash (hashFn e.key))) := by
  have hfp : e.fp = fpHash (hashFn e.key) := (hwf.cells.placed _ _ he).1
  have hkeep := (keepsData_removeStashReference s pos (hashFn e.key)).trans
    (keepsData_setStashPtr _ (homeIndex P (hashFn e.key)) pos (fpHash (hashFn e.key)))
  have hfree : update s.cell (.stash pos, j) none (.stash pos, j) = none := update_self ..
  have hindex := hwf.index.removeStashReference he hfp
  refine ⟨⟨hkeep.cell ▸ hwf.cells, ?_⟩, fun key value => by rw [hkeep.cell], hkeep.1⟩
  rw [hkeep.cell, residents_erase_stash he, hfp]
  apply hindex.setStashPtr
  exact hindex.overflow_lt hfree _

/-- The swap of `BumpUp`: `x` takes the place of `e` in the stash and `e` the place of `x`. -/
private theorem WF.swapWithStash {swapBid : LogicalBid P} {x : Slot K V}
    (he : s.cell (.stash pos, j) = some e) (hx : s.cell (.regular swapBid, lastSlot P) = some x)
    {offs : Bool}
    (howner : refOwner swapBid offs = homeIndex P (hashFn e.key)) :
    Rearranges hashFn s
      (((s.removeStashReference pos (hashFn e.key)).swapWithStash pos j swapBid e x
        (fpHash (hashFn e.key)) offs).setStashPtr (refOwner swapBid x.probe) pos x.fp) := by
  set s1 := s.removeStashReference pos (hashFn e.key) with hs1
  set s2 := s1.swapWithStash pos j swapBid e x (fpHash (hashFn e.key)) offs with hs2
  set e' : Slot K V := ⟨e.key, e.value, fpHash (hashFn e.key), offs⟩ with he'
  set x' : Slot K V := ⟨x.key, x.value, x.fp, false⟩ with hx'
  have hcell1 : s1.cell = s.cell := (keepsData_removeStashReference ..).cell
  have hxplaced := hwf.cells.placed _ _ hx
  -- the cells in between: `e` out of the stash, `x` into the stash, `e` into the bucket
  set c1 := update s.cell (.stash pos, j) none with hc1
  set c2 := update (update c1 (.regular swapBid, lastSlot P) none) (.stash pos, j)
    (some x') with hc2
  set c3 := update c2 (.regular swapBid, lastSlot P) (some e') with hc3
  have hok1 : CellsOk hashFn c1 := hwf.cells.erase _
  have hx1 : c1 (.regular swapBid, lastSlot P) = some x := by
    rw [hc1, update_of_ne (by simp), hx]
  have hok2 : CellsOk hashFn c2 := hok1.move hx1 x' rfl ⟨hxplaced.1, rfl⟩
  have hfree2 : c2 (.regular swapBid, lastSlot P) = none := by
    rw [hc2, update_of_ne (by simp), update_self]
  have habsent : Absent c2 e.key := by
    have hne : x.key ≠ e.key := hwf.cells.absent_erase he _ x hx1
    exact ((hwf.cells.absent_erase he).erase _).put (e := x') hne _
  have hcell2 : s2.cell = c3 := by
    rw [hs2, Segment.swapWithStash, cell_modify_of_slot (j := lastSlot P) (o := some e'),
      cell_modify_of_slot (j := j) (o := some x'), hcell1, hc3, hc2, hc1]
    · rw [update_comm (a := (PhysicalBid.regular swapBid, lastSlot P)) (by simp), update_idem,
        update_idem]
    · simp [Bucket.setVersion, Bucket.insert, Bucket.delete, hx']
    · simp [Bucket.setVersion, Bucket.insert, Bucket.delete, he']
  have hkeep := keepsData_setStashPtr s2 (refOwner swapBid x.probe) pos x.fp
  have hcell3 := hkeep.cell.trans hcell2
  refine ⟨⟨?_, ?_⟩, fun key value => ?_, ?_⟩
  · rw [hcell3]
    exact hok2.put ⟨rfl, howner⟩ habsent
  · have hfree : update c1 (.regular swapBid, lastSlot P) none (.stash pos, j) = none := by
      rw [update_of_ne (by simp), hc1, update_self]
    have hindex1 : s1.Indexes (residents hashFn c1) :=
      hwf.index.removeStashReference he (hwf.cells.placed _ _ he).1
    have hindex2 :
      s2.Indexes (residents hashFn (update c1 (.regular swapBid, lastSlot P) none)) := by
      refine hindex1.congr fun b => ?_
      rw [hs2, Segment.swapWithStash, stashMeta_modify ⟨rfl, rfl, rfl⟩,
        stashMeta_modify ⟨rfl, rfl, rfl⟩]
    rw [hcell3, hc3, residents_update_regular, hc2, residents_put_stash hfree]
    have hhome : homeIndex P (hashFn x'.key) = refOwner swapBid x.probe := hxplaced.2.symm
    rw [hhome]
    exact hindex2.setStashPtr (hindex2.overflow_lt hfree _) pos x.fp
  · rw [hcell3, hc3, contains_put hfree2, hc2, hok1.contains_move hx1 ?_ x' rfl rfl, hc1,
      hwf.cells.contains_erase he]
    · exact hwf.cells.contains_restore he
    · rw [hc1, update_self]
  · exact hkeep.1.trans (keepsData_removeStashReference s pos (hashFn e.key)).1

end

/-- The flag of `UnsetStashPtr` says which of the two buckets held the pointer. -/
private theorem refOwner_swapBid (home : LogicalBid P) (offs : Bool) :
    refOwner (if offs then nextBid home else home) offs = home := by
  cases offs <;> simp [refOwner]

/-- **`BumpUp` keeps invariant and contents**, whatever the policy answers. -/
theorem WF.bumpUp (hwf : WF hashFn s) {bid : PhysicalBid P}
    (he : s.cell (bid, j) = some e) (bp : BumpPolicy K) :
    Rearranges hashFn s (s.bumpUp bid j (hashFn e.key) bp).1 := by
  have hslot : s.slot bid j = some e := he
  simp only [Segment.bumpUp, hslot]
  split
  case isTrue => exact hwf.rearranges_refl
  case isFalse =>
    cases bid with
    | regular b => exact hwf.bumpRegular b j bp
    | stash pos =>
      dsimp only
      split
      case h_1 s' it hmove =>
        -- there was room in a regular bucket
        have hmask : WF hashFn (s.masked (.stash pos) fun _ => false) :=
          hwf.congr (masked_none _) (stashMeta_masked _ _)
        have hrearr := hmask.masked_tryMoveFromStash he rfl hmove
        have hcell : (s'.modify (.stash pos) (·.delete j)).cell
            = (s'.masked (.stash pos) (update (fun _ => false) j true)).cell := by
          rw [cell_modify_of_slot rfl, cell_masked_update, masked_none]
        refine ⟨hrearr.wf.congr hcell fun b => ?_, fun key value => ?_, hrearr.depth⟩
        · exact stashMeta_modify (f := fun bk => bk.delete j) ⟨rfl, rfl, rfl⟩ b
        · rw [hcell, hrearr.contains, masked_none]
      case h_2 =>
        dsimp only [Segment.bumpBySwap]
        split
        case h_1 => exact hwf.resetStashPtr he
        case h_2 x hx =>
          split
          case isTrue => exact hwf.resetStashPtr he
          case isFalse =>
            have hcell := (keepsData_removeStashReference s pos (hashFn e.key)).cell
            refine hwf.swapWithStash he ?_ (refOwner_swapBid _ _)
            rw [← hcell]
            exact hx

end Segment
end Drakeydb.Dash
