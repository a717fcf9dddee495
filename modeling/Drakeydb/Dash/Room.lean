import Drakeydb.Dash.SegmentOps

/-!
# Room in a Segment

When does a segment take a whole set of entries?  `InsertUniq` looks at the home bucket first, and
it gives up only when the home bucket, its neighbour and all four stash buckets are full. So what is
left to place is measured by the entries that exceed the capacity of their home buckets, plus what
the stash holds already: `roomNeeded`. An insertion never raises that measure, whatever it
displaces, and while the measure is within the capacity of the stash no insertion fails. Nor does
one fail while all the entries together fit into two buckets and the stash.
-/

namespace Drakeydb.Dash

open Option Function Finset

namespace Segment

variable {P : Policy} {K V : Type} {hashFn : K → Hash} {s s' : Segment P K V}

/-! ## §1 Sizes -/

/-- The number of busy slots of a bucket, read off the cells. -/
def bucketSize (c : Cells P K V) (bid : PhysicalBid P) : ℕ := ∑ j, (c (bid, j)).isSome.toNat

theorem size_eq_bucketSize (s : Segment P K V) (bid : PhysicalBid P) :
    (s.bucket bid).size = bucketSize s.cell bid := Bucket.size_eq_sum

variable (c : Cells P K V)

theorem bucketSize_le (bid : PhysicalBid P) : bucketSize c bid ≤ P.kSlotNum := by
  have hle : bucketSize c bid ≤ ∑ _j : SlotId P, 1 := sum_le_sum fun j _ => Bool.toNat_le _
  simpa using hle

theorem bucketSize_update (it : Iterator P) (o : Option (Slot K V)) (bid : PhysicalBid P) :
    bucketSize (update c it o) bid + (if bid = it.1 then (c it).isSome.toNat else 0)
      = bucketSize c bid + if bid = it.1 then o.isSome.toNat else 0 := by
  obtain ⟨bid', j⟩ := it
  by_cases hbid : bid = bid'
  · subst hbid
    have hupd : (fun i => update c (bid, j) o (bid, i))
        = update (fun i => c (bid, i)) j o := by
      funext i
      by_cases hi : i = j
      · subst hi
        simp
      · rw [update_of_ne hi, update_of_ne (by simpa using hi)]
    have h := Lib.sum_exchange (fun (_ : SlotId P) (x : Option (Slot K V)) => x.isSome.toNat)
      (fun i => c (bid, i)) j o
    rw [← hupd] at h
    simpa [bucketSize] using h
  · have hsame : bucketSize (update c (bid', j) o) bid = bucketSize c bid := by
      apply sum_congr rfl
      intro i _
      rw [update_of_ne (by simp [hbid])]
    simp [hbid, hsame]

private theorem sum_grown (grown : PhysicalBid P) :
    (∑ b : LogicalBid P, if PhysicalBid.regular b = grown then 1 else 0)
      + (∑ pos, if PhysicalBid.stash pos = grown then 1 else 0) = 1 := by
  cases grown with
  | regular b0 =>
    simp
  | stash pos0 =>
    simp

variable {it : Iterator P} {e : Slot K V} {home : LogicalBid P}

/-- **An insertion raises the size of one bucket by one.** -/
theorem InsertEffect.sizes (h : InsertEffect s s' home e it) :
    ∃ grown, ∀ bid, bucketSize s'.cell bid
      = bucketSize s.cell bid + if bid = grown then 1 else 0 := by
  cases h with
  | direct b j howner hfree hcell hmeta =>
    refine ⟨.regular b, fun bid => ?_⟩
    have h := bucketSize_update s.cell (.regular b, j) (some e) bid
    rw [hfree] at h
    rw [hcell]
    simpa using h
  | displace b j howner x b' j' hx hfree hmove hcell hmeta =>
    refine ⟨.regular b', fun bid => ?_⟩
    have hne : ((.regular b, j) : Iterator P) ≠ (.regular b', j') := by
      intro heq
      rw [← heq, hx] at hfree
      cases hfree
    -- the slot of the displaced entry is taken again at once
    have h1 := bucketSize_update s.cell (.regular b', j') (some { x with probe := !x.probe }) bid
    have h2 := bucketSize_update (update s.cell (.regular b', j')
      (some { x with probe := !x.probe })) (.regular b, j) (some e) bid
    rw [hfree] at h1
    rw [update_of_ne hne, hx] at h2
    rw [hcell, update_idem]
    simp only [isSome_none, isSome_some, Bool.toNat_false, Bool.toNat_true, ite_self,
      add_zero] at h1 h2
    omega
  | stash pos j hprobe hfree s1 hcell hmeta hset =>
    subst hset
    refine ⟨.stash pos, fun bid => ?_⟩
    have h := bucketSize_update s.cell (.stash pos, j) (some e) bid
    rw [hfree] at h
    rw [(keepsData_setStashPtr s1 home pos e.fp).cell, hcell]
    simpa using h

variable {grown : PhysicalBid P}

private theorem slowSize_grow
    (hsizes : ∀ bid, bucketSize s'.cell bid = bucketSize s.cell bid + if bid = grown then 1
      else 0) :
    s'.slowSize = s.slowSize + 1 := by
  unfold slowSize
  simp only [size_eq_bucketSize, hsizes, sum_add_distrib]
  have hsum := sum_grown grown
  omega

variable {hash : Hash}

/-- There is no room for a key of this home bucket: the bucket and its neighbour are full and can
pass no entry on, and the stash is full. -/
structure NoRoom (s : Segment P K V) (home : LogicalBid P) : Prop where
  own : (s.bucket (.regular home)).isFull
  next : (s.bucket (.regular (nextBid home))).isFull
  onward : (∀ j e, s.cell (.regular (nextBid home), j) = some e → e.probe = true) ∨
    (s.bucket (.regular (nextBid (nextBid home)))).isFull
  back : (∀ j e, s.cell (.regular home, j) = some e → e.probe = false) ∨
    (s.bucket (.regular (prevBid home))).isFull
  stash : ∀ pos, (s.bucket (.stash pos)).isFull

theorem cell_ne_none {bid : PhysicalBid P} (h : (s.bucket bid).isFull) (j : SlotId P) :
    s.cell (bid, j) ≠ none :=
  isSome_iff_ne_none.mp (Bucket.isFull_iff.mp h j)

/-- `MoveToOther` fails for a full bucket if no entry may leave, or the other bucket is full too. -/
theorem moveToOther_eq_none {own : Bool} {src dst : LogicalBid P}
    (hfull : (s.bucket (.regular src)).isFull) (h : s.moveToOther own src dst = none) :
    (∀ j e, s.cell (.regular src, j) = some e → e.probe = own) ∨
      (s.bucket (.regular dst)).isFull := by
  rcases hslot : Fin.find? ((s.bucket (.regular src)).getProbe !own) with _ | j
  · refine .inl fun j e he => ?_
    have hprobe := Fin.find?_eq_none_iff.mp hslot j
    unfold cell slot at he
    simpa [Bucket.getProbe, he] using hprobe
  · obtain ⟨e, he⟩ := ne_none_iff_exists'.mp (cell_ne_none hfull j)
    have he' : s.slot (.regular src) j = some e := he
    rcases htry : (s.bucket (.regular dst)).tryInsertToBucket e.key e.value e.fp own
      with _ | ⟨b, j'⟩
    · exact .inr (Bucket.tryInsertToBucket_eq_none.mp htry)
    · simp [moveToOther, hslot, he', htry] at h

/-- The loop over the stash starts at the home bucket and comes round to every position. -/
theorem insertStash_eq_none {home : LogicalBid P} {key : K} {value : V} {fp : UInt8}
    (h : s.insertStash home key value fp = none) (pos : StashPos) :
      (s.bucket (.stash pos)).isFull := by
  have hstep := Fin.findSome?_eq_none_iff.mp h
    ⟨(pos.val + 4 - home.val % 4) % 4, Nat.mod_lt _ (by decide)⟩
  have hpos : (⟨(home.val + (pos.val + 4 - home.val % 4) % 4) % kStashBucketNum,
      Nat.mod_lt _ (by decide)⟩ : StashPos) = pos := by
    apply Fin.ext
    have := pos.isLt
    simp only [kStashBucketNum] at this ⊢
    omega
  rw [hpos] at hstep
  exact Bucket.tryInsertToBucket_eq_none.mp (map_eq_none_iff.mp hstep)

/-- Each way of inserting takes a slot that was free, of a bucket that is then not full. -/
theorem NoRoom.not_insertEffect (hno : s.NoRoom home)
    (h : InsertEffect s s' home e it) : False := by
  -- the bucket the entry goes to is the home bucket or the neighbour, by its probe bit
  have hbucket {b : LogicalBid P} (howner : refOwner b e.probe = home) :
      b = home ∨ b = nextBid home := by
    cases hprobe : e.probe with
    | false => exact .inl (by simpa [refOwner, hprobe] using howner)
    | true => exact .inr (by rw [← howner, hprobe]; exact (nextBid_prevBid b).symm)
  cases h with
  | direct b j howner hfree hcell hmeta =>
    rcases hbucket howner with rfl | rfl
    · exact cell_ne_none hno.own j hfree
    · exact cell_ne_none hno.next j hfree
  | displace b j howner x b' j' hx hfree hmove hcell hmeta =>
    cases hprobe : x.probe with
    | false =>
      have hb' : b' = nextBid b := by
        rw [hprobe] at hmove
        rw [← nextBid_prevBid b']
        exact congrArg nextBid hmove
      subst hb'
      rcases hbucket howner with rfl | rfl
      · exact cell_ne_none hno.next j' hfree
      · rcases hno.onward with hkeep | hfull
        · cases (hkeep j x hx).symm.trans hprobe
        · exact cell_ne_none hfull j' hfree
    | true =>
      have hb' : b' = prevBid b := by
        rw [hprobe] at hmove
        exact hmove
      subst hb'
      rcases hbucket howner with rfl | rfl
      · rcases hno.back with hkeep | hfull
        · cases (hkeep j x hx).symm.trans hprobe
        · exact cell_ne_none hfull j' hfree
      · rw [prevBid_nextBid] at hfree
        exact cell_ne_none hno.own j' hfree
  | stash pos j hprobe hfree s1 hcell hmeta hset => exact cell_ne_none (hno.stash pos) j hfree

/-- **`InsertUniq` fails exactly where there is no room.** -/
theorem insertUniq_eq_none_iff (key : K) (value : V) (spread : Bool) :
    s.insertUniq key value hash spread = none ↔ s.NoRoom (homeIndex P hash) := by
  constructor
  · intro h
    dsimp only [insertUniq] at h
    split at h
    case h_1 => cases h
    case h_2 hfirst =>
      split at h
      case h_1 => cases h
      case h_2 hsecond =>
        have hfull : (s.bucket (.regular (homeIndex P hash))).isFull ∧
            (s.bucket (.regular (nextBid (homeIndex P hash)))).isFull := by
          rw [Bucket.tryInsertToBucket_eq_none] at hfirst
          cases spread with
          | false => exact ⟨hfirst, Bucket.tryInsertToBucket_eq_none.mp hsecond⟩
          | true =>
            -- the emptier of the two buckets is full
            have hle := bucketSize_le s.cell (.regular (homeIndex P hash))
            have hle' := bucketSize_le s.cell (.regular (nextBid (homeIndex P hash)))
            rw [← size_eq_bucketSize] at hle hle'
            unfold Bucket.isFull at hfirst ⊢
            simp only [Bool.true_and, decide_eq_true_eq] at hfirst
            split at hfirst <;> omega
        split at h
        case h_1 => cases h
        case h_2 honward =>
          split at h
          case h_1 => cases h
          case h_2 hback =>
            exact ⟨hfull.1, hfull.2, moveToOther_eq_none hfull.2 honward,
              moveToOther_eq_none hfull.1 hback, insertStash_eq_none h⟩
  · intro hno
    rcases hins : s.insertUniq key value hash spread with _ | ⟨s', it⟩
    · rfl
    · obtain ⟨probe, heffect⟩ := insertUniq_cases hins
      exact (hno.not_insertEffect heffect).elim

private theorem sum_stash_full (h : ∀ pos, (s.bucket (.stash pos)).isFull) :
    ∑ pos, (s.bucket (.stash pos)).size = kStashBucketNum * P.kSlotNum := by
  rw [sum_congr rfl fun pos _ => h pos]
  simp

/-- With room in the home bucket, an insertion that does not spread goes there. -/
theorem insertUniq_of_not_full (key : K) (value : V)
    (h : ¬(s.bucket (.regular (homeIndex P hash))).isFull) :
    ∃ s' it, s.insertUniq key value hash false = some (s', it) ∧
      ∀ bid, bucketSize s'.cell bid
        = bucketSize s.cell bid + if bid = .regular (homeIndex P hash) then 1 else 0 := by
  have htry : (s.bucket (.regular (homeIndex P hash))).tryInsertToBucket key value (fpHash hash)
      false ≠ none := fun hnone => h (Bucket.tryInsertToBucket_eq_none.mp hnone)
  obtain ⟨⟨b, j⟩, hb⟩ := ne_none_iff_exists'.mp htry
  have hins : s.insertUniq key value hash false
      = some (s.set (.regular (homeIndex P hash)) b, (.regular (homeIndex P hash), j)) := by
    dsimp only [insertUniq]
    simp only [Bool.false_and, Bool.false_eq_true, if_false, hb]
  refine ⟨_, _, hins, fun bid => ?_⟩
  obtain ⟨hfree, rfl⟩ := Bucket.tryInsertToBucket_eq_some hb
  have hfree' : s.cell (.regular (homeIndex P hash), j) = none := hfree
  have hcell : (s.modify (.regular (homeIndex P hash)) fun b =>
      b.insert j key value (fpHash hash) false).cell
      = update s.cell (.regular (homeIndex P hash), j)
          (some ⟨key, value, fpHash hash, false⟩) := cell_modify_of_slot rfl
  have h := bucketSize_update s.cell (.regular (homeIndex P hash), j)
    (some ⟨key, value, fpHash hash, false⟩) bid
  rw [hfree'] at h
  rw [modify] at hcell
  rw [hcell]
  simpa using h

/-! ## §2 The Measure -/

/-- The entries still to be placed that exceed the capacity of their home buckets, plus the entries
    already in the stash; `need b` is the number of entries to be placed with home bucket `b`. -/
def roomNeeded (s : Segment P K V) (need : LogicalBid P → ℕ) : ℕ :=
  (∑ b, ((s.bucket (.regular b)).size + need b - P.kSlotNum)) + ∑ pos, (s.bucket (.stash pos)).size

/-- The stash takes what the home buckets cannot, or everything fits into two buckets and the
    stash. -/
def HasRoomFor (s : Segment P K V) (need : LogicalBid P → ℕ) : Prop :=
  s.roomNeeded need ≤ kStashBucketNum * P.kSlotNum ∨
    s.slowSize + ∑ b, need b ≤ (kStashBucketNum + 2) * P.kSlotNum

instance (s : Segment P K V) (need : LogicalBid P → ℕ) : Decidable (s.HasRoomFor need) :=
  inferInstanceAs (Decidable (_ ∨ _))

variable {need : LogicalBid P → ℕ}

theorem HasRoomFor.mono {need' : LogicalBid P → ℕ} (h : s.HasRoomFor need)
    (hle : ∀ b, need' b ≤ need b) : s.HasRoomFor need' := by
  refine h.imp (fun h => ?_) fun h => ?_
  · refine (Nat.add_le_add_right (sum_le_sum fun b _ => ?_) _).trans h
    have := hle b
    omega
  · exact (Nat.add_le_add_left (sum_le_sum fun b _ => hle b) _).trans h

theorem HasRoomFor.congr (h : s.HasRoomFor need) (hcell : s'.cell = s.cell) :
    s'.HasRoomFor need := by
  unfold HasRoomFor roomNeeded slowSize at h ⊢
  simp only [size_eq_bucketSize] at h ⊢
  rwa [hcell]

private theorem roomNeeded_le_of_full (hneed : 0 < need home)
    (hfull : (s.bucket (.regular home)).isFull)
    (hsizes : ∀ bid, bucketSize s'.cell bid = bucketSize s.cell bid + if bid = grown then 1
      else 0) :
    s'.roomNeeded (update need home (need home - 1)) ≤ s.roomNeeded need := by
  have hhome : bucketSize s.cell (.regular home) = P.kSlotNum :=
    (size_eq_bucketSize s _).symm.trans hfull
  -- a full bucket does not grow
  have hgrown : grown ≠ .regular home := by
    rintro rfl
    have hle := bucketSize_le s'.cell (.regular home)
    rw [hsizes, if_pos rfl, hhome] at hle
    omega
  unfold roomNeeded
  simp only [size_eq_bucketSize, hsizes]
  -- the term of the home bucket falls, that of the bucket that grew rises, each by at most one
  have hregular : (∑ b, (bucketSize s.cell (.regular b) + (if .regular b = grown then 1 else 0)
        + update need home (need home - 1) b - P.kSlotNum)) + 1
      ≤ (∑ b, (bucketSize s.cell (.regular b) + need b - P.kSlotNum))
        + ∑ b, if .regular b = grown then 1 else 0 := by
    have hone : (1 : ℕ) = ∑ b, if b = home then 1 else 0 := by
      simp
    rw [hone, ← sum_add_distrib, ← sum_add_distrib]
    apply sum_le_sum
    intro b _
    by_cases hb : b = home
    · subst hb
      rw [update_self, if_pos rfl, if_neg hgrown.symm, hhome]
      omega
    · rw [update_of_ne hb, if_neg hb]
      split <;> omega
  have hsum := sum_grown grown
  rw [sum_add_distrib]
  omega

section

variable (hneed : 0 < need (homeIndex P hash)) (key : K) (value : V)
include hneed

/-- The stash takes what the home buckets cannot: an insertion succeeds, and this stays so. -/
private theorem insertUniq_of_roomNeeded (h : s.roomNeeded need ≤ kStashBucketNum * P.kSlotNum) :
    ∃ s' it, s.insertUniq key value hash false = some (s', it) ∧
      s'.roomNeeded (update need (homeIndex P hash) (need (homeIndex P hash) - 1))
        ≤ kStashBucketNum * P.kSlotNum := by
  by_cases hfull : (s.bucket (.regular (homeIndex P hash))).isFull
  · rcases hins : s.insertUniq key value hash false with _ | ⟨s', it⟩
    · -- a failure would put the measure over the capacity of the stash
      exfalso
      have hsize := sum_stash_full ((insertUniq_eq_none_iff _ _ _).mp hins).stash
      have hterm := single_le_sum
        (f := fun b => (s.bucket (.regular b)).size + need b - P.kSlotNum)
        (fun b _ => Nat.zero_le _) (mem_univ (homeIndex P hash))
      have hfull' : (s.bucket (.regular (homeIndex P hash))).size = P.kSlotNum := hfull
      unfold roomNeeded at h
      omega
    · obtain ⟨probe, heffect⟩ := insertUniq_cases hins
      obtain ⟨grown, hsizes⟩ := heffect.sizes
      exact ⟨s', it, rfl, (roomNeeded_le_of_full hneed hfull hsizes).trans h⟩
  · obtain ⟨s', it, hins, hsizes⟩ := insertUniq_of_not_full key value hfull
    refine ⟨s', it, hins, le_of_eq_of_le ?_ h⟩
    -- the entry moves from the demand on its home bucket into the bucket
    unfold roomNeeded
    simp only [size_eq_bucketSize, hsizes, reduceCtorEq, if_false, add_zero]
    congr 1
    apply sum_congr rfl
    intro b _
    by_cases hb : b = homeIndex P hash
    · subst hb
      rw [update_self, if_pos rfl]
      omega
    · simp [update_of_ne hb, if_neg (by simpa using hb)]

/-- Everything fits into two buckets and the stash: an insertion succeeds, and this stays so. -/
private theorem insertUniq_of_slowSize
    (h : s.slowSize + ∑ b, need b ≤ (kStashBucketNum + 2) * P.kSlotNum) :
    ∃ s' it, s.insertUniq key value hash false = some (s', it) ∧
      s'.slowSize + ∑ b, update need (homeIndex P hash) (need (homeIndex P hash) - 1) b
        ≤ (kStashBucketNum + 2) * P.kSlotNum := by
  have hless := Lib.sum_exchange (fun (_ : LogicalBid P) (n : ℕ) => n) need (homeIndex P hash)
    (need (homeIndex P hash) - 1)
  rcases hins : s.insertUniq key value hash false with _ | ⟨s', it⟩
  · exfalso
    obtain ⟨hhome, hnext, -, -, hstash⟩ := (insertUniq_eq_none_iff _ _ _).mp hins
    have hsize := sum_stash_full hstash
    have hpair := sum_le_sum_of_subset
      (f := fun b => (s.bucket (.regular b)).size)
      (subset_univ {homeIndex P hash, nextBid (homeIndex P hash)})
    rw [sum_pair (nextBid_ne _).symm, show _ = P.kSlotNum from hhome,
      show _ = P.kSlotNum from hnext] at hpair
    unfold slowSize at h
    rw [Nat.add_mul] at h
    omega
  · obtain ⟨probe, heffect⟩ := insertUniq_cases hins
    obtain ⟨grown, hsizes⟩ := heffect.sizes
    refine ⟨s', it, rfl, ?_⟩
    rw [slowSize_grow hsizes]
    omega

/-- **While there is room, an insertion succeeds** and leaves room for the rest. -/
theorem HasRoomFor.insertUniq (h : s.HasRoomFor need) :
    ∃ s' it, s.insertUniq key value hash false = some (s', it) ∧
      s'.HasRoomFor (update need (homeIndex P hash) (need (homeIndex P hash) - 1)) := by
  rcases h with h | h
  · obtain ⟨s', it, hins, hroom⟩ := insertUniq_of_roomNeeded hneed key value h
    exact ⟨s', it, hins, .inl hroom⟩
  · obtain ⟨s', it, hins, hroom⟩ := insertUniq_of_slowSize hneed key value h
    exact ⟨s', it, hins, .inr hroom⟩

end

/-! ## §3 Demand -/

section

variable (hashFn : K → Hash)

/-- What one cell contributes to the accepted entries with home bucket `b`. -/
def demandOf (p : K → Bool) (b : LogicalBid P) : Option (Slot K V) → ℕ
  | some e => if p e.key = true ∧ homeIndex P (hashFn e.key) = b then 1 else 0
  | none => 0

/-- The number of accepted entries with home bucket `b`. -/
def demand (p : K → Bool) (c : Cells P K V) (b : LogicalBid P) : ℕ :=
  ∑ it : Iterator P, demandOf hashFn p b (c it)

theorem demand_update (p : K → Bool) (c : Cells P K V) (it : Iterator P)
    (o : Option (Slot K V)) (b : LogicalBid P) :
    demand hashFn p (update c it o) b + demandOf hashFn p b (c it)
      = demand hashFn p c b + demandOf hashFn p b o :=
  Lib.sum_exchange (fun _ => demandOf hashFn p b) c it o

theorem demand_erase {p : K → Bool} {c : Cells P K V} (he : c it = some e)
    (hp : p e.key = true) :
    0 < demand hashFn p c (homeIndex P (hashFn e.key)) ∧
      demand hashFn p (update c it none)
        = update (demand hashFn p c) (homeIndex P (hashFn e.key))
            (demand hashFn p c (homeIndex P (hashFn e.key)) - 1) := by
  have h := fun b => demand_update hashFn p c it none b
  simp only [he, demandOf, hp, true_and, add_zero] at h
  have hhome := h (homeIndex P (hashFn e.key))
  rw [if_pos rfl] at hhome
  refine ⟨by omega, funext fun b => ?_⟩
  by_cases hb : b = homeIndex P (hashFn e.key)
  · subst hb
    rw [update_self]
    omega
  · have hb' := h b
    rw [if_neg (Ne.symm hb), add_zero] at hb'
    rw [update_of_ne hb, hb']

theorem demand_move (p : K → Bool) {c : Cells P K V} {it' : Iterator P}
    (he : c it = some e) (hfree : c it' = none) (e' : Slot K V) (hkey : e'.key = e.key)
    (b : LogicalBid P) :
    demand hashFn p (update (update c it none) it' (some e')) b = demand hashFn p c b := by
  have hne : it' ≠ it := by
    rintro rfl
    rw [he] at hfree
    cases hfree
  have herase := demand_update hashFn p c it none b
  have hput := demand_update hashFn p (update c it none) it' (some e') b
  rw [update_of_ne hne, hfree] at hput
  rw [he] at herase
  simp only [demandOf, hkey, add_zero] at herase hput
  omega

end

end Segment
end Drakeydb.Dash
