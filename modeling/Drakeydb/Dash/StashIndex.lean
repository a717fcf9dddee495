import Drakeydb.Dash.Segment

/-!
# The Stash Index of a Segment

A stash bucket holds entries of any home bucket. What makes them findable is an index kept by the
regular buckets: the pointers a bucket holds for itself, the pointers its neighbour holds for it,
and a counter of the stash entries without a pointer. `Indexes s R` says that this index tracks,
for every home bucket `y`, the stash entries `R y`. The two lemmas below are all the rest of the
development needs to know about `SetStashPtr` and `UnsetStashPtr`.
-/

namespace Drakeydb.Dash

open Function

namespace Segment

variable {P : Policy} {K V : Type} (s : Segment P K V)

/-! ## §1 Reading and Writing Buckets -/

variable (bid : PhysicalBid P)

@[simp] theorem set_bucket_self (b : Bucket P K V) : (s.set bid b).bucket bid = b := update_self ..

theorem set_bucket_of_ne {bid bid' : PhysicalBid P} (h : bid' ≠ bid) (b : Bucket P K V) :
    (s.set bid b).bucket bid' = s.bucket bid' := update_of_ne h ..

variable (f : Bucket P K V → Bucket P K V)

@[simp] theorem modify_bucket_self : (s.modify bid f).bucket bid = f (s.bucket bid) :=
  set_bucket_self ..

theorem modify_bucket_of_ne {bid bid' : PhysicalBid P} (h : bid' ≠ bid)
    (f : Bucket P K V → Bucket P K V) : (s.modify bid f).bucket bid' = s.bucket bid' :=
  set_bucket_of_ne _ h _

@[simp] theorem modify_localDepth : (s.modify bid f).localDepth = s.localDepth := rfl

/-- What one regular bucket contributes to the index. -/
def stashMeta (b : LogicalBid P) : (Fin kStashFpLen → Option StashRef) × UInt8 × Bool :=
  let bk := s.bucket (.regular b)
  (bk.stashRef, bk.overflowCount, bk.stashPresent)

/-! ## §2 The Index -/

/-- The pointers to the stash entries of home bucket `y`. -/
def refs (y : LogicalBid P) : Multiset (UInt8 × StashPos) :=
  (s.bucket (.regular y)).refs false + (s.bucket (.regular (nextBid y))).refs true

/-- The counter of home bucket `y`. -/
def overflow (y : LogicalBid P) : ℕ := (s.bucket (.regular y)).overflowCount.toNat

/-- The flag of home bucket `y`. -/
def present (y : LogicalBid P) : Bool := (s.bucket (.regular y)).stashPresent

/-- How many stale pointers a bucket can have before its eight bit counter is at risk. -/
def staleLimit (P : Policy) : ℕ := 255 - kStashBucketNum * P.kSlotNum

/-- The index tracks the stash entries `R y` of every home bucket `y`. -/
def Indexes (R : LogicalBid P → Multiset (UInt8 × StashPos)) : Prop :=
  ∀ y, Lib.Tracks (staleLimit P) (R y) (s.refs y) (s.overflow y) (s.present y)

variable {s} {s' : Segment P K V}

theorem refs_congr
    (h : ∀ b, (s'.bucket (.regular b)).stashRef = (s.bucket (.regular b)).stashRef)
    (y : LogicalBid P) :
    s'.refs y = s.refs y := by
  simp only [refs, Bucket.refs, h]

variable {R : LogicalBid P → Multiset (UInt8 × StashPos)}

/-- The index lives in the stash pointers, the counters and the flags. -/
theorem Indexes.congr (h : s.Indexes R) (hmeta : ∀ b, s'.stashMeta b = s.stashMeta b) :
    s'.Indexes R := by
  intro y
  have hrefs : s'.refs y = s.refs y := refs_congr (fun b => congrArg Prod.fst (hmeta b)) y
  have hover : s'.overflow y = s.overflow y :=
    congrArg (fun m : _ × UInt8 × Bool => m.2.1.toNat) (hmeta y)
  have hpresent : s'.present y = s.present y :=
    congrArg (fun m : _ × UInt8 × Bool => m.2.2) (hmeta y)
  rw [hrefs, hover, hpresent]
  exact h y

/-! ## §3 Writing One Pointer -/

/-- The home bucket served by a pointer of bucket `b` with this probe bit. -/
def refOwner (b : LogicalBid P) (probe : Bool) : LogicalBid P := if probe then prevBid b else b

/-- What a pointer of bucket `b` contributes to the pointers of home bucket `y`. -/
def refFor (y b : LogicalBid P) : Option StashRef → Multiset (UInt8 × StashPos)
  | some r => if refOwner b r.probe = y then {(r.fp, r.pos)} else 0
  | none => 0

/-- Overwriting a pointer: the new one comes in, the old one goes out, for the home buckets they
    serve. -/
theorem refs_putRef (b : LogicalBid P) (i : Fin kStashFpLen) (r : Option StashRef)
    (y : LogicalBid P) :
    (s.set (.regular b) ((s.bucket (.regular b)).putRef i r)).refs y
        + refFor y b ((s.bucket (.regular b)).stashRef i) = s.refs y + refFor y b r := by
  have hput := fun pr => Bucket.refs_putRef (b := s.bucket (.regular b)) i r pr
  have hne : nextBid y ≠ y := nextBid_ne y
  -- a pointer with probe bit `pr` counts where a bucket reads its pointers with that bit
  have hfor : ∀ o : Option StashRef,
      refFor y b o = (if b = y then Bucket.refOf false o else 0)
        + if b = nextBid y then Bucket.refOf true o else 0 := by
    rintro (_ | ⟨fp, pos, pr⟩)
    · simp [refFor, Bucket.refOf]
    · have hprev : prevBid b = y ↔ b = nextBid y :=
        ⟨fun h => by rw [← h, nextBid_prevBid], fun h => by rw [h, prevBid_nextBid]⟩
      cases pr <;> simp [refFor, refOwner, Bucket.refOf, hprev]
  rw [hfor, hfor]
  unfold refs
  by_cases hb : b = y
  · subst hb
    have hb' : b ≠ nextBid b := hne.symm
    rw [set_bucket_self, set_bucket_of_ne _ (by simpa using hne)]
    simp only [if_true, if_neg hb', add_zero]
    rw [add_right_comm, hput false, add_right_comm]
  · by_cases hn : b = nextBid y
    · subst hn
      rw [set_bucket_self, set_bucket_of_ne _ (by simpa using hne.symm)]
      simp only [if_true, if_neg hne, zero_add]
      rw [add_assoc, hput true, add_assoc]
    · have hny : PhysicalBid.regular (nextBid y) ≠ .regular b := by simpa [eq_comm] using hn
      have hy : PhysicalBid.regular y ≠ .regular b := by simpa [eq_comm] using hb
      rw [set_bucket_of_ne _ hy, set_bucket_of_ne _ hny]
      simp [hb, hn]

variable {i : Fin kStashFpLen} {b : LogicalBid P}

theorem refs_putRef_of_free (r : StashRef) (hfree : (s.bucket (.regular b)).stashRef i = none)
    (y : LogicalBid P) :
    (s.set (.regular b) ((s.bucket (.regular b)).putRef i (some r))).refs y
      = if refOwner b r.probe = y then (r.fp, r.pos) ::ₘ s.refs y else s.refs y := by
  have h := refs_putRef b i (some r) y (s := s)
  rw [hfree] at h
  simp only [refFor, add_zero] at h
  rw [h]
  split
  · exact Multiset.add_cons .. |>.trans (by simp)
  · exact add_zero _

theorem refs_putRef_none {r : StashRef} (hused : (s.bucket (.regular b)).stashRef i = some r)
    (y : LogicalBid P) :
    s.refs y = if refOwner b r.probe = y
      then (r.fp, r.pos) ::ₘ (s.set (.regular b) ((s.bucket (.regular b)).putRef i none)).refs y
      else (s.set (.regular b) ((s.bucket (.regular b)).putRef i none)).refs y := by
  have h := refs_putRef b i none y (s := s)
  rw [hused] at h
  simp only [refFor, add_zero] at h
  rw [← h]
  split
  · exact Multiset.add_cons .. |>.trans (by simp)
  · exact add_zero _

/-! ## §4 Setting a Pointer -/

/-- What `SetStashPtr` does: it takes a free pointer that serves the bucket, or it counts. -/
theorem setStashPtr_cases (s : Segment P K V) (y : LogicalBid P) (pos : StashPos) (fp : UInt8) :
    ∃ s', s.setStashPtr y pos fp
        = s'.modify (.regular y) (fun b => { b with stashPresent := true }) ∧
      ((∃ b i pr, refOwner b pr = y ∧ (s.bucket (.regular b)).stashRef i = none ∧
          s' = s.set (.regular b) ((s.bucket (.regular b)).putRef i (some ⟨fp, pos, pr⟩))) ∨
        s' = s.modify (.regular y) fun b => { b with overflowCount := b.overflowCount + 1 }) := by
  refine ⟨_, rfl, ?_⟩
  split
  case h_1 b hb =>
    obtain ⟨i, hi, rfl⟩ := Bucket.setStash_eq_some hb
    exact .inl ⟨y, i, false, rfl, hi, rfl⟩
  case h_2 =>
    split
    case h_1 b hb =>
      obtain ⟨i, hi, rfl⟩ := Bucket.setStash_eq_some hb
      exact .inl ⟨nextBid y, i, true, prevBid_nextBid y, hi, rfl⟩
    case h_2 => exact .inr rfl

/-- Changing the counter or the flag of one bucket. -/
private theorem index_modify (s : Segment P K V) (y : LogicalBid P)
    {f : Bucket P K V → Bucket P K V}
    (hf : ∀ b, (f b).stashRef = b.stashRef) (y' : LogicalBid P) :
    (s.modify (.regular y) f).refs y' = s.refs y' ∧
    (s.modify (.regular y) f).overflow y' =
      (if y' = y then (f (s.bucket (.regular y'))).overflowCount.toNat else s.overflow y') ∧
    (s.modify (.regular y) f).present y' =
      if y' = y then (f (s.bucket (.regular y'))).stashPresent else s.present y' := by
  have hbucket : ∀ b, (s.modify (.regular y) f).bucket (.regular b) =
      if b = y then f (s.bucket (.regular b)) else s.bucket (.regular b) := by
    intro b
    by_cases hb : b = y
    · subst hb
      simp
    · rw [modify_bucket_of_ne _ (by simpa using hb), if_neg hb]
  refine ⟨refs_congr (fun b => ?_) y', ?_, ?_⟩
  · rw [hbucket]
    split
    · exact hf _
    · rfl
  · rw [overflow, hbucket]
    split <;> rfl
  · rw [present, hbucket]
    split <;> rfl

/-- Overwriting a pointer leaves the counters and the flags alone. -/
private theorem index_set_putRef (s : Segment P K V) (b : LogicalBid P) (i : Fin kStashFpLen)
    (r : Option StashRef) (y : LogicalBid P) :
    (s.set (.regular b) ((s.bucket (.regular b)).putRef i r)).overflow y = s.overflow y ∧
    (s.set (.regular b) ((s.bucket (.regular b)).putRef i r)).present y = s.present y := by
  unfold overflow present
  by_cases hb : y = b
  · subst hb
    rw [set_bucket_self]
    exact ⟨rfl, rfl⟩
  · rw [set_bucket_of_ne _ (by simpa using hb)]
    exact ⟨rfl, rfl⟩

variable {y : LogicalBid P}

/-- **Setting a pointer** brings a new stash entry of home bucket `y` under the index, as long as
    the counter is not at its maximum. -/
theorem Indexes.setStashPtr (h : s.Indexes R) (hmax : s.overflow y < 255) (pos : StashPos)
    (fp : UInt8) :
    (s.setStashPtr y pos fp).Indexes (Function.update R y ((fp, pos) ::ₘ R y)) := by
  obtain ⟨s', heq, hs'⟩ := setStashPtr_cases s y pos fp
  intro y'
  obtain ⟨hrefs, hover, hpresent⟩ :=
    index_modify s' y (f := fun b => { b with stashPresent := true }) (fun _ => rfl) y'
  rw [heq, hrefs, hover.trans (ite_self (s'.overflow y')), hpresent]
  have hy' := h y'
  rcases hs' with ⟨b, i, pr, howner, hfree, rfl⟩ | rfl
  · -- a free pointer was taken, in the bucket itself or in its neighbour
    rw [refs_putRef_of_free _ hfree, howner, (index_set_putRef s b i _ y').1,
      (index_set_putRef s b i _ y').2]
    by_cases hy : y' = y
    · subst hy
      simpa using hy'.add_ref
    · simpa [hy, Ne.symm hy] using hy'
  · -- all pointers are in use
    obtain ⟨hrefs', hover', hpresent'⟩ :=
      index_modify s y (f := fun b => { b with overflowCount := b.overflowCount + 1 })
        (fun _ => rfl) y'
    rw [hrefs', hover', hpresent'.trans (ite_self (s.present y'))]
    by_cases hy : y' = y
    · subst hy
      have hsucc : ((s.bucket (.regular y')).overflowCount + 1).toNat = s.overflow y' + 1 := by
        unfold overflow at hmax ⊢
        exact Nat.mod_eq_of_lt (by simpa using Nat.succ_lt_succ hmax)
      rw [if_pos rfl, if_pos rfl, hsucc, update_self]
      exact hy'.add_overflow
    · simpa [hy] using hy'

/-! ## §5 Unsetting a Pointer -/

/-- What `UnsetStashPtr` does: it frees a pointer that serves the bucket, or it counts down; the
    flag falls when nothing is left. -/
theorem unsetStashPtr_cases (s : Segment P K V) (y : LogicalBid P) (fp : UInt8) (pos : StashPos) :
    ∃ s', ∃ unused : Bool, (s.unsetStashPtr y fp pos).1
        = s'.modify (.regular y) (fun b => { b with stashPresent := b.stashPresent && !unused }) ∧
      (unused = decide (s'.refs y = 0 ∧ s'.overflow y = 0)) ∧
      ((∃ b i pr, refOwner b pr = y ∧ (s.bucket (.regular b)).stashRef i = some ⟨fp, pos, pr⟩ ∧
          s' = s.set (.regular b) ((s.bucket (.regular b)).putRef i none)) ∨ ((fp, pos) ∉ s.refs y ∧
          s' = s.modify (.regular y) fun b =>
            { b with overflowCount := b.overflowCount - 1 })) := by
  refine ⟨_, _, rfl, ?_, ?_⟩
  · -- the flag is computed from the two buckets that can hold pointers for this one
    have hadd (a b : Multiset (UInt8 × StashPos)) : a + b = 0 ↔ a = 0 ∧ b = 0 := by
      simp [← Multiset.card_eq_zero]
    rw [Bool.eq_iff_iff, decide_eq_true_eq, Bool.and_eq_true, Bool.and_eq_true,
      Bucket.noStashRef_iff, Bucket.noStashRef_iff, refs, hadd, overflow, beq_iff_eq,
        ← UInt8.toNat_inj]
    tauto
  · split
    case h_1 b hb =>
      obtain ⟨i, hi, rfl⟩ := Bucket.clearStash_eq_some hb
      exact .inl ⟨y, i, false, rfl, hi, rfl⟩
    case h_2 hown =>
      split
      case h_1 b hb =>
        obtain ⟨i, hi, rfl⟩ := Bucket.clearStash_eq_some hb
        exact .inl ⟨nextBid y, i, true, prevBid_nextBid y, hi, rfl⟩
      case h_2 hnext =>
        refine .inr ⟨?_, rfl⟩
        rw [refs, Multiset.mem_add]
        rintro (hmem | hmem)
        · exact Bucket.clearStash_eq_none hown hmem
        · exact Bucket.clearStash_eq_none hnext hmem

/-- **Unsetting a pointer** takes a stash entry of home bucket `y` out of the index. -/
theorem Indexes.unsetStashPtr {fp : UInt8} {pos : StashPos}
    (h : s.Indexes (Function.update R y ((fp, pos) ::ₘ R y))) :
    (s.unsetStashPtr y fp pos).1.Indexes R := by
  obtain ⟨s', unused, heq, hunused, hs'⟩ := unsetStashPtr_cases s y fp pos
  intro y'
  obtain ⟨hrefs, hover, (hpresent : _ = if y' = y then s'.present y' && !unused
    else s'.present y')⟩ :=
    index_modify s' y (f := fun b => { b with stashPresent := b.stashPresent && !unused })
      (fun _ => rfl) y'
  rw [heq, hrefs, hover.trans (ite_self (s'.overflow y')), hpresent]
  have hy' := h y'
  rcases hs' with ⟨b, i, pr, howner, hused, rfl⟩ | ⟨hmem, rfl⟩
  · -- the entry had a pointer, in the bucket itself or in its neighbour
    rw [(index_set_putRef s b i _ y').1, (index_set_putRef s b i _ y').2]
    rw [refs_putRef_none hused] at hy'
    by_cases hy : y' = y
    · subst hy
      rw [update_self, if_pos howner] at hy'
      rw [if_pos rfl, hunused, (index_set_putRef s b i _ y').1]
      exact hy'.remove_ref
    · rw [update_of_ne hy, if_neg (howner ▸ Ne.symm hy)] at hy'
      rwa [if_neg hy]
  · -- the entry was only counted
    obtain ⟨hrefs', hover', hpresent'⟩ :=
      index_modify s y (f := fun b => { b with overflowCount := b.overflowCount - 1 })
        (fun _ => rfl) y'
    rw [hrefs', hover', hpresent'.trans (ite_self (s.present y'))]
    by_cases hy : y' = y
    · subst hy
      rw [update_self] at hy'
      obtain ⟨hpos, hrest⟩ := hy'.remove_overflow hmem
      have hpred : ((s.bucket (.regular y')).overflowCount - 1).toNat = s.overflow y' - 1 := by
        have hle : (1 : UInt8) ≤ (s.bucket (.regular y')).overflowCount :=
          UInt8.le_iff_toNat_le.mpr hpos
        rw [UInt8.toNat_sub_of_le _ _ hle]
        rfl
      rw [if_pos rfl, if_pos rfl, hunused, hrefs', hover', if_pos rfl, hpred]
      exact hrest
    · rw [update_of_ne hy] at hy'
      rwa [if_neg hy, if_neg hy]

/-! ## §6 What the Pointers Leave Alone -/

/-- `s'` differs from `s` in stash pointers, counters and flags only. -/
def KeepsData (s s' : Segment P K V) : Prop :=
  s'.localDepth = s.localDepth ∧ ∀ bid, (s'.bucket bid).slot = (s.bucket bid).slot ∧
    (s'.bucket bid).version = (s.bucket bid).version

theorem KeepsData.trans {s s'' : Segment P K V} (h : KeepsData s s') (h' : KeepsData s' s'') :
    KeepsData s s'' :=
  ⟨h'.1.trans h.1, fun bid => ⟨(h'.2 bid).1.trans (h.2 bid).1, (h'.2 bid).2.trans (h.2 bid).2⟩⟩

theorem keepsData_modify (s : Segment P K V) (bid : PhysicalBid P) {f : Bucket P K V → Bucket P K V}
    (hf : ∀ b, (f b).slot = b.slot ∧ (f b).version = b.version) : KeepsData s (s.modify bid f) := by
  refine ⟨rfl, fun bid' => ?_⟩
  by_cases hb : bid' = bid
  · subst hb
    rw [modify_bucket_self]
    exact hf _
  · rw [modify_bucket_of_ne _ hb]
    exact ⟨rfl, rfl⟩

theorem keepsData_setStashPtr (s : Segment P K V) (y : LogicalBid P) (pos : StashPos)
    (fp : UInt8) : KeepsData s (s.setStashPtr y pos fp) := by
  obtain ⟨s', heq, hs'⟩ := setStashPtr_cases s y pos fp
  have hstep : KeepsData s s' := by
    rcases hs' with ⟨b, i, pr, -, -, rfl⟩ | rfl
    · exact keepsData_modify s (.regular b) (f := fun b => b.putRef i _) fun _ => ⟨rfl, rfl⟩
    · exact keepsData_modify s _ fun _ => ⟨rfl, rfl⟩
  rw [heq]
  exact hstep.trans (keepsData_modify s' _ fun _ => ⟨rfl, rfl⟩)

theorem keepsData_unsetStashPtr (s : Segment P K V) (y : LogicalBid P) (fp : UInt8)
    (pos : StashPos) : KeepsData s (s.unsetStashPtr y fp pos).1 := by
  obtain ⟨s', unused, heq, -, hs'⟩ := unsetStashPtr_cases s y fp pos
  have hstep : KeepsData s s' := by
    rcases hs' with ⟨b, i, pr, -, -, rfl⟩ | ⟨-, rfl⟩
    · exact keepsData_modify s (.regular b) (f := fun b => b.putRef i none) fun _ => ⟨rfl, rfl⟩
    · exact keepsData_modify s _ fun _ => ⟨rfl, rfl⟩
  rw [heq]
  exact hstep.trans (keepsData_modify s' _ fun _ => ⟨rfl, rfl⟩)

end Segment
end Drakeydb.Dash
