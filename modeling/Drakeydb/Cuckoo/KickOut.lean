import Drakeydb.Lib.Matching
import Drakeydb.Cuckoo.Filter

/-!
# Kicking out

`KOInsert` keeps a fingerprint in hand: together with those in the filter it is what was there
before, with the new one. A swap changes nothing of that, and a jump takes the one in hand to its
other bucket, which is as good. If no free slot is found in time, the second loop undoes the swaps
one by one.
-/

namespace Drakeydb.Cuckoo

open Lib.Matching List Function

namespace CuckooFilter

variable {f f' : CuckooFilter} {live : Multiset UInt64}

/-- **Every live hash has a fingerprint of its own**, where it is looked for. -/
structure Matched (f : CuckooFilter) (live : Multiset UInt64) : Prop where
  shaped : f.Shaped
  rel : Multiset.Rel (Holds f.numBucketsOf) live f.entries

/-- Everything but the contents of the slots. -/
structure SameSizes (f f' : CuckooFilter) : Prop where
  slotsPerBucket : f'.slotsPerBucket = f.slotsPerBucket
  expansion : f'.expansion = f.expansion
  numBuckets : f'.numBuckets = f.numBuckets
  maxIterations : f'.maxIterations = f.maxIterations
  lengths : f'.filters.map List.length = f.filters.map List.length

theorem SameSizes.refl (f : CuckooFilter) : SameSizes f f := ⟨rfl, rfl, rfl, rfl, rfl⟩

theorem SameSizes.trans {f'' : CuckooFilter} (h : SameSizes f f') (h' : SameSizes f' f'') :
    SameSizes f f'' :=
  ⟨h'.slotsPerBucket.trans h.slotsPerBucket, h'.expansion.trans h.expansion,
    h'.numBuckets.trans h.numBuckets,
    h'.maxIterations.trans h.maxIterations, h'.lengths.trans h.lengths⟩

theorem sameSizes_set (f : CuckooFilter) (q : Slot) (c : UInt8) : SameSizes f (f.set q c) := by
  refine ⟨rfl, rfl, rfl, rfl, ?_⟩
  apply ext_getElem?
  intro i
  rw [getElem?_map, getElem?_map, set, getElem?_modify, Option.map_eq_map, Option.map_map]
  cases f.filters[i]? with
  | none => rfl
  | some sf =>
    split
    · simp
    · rfl

section

variable (h : SameSizes f f')
include h

theorem SameSizes.length_filters : f'.filters.length = f.filters.length := by
  have := congrArg length h.lengths
  rwa [length_map, length_map] at this

theorem SameSizes.length_getD (i : ℕ) :
    (f'.filters.getD i []).length = (f.filters.getD i []).length := by
  have hget := congrArg (fun l => l[i]?.getD 0) h.lengths
  cases hf : f.filters[i]? <;> cases hf' : f'.filters[i]? <;> simp_all

theorem SameSizes.numBucketsOf : f'.numBucketsOf = f.numBucketsOf := by
  funext i
  rw [CuckooFilter.numBucketsOf, CuckooFilter.numBucketsOf, h.length_getD, h.slotsPerBucket]

theorem SameSizes.shaped (hf : f.Shaped) : f'.Shaped where
  slots_pos := h.slotsPerBucket ▸ hf.slots_pos
  numBuckets := h.numBuckets ▸ hf.numBuckets
  expansion := h.expansion ▸ hf.expansion
  single := fun hzero => by
    rw [h.length_filters]
    exact hf.single (h.expansion ▸ hzero)
  length := fun i hi => by
    rw [h.length_filters] at hi
    rw [h.length_getD, h.numBuckets, h.expansion, h.slotsPerBucket]
    exact hf.length i hi

end

/-! ## §1 Undoing -/

namespace Kick

variable {i n m : ℕ} {k : Kick}

/-- The hand is at a slot of sub-filter `i`, which has `n` buckets. -/
structure InRange (i n : ℕ) (k : Kick) : Prop where
  shaped : k.filter.Shaped
  lt : i < k.filter.filters.length
  buckets : k.filter.numBucketsOf i = n
  idx : k.idx < n
  victimSlot : k.victimSlot < k.filter.slotsPerBucket

section

variable (h : k.InRange i n)
include h

theorem InRange.div_slot : (k.slot i).2 / k.filter.slotsPerBucket = k.idx :=
  bucket_of_slot h.victimSlot

theorem InRange.mem_slots : k.slot i ∈ k.filter.slots := by
  apply h.shaped.mem_slots_of_div h.lt
  rw [h.div_slot]
  exact h.buckets ▸ h.idx

theorem InRange.exists_pow : ∃ m, n = 2 ^ m := by
  obtain ⟨m, hm⟩ := h.shaped.numBucketsOf_eq_pow h.lt
  exact ⟨m, h.buckets.symm.trans hm⟩

theorem InRange.swap : (k.swap i).InRange i n where
  shaped := h.shaped.set _ _
  lt := by
    rw [Kick.swap, length_filters_set]
    exact h.lt
  buckets := by
    rw [Kick.swap, numBucketsOf_set]
    exact h.buckets
  idx := h.idx
  victimSlot := h.victimSlot

theorem InRange.jump : (k.jump n).InRange i n where
  shaped := h.shaped
  lt := h.lt
  buckets := h.buckets
  idx := Nat.mod_lt _ (Nat.lt_of_le_of_lt (Nat.zero_le _) h.idx)
  victimSlot := h.victimSlot

theorem InRange.nextVictim : k.nextVictim.InRange i n where
  shaped := h.shaped
  lt := h.lt
  buckets := h.buckets
  idx := h.idx
  victimSlot := Nat.mod_lt _ h.shaped.slots_pos

theorem InRange.forward : (k.forward i n).InRange i n := h.swap.jump.nextVictim

end

theorem prev_next {v spb : ℕ} (h : v < spb) : ((v + 1) % spb + spb - 1) % spb = v := by
  rcases Nat.lt_or_ge (v + 1) spb with hlt | hge
  · simp [Nat.mod_eq_of_lt hlt, show v + 1 + spb - 1 = v + spb by omega, Nat.mod_eq_of_lt h]
  · rw [show v + 1 = spb by omega, Nat.mod_self, Nat.zero_add, Nat.mod_eq_of_lt (by omega)]
    omega

/-- **A swap is undone**: from the other bucket of the fingerprint in hand back to where it was. -/
theorem backward_forward (h : k.InRange i n) : (k.forward i n).backward i n = k := by
  obtain ⟨m, rfl⟩ := h.exists_pow
  have hvictim : ((k.victimSlot + 1) % k.filter.slotsPerBucket + k.filter.slotsPerBucket - 1) %
      k.filter.slotsPerBucket = k.victimSlot := prev_next h.victimSlot
  have hidx :
    altIndex (k.filter.get (k.slot i)) (altIndex (k.filter.get (k.slot i)) k.idx % 2 ^ m) % 2 ^ m =
      k.idx := by
    rw [altIndex_mod, altIndex_altIndex, Nat.mod_eq_of_lt h.idx]
  have hback : (k.forward i (2 ^ m)).prevVictim.jump (2 ^ m) =
      ⟨k.filter.set (k.slot i) k.fp, k.idx, k.filter.get (k.slot i), k.victimSlot⟩ := by
    rw [Kick.jump, Kick.prevVictim, Kick.forward, Kick.nextVictim, Kick.jump, Kick.swap]
    congr 1
  rw [backward, hback, Kick.swap]
  simp only [Kick.slot] at *
  have hmem := h.mem_slots
  rw [Kick.slot] at hmem
  have hfilter :
    (k.filter.set (i, k.idx * k.filter.slotsPerBucket + k.victimSlot) k.fp).slotsPerBucket =
      k.filter.slotsPerBucket := rfl
  simp only [hfilter, set_set, set_get, get_set_self hmem]

theorem undo_forward (h : k.InRange i n) (rounds : ℕ) :
    Kick.undo i n rounds ((forward i n)^[rounds] k) = k := by
  have hrange : ∀ r, ((forward i n)^[r] k).InRange i n := by
    intro r
    induction r with
    | zero => exact h
    | succ r ih =>
      rw [iterate_succ_apply']
      exact ih.forward
  induction rounds with
  | zero => rfl
  | succ r ih =>
    rw [iterate_succ_apply', Kick.undo, backward_forward (hrange r)]
    exact ih

theorem eq_of_run_inr {rounds : ℕ} {k' : Kick} (h : Kick.run i n rounds k = .inr k') :
    k' = (forward i n)^[rounds] k := by
  induction rounds generalizing k with
  | zero =>
    cases h
    rfl
  | succ r ih =>
    simp only [Kick.run] at h
    split at h
    · cases h
    · exact ih h

/-! ## §2 Placing -/

/-- The bucket at which the hand is is full, and with the fingerprint in hand every live hash has
one. -/
structure Carries (i n : ℕ) (live : Multiset UInt64) (k : Kick) : Prop where
  inRange : k.InRange i n
  fp_ne : k.fp ≠ 0
  full : ∀ q ∈ k.filter.bucketSlots i k.idx, k.filter.get q ≠ 0
  rel : Multiset.Rel (Holds k.filter.numBucketsOf) live (⟨i, k.idx, k.fp⟩ ::ₘ k.filter.entries)

theorem InRange.mem_bucketSlots (h : k.InRange i n) : k.slot i ∈ k.filter.bucketSlots i k.idx :=
  (CuckooFilter.mem_bucketSlots h.shaped.slots_pos).mpr ⟨rfl, h.div_slot⟩

/-- The swap: what is in hand and what is in the filter are the same together. -/
theorem Carries.swap (h : k.Carries i n live) :
    (k.swap i).fp ≠ 0 ∧ Multiset.Rel (Holds (k.swap i).filter.numBucketsOf) live
      (⟨i, k.idx, (k.swap i).fp⟩ ::ₘ (k.swap i).filter.entries) := by
  have hne := h.full _ h.inRange.mem_bucketSlots
  have hentries := entries_set_of_ne h.inRange.mem_slots hne h.fp_ne
  rw [h.inRange.div_slot] at hentries
  refine ⟨hne, ?_⟩
  rw [Kick.swap, (sameSizes_set k.filter (k.slot i) k.fp).numBucketsOf]
  exact hentries ▸ h.rel

theorem rel_jump {fp : UInt8} {idx : ℕ} (h : k.InRange i n)
    (hrel : Multiset.Rel (Holds k.filter.numBucketsOf) live (⟨i, idx, fp⟩ ::ₘ k.filter.entries)) :
    Multiset.Rel (Holds k.filter.numBucketsOf) live
      (⟨i, altIndex fp idx % n, fp⟩ ::ₘ k.filter.entries) := by
  obtain ⟨m, rfl⟩ := h.exists_pow
  apply rel_cons_right_of_imp hrel
  rintro hash ⟨hfp, hbucket⟩
  have hsize : k.filter.numBucketsOf i = 2 ^ m := h.buckets
  rw [hsize] at hbucket
  refine ⟨hfp, ?_⟩
  rw [hsize]
  exact hbucket.jump

/-- **The first loop** places what it has in hand, if it finds a free slot. -/
theorem Carries.run {rounds : ℕ} {f' : CuckooFilter} (h : k.Carries i n live)
    (hrun : Kick.run i n rounds k = .inl f') :
    SameSizes k.filter f' ∧ Multiset.Rel (Holds f'.numBucketsOf) live f'.entries := by
  induction rounds generalizing k with
  | zero => cases hrun
  | succ r ih =>
    obtain ⟨hne, hrel⟩ := h.swap
    have hrange := h.inRange.swap.jump
    have hjump := rel_jump h.inRange.swap hrel
    have hsizes := sameSizes_set k.filter (k.slot i) k.fp
    simp only [Kick.run] at hrun
    split at hrun
    case h_1 q hfree =>
      -- a free slot in the other bucket
      cases hrun
      have hmem := mem_of_find?_eq_some hfree
      have hzero := find?_some hfree
      simp only [decide_eq_true_eq] at hzero
      obtain ⟨hi, hdiv⟩ := (mem_bucketSlots hrange.shaped.slots_pos).mp hmem
      have hslots : q ∈ ((k.swap i).jump n).filter.slots := by
        apply hrange.shaped.mem_slots_of_div (hi ▸ hrange.lt)
        rw [hdiv, hi, hrange.buckets]
        exact hrange.idx
      have hplaced := sameSizes_set ((k.swap i).jump n).filter q ((k.swap i).jump n).fp
      refine ⟨hsizes.trans hplaced, ?_⟩
      have hne' : ((k.swap i).jump n).fp ≠ 0 := hne
      rw [hplaced.numBucketsOf, entries_set_of_zero hslots hzero hne', hdiv, hi]
      exact hjump
    case h_2 hfree =>
      have hfull : ∀ q ∈ ((k.swap i).jump n).filter.bucketSlots i ((k.swap i).jump n).idx,
          ((k.swap i).jump n).filter.get q ≠ 0 := by
        intro q hq hzero
        have := find?_eq_none.mp hfree q hq
        simp only [hzero, decide_true, not_true] at this
      obtain ⟨hrest, hrel'⟩ := ih ⟨hrange.nextVictim, hne, hfull, hjump⟩ hrun
      exact ⟨hsizes.trans hrest, hrel'⟩

end Kick

/-- **`KOInsert`** places the new fingerprint, or leaves the filter as it is. -/
theorem koInsert_spec {hash : UInt64} {i : ℕ} (h : f.Matched live) (hi : i < f.filters.length)
    (hfull : ∀ q ∈ f.bucketSlots i (hash.toNat % f.numBucketsOf i), f.get q ≠ 0) :
    ((f.koInsert (lookupParamsFromHash hash) i).1 = true ∧
      SameSizes f (f.koInsert (lookupParamsFromHash hash) i).2 ∧
      (f.koInsert (lookupParamsFromHash hash) i).2.Matched (hash ::ₘ live)) ∨
    f.koInsert (lookupParamsFromHash hash) i = (false, f) := by
  rw [koInsert]
  set start : Kick :=
    ⟨f, (lookupParamsFromHash hash).h1 % f.numBucketsOf i, (lookupParamsFromHash hash).fp, 0⟩
  have hrange : Kick.InRange i (f.numBucketsOf i) start :=
    ⟨h.shaped, hi, rfl, Nat.mod_lt _ (h.shaped.numBucketsOf_pos hi), h.shaped.slots_pos⟩
  cases hrun : Kick.run i (f.numBucketsOf i) f.maxIterations start with
  | inl f' =>
    have hcarries : Kick.Carries i (f.numBucketsOf i) (hash ::ₘ live) start :=
      ⟨hrange, fingerprint_ne_zero hash, hfull, .cons ⟨rfl, .inl rfl⟩ h.rel⟩
    obtain ⟨hsizes, hrel⟩ := hcarries.run hrun
    exact .inl ⟨rfl, hsizes, hsizes.shaped h.shaped, hrel⟩
  | inr k =>
    refine .inr (Prod.ext rfl ?_)
    change (Kick.undo i (f.numBucketsOf i) f.maxIterations k).filter = f
    rw [Kick.eq_of_run_inr hrun, Kick.undo_forward hrange]

end CuckooFilter

end Drakeydb.Cuckoo
