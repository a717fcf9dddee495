import Drakeydb.Cuckoo.Operations

/-!
# No false negatives

In every state that a sequence of operations leads to, in which a hash is deleted only while it is
live, each live hash is found at least as often as it was inserted more than deleted.
-/

namespace Drakeydb.Cuckoo

open Lib.Matching List CuckooFilter

namespace CuckooFilter

variable {f f' : CuckooFilter} {live : Multiset UInt64} {hash : UInt64}

/-! ## §1 Counting -/

/-- **A hash is counted** at least as often as it is live. -/
theorem Matched.count_le (h : f.Matched live) (hash : UInt64) : live.count hash ≤ f.count hash := by
  have hentries : live.count hash ≤ f.entries.countP (Holds f.numBucketsOf hash) := by
    apply countP_le_of_rel h.rel
    rintro a e hold rfl
    exact hold
  refine hentries.trans ?_
  -- the slots of these entries are all looked at, and each is one slot
  rw [entries, Multiset.coe_countP, countP_filterMap, count, countP_eq_length_filter,
    countP_eq_length_filter]
  apply (subperm_of_subset (f.nodup_slots.filter _) ?_).length_le
  intro q hq
  obtain ⟨hslot, hq⟩ := mem_filter.mp hq
  rw [entryOf] at hq
  split at hq
  · cases hq
  · obtain ⟨hfp, hbucket⟩ := of_decide_eq_true hq
    have hget : f.get q = fingerprint hash := hfp
    rw [hget] at hbucket
    exact mem_filter.mpr ⟨(mem_probes h.shaped.slots_pos).mpr
      ⟨mem_oldestFirst.mpr (f.mem_slots.mp hslot).1, hbucket⟩, decide_eq_true hget⟩

theorem contains_of_count_pos (h : 0 < f.count hash) : f.contains hash = true := by
  rw [count, countP_pos_iff] at h
  exact any_eq_true.mpr h

/-- The number of slots that are not empty. -/
def usedSlots (f : CuckooFilter) : ℕ := f.filters.flatten.countP (· ≠ 0)

theorem map_range_getD {α : Type} (l : List α) (d : α) :
    (List.range l.length).map (fun i => l.getD i d) = l := by
  apply ext_getElem
  · simp
  · intro i hi hi'
    rw [getElem_map, getElem_range, getD_eq_getElem?_getD, getElem?_eq_getElem hi']
    rfl

theorem map_get_slots (f : CuckooFilter) : f.slots.map f.get = f.filters.flatten := by
  have hone : ∀ i, ((range (f.filters.getD i []).length).map (Prod.mk i)).map f.get =
      f.filters.getD i [] := by
    intro i
    rw [map_map]
    exact map_range_getD (f.filters.getD i []) 0
  rw [slots, map_flatMap, flatMap_congr fun i _ => hone i, flatMap_def, map_range_getD]

theorem card_entries (f : CuckooFilter) : f.entries.card = f.usedSlots := by
  rw [usedSlots, ← map_get_slots, countP_map, entries, Multiset.coe_card,
    length_filterMap_eq_countP]
  apply countP_congr
  intro q _
  rw [entryOf]
  by_cases hzero : f.get q = 0
  · simp [hzero]
  · simp [hzero]

/-! ## §2 Every state -/

theorem two_pow_mod (k m : ℕ) : 2 ^ k % 2 ^ m = 0 ∨ ∃ j, 2 ^ k % 2 ^ m = 2 ^ j := by
  rcases Nat.lt_or_ge k m with hlt | hge
  · exact .inr ⟨k, Nat.mod_eq_of_lt (Nat.pow_lt_pow_right (by decide) hlt)⟩
  · exact .inl (Nat.mod_eq_zero_of_dvd (pow_dvd_pow 2 hge))

variable {options : Options}

/-- **The constructor** makes an empty filter. -/
theorem matched_new (h : new options = some f) : f.Matched 0 := by
  rw [new] at h
  split at h
  · cases h
  case isFalse hpos =>
    have hbuckets : ∃ k,
        (if nextPowerOfTwo (options.capacity.toNat / options.slotsPerBucket.toNat) % 2 ^ 64 = 0
        then 1
        else nextPowerOfTwo (options.capacity.toNat / options.slotsPerBucket.toNat) % 2 ^ 64) =
          2 ^ k := by
      split
      · exact ⟨0, rfl⟩
      case isFalse hne => exact (two_pow_mod _ 64).resolve_left hne
    have hexp : (if options.expansion ≠ 0 then nextPowerOfTwo options.expansion.toNat
      else 0) % 2 ^ 16 = 0 ∨
        ∃ e, (if options.expansion ≠ 0 then nextPowerOfTwo options.expansion.toNat
          else 0) % 2 ^ 16 = 2 ^ e := by
      split
      · exact two_pow_mod _ 16
      · exact .inl rfl
    cases h
    generalize hempty : mk options.slotsPerBucket.toNat options.maxIterations.toNat _ _ 0 0 0 [] = f
    have hmatched : f.Matched 0 := by
      subst hempty
      exact ⟨⟨Nat.pos_of_ne_zero hpos, hbuckets, hexp, fun _ => Nat.zero_le 1,
        fun i hi => absurd hi (Nat.not_lt_zero i)⟩, .zero⟩
    have hnil : f.filters = [] := by
      subst hempty
      rfl
    rcases f.addNewSubFilter_cases with heq | heq
    · rw [heq]
      exact hmatched
    · rw [heq]
      exact hmatched.grown (.inr hnil)

theorem filters_new (h : new options = some f)
    (hcapacity : options.capacity.toNat / options.slotsPerBucket.toNat ≤ 2 ^ 55) :
      f.filters ≠ [] := by
  have hclog : Nat.clog 2 (options.capacity.toNat / options.slotsPerBucket.toNat) ≤ 55 :=
    Nat.clog_le_of_le_pow hcapacity
  have hbuckets : nextPowerOfTwo (options.capacity.toNat / options.slotsPerBucket.toNat) ≤ 2 ^ 55 :=
    Nat.pow_le_pow_right (by decide) hclog
  have hpos : 0 < nextPowerOfTwo (options.capacity.toNat / options.slotsPerBucket.toNat) :=
    Nat.two_pow_pos _
  have hslots : options.slotsPerBucket.toNat < 256 := options.slotsPerBucket.toNat_lt
  rw [new] at h
  split at h
  · cases h
  case isFalse hne =>
    cases h
    generalize nextPowerOfTwo (options.capacity.toNat / options.slotsPerBucket.toNat) =
      n at hbuckets hpos ⊢
    have hword : (if n % 2 ^ 64 = 0 then 1 else n % 2 ^ 64) = n := by
      rw [Nat.mod_eq_of_lt (by omega), if_neg (by omega)]
    rw [hword, addNewSubFilter]
    simp only [length_nil, pow_zero, Nat.mul_one]
    have hgrowth : ¬ 1 > kMaxBuckets / n := by
      have : 1 ≤ kMaxBuckets / n := (Nat.le_div_iff_mul_le hpos).mpr (by rw [kMaxBuckets]; omega)
      omega
    have hsize : ¬ n > sizeMax / options.slotsPerBucket.toNat := by
      have : n ≤ sizeMax / options.slotsPerBucket.toNat := by
        apply (Nat.le_div_iff_mul_le (by omega)).mpr
        calc n * options.slotsPerBucket.toNat ≤ 2 ^ 55 * 255 := Nat.mul_le_mul hbuckets (by omega)
          _ ≤ sizeMax := by decide
      omega
    rw [if_neg hgrowth, if_neg hsize]
    exact cons_ne_nil _ _

theorem Matched.filters_ne_nil (h : f.Matched (hash ::ₘ live)) : f.filters ≠ [] := by
  intro hnil
  have hcard := Multiset.card_eq_card_of_rel h.rel
  rw [card_entries, usedSlots, hnil, Multiset.card_cons] at hcard
  cases hcard

theorem filters_delete (hne : f.filters ≠ []) (hash : UInt64) : (f.delete hash).2.filters ≠ [] := by
  rw [delete]
  split
  · next q _ =>
    have hlength := length_filters_set (f := f) q 0
    exact fun hnil => hne (length_eq_zero_iff.mp (hlength ▸ length_eq_zero_iff.mpr hnil))
  · exact hne

theorem insertUnique_spec {fuel : ℕ} {ok : Bool} (h : f.Matched live)
    (hrun : f.insertUnique fuel hash = some (ok, f')) :
    (ok = true ∧ f'.Matched (hash ::ₘ live)) ∨ (ok = false ∧ f' = f) := by
  rw [insertUnique] at hrun
  split at hrun
  · cases hrun
    exact .inr ⟨rfl, rfl⟩
  · exact insert_spec h hrun

end CuckooFilter

variable {options : Options} {f : CuckooFilter} {live : Multiset UInt64}

/-- **The matching holds in every state.** -/
theorem Reachable.matched (h : Reachable options f live) : f.Matched live := by
  induction h with
  | new hnew => exact matched_new hnew
  | inserted _ hrun ih =>
    rcases insert_spec ih hrun with ⟨_, hmatched⟩ | ⟨hfalse, _⟩
    · exact hmatched
    · cases hfalse
  | refused _ hrun ih =>
    rcases insert_spec ih hrun with ⟨htrue, _⟩ | ⟨_, rfl⟩
    · cases htrue
    · exact ih
  | insertedUnique _ hrun ih =>
    rcases insertUnique_spec ih hrun with ⟨_, hmatched⟩ | ⟨hfalse, _⟩
    · exact hmatched
    · cases hfalse
  | refusedUnique _ hrun ih =>
    rcases insertUnique_spec ih hrun with ⟨htrue, _⟩ | ⟨_, rfl⟩
    · cases htrue
    · exact ih
  | deleted _ hlive ih => exact (delete_spec ih hlive).2
  | compacted cont _ ih => exact (compact_spec ih cont).1

theorem Reachable.filters_ne_nil (h : Reachable options f live)
    (hcapacity : options.capacity.toNat / options.slotsPerBucket.toNat ≤ 2 ^ 55) :
      f.filters ≠ [] := by
  induction h with
  | new hnew => exact filters_new hnew hcapacity
  | inserted hprev hrun ih => exact (hprev.inserted hrun).matched.filters_ne_nil
  | refused hprev hrun ih =>
    rcases insert_spec hprev.matched hrun with ⟨htrue, _⟩ | ⟨_, rfl⟩
    · cases htrue
    · exact ih
  | insertedUnique hprev hrun ih => exact (hprev.insertedUnique hrun).matched.filters_ne_nil
  | refusedUnique hprev hrun ih =>
    rcases insertUnique_spec hprev.matched hrun with ⟨htrue, _⟩ | ⟨_, rfl⟩
    · cases htrue
    · exact ih
  | deleted _ _ ih => exact filters_delete ih _
  | compacted cont hprev ih => exact (compact_spec hprev.matched cont).2 ih

/-- **No false negatives.** In every state, and for every hash: it is counted at least as often as
it is live; if it is live, it is found, and its deletion succeeds; there are as many fingerprints as
live hashes; an insertion that fails changes nothing. Unless the capacity is so large that the
constructor makes no sub-filter, an insertion returns. -/
theorem reachable_no_false_negatives (options : Options) (f : CuckooFilter) (live : Multiset UInt64)
    (h : Reachable options f live) :
    (∀ hash, live.count hash ≤ f.count hash) ∧
    (∀ hash ∈ live, f.contains hash = true ∧ (f.delete hash).1 = true) ∧
    f.usedSlots = live.card ∧
    (∀ fuel hash f', f.insert fuel hash = some (false, f') → f' = f) ∧
    (options.capacity.toNat / options.slotsPerBucket.toNat ≤ 2 ^ 55 →
      ∀ hash, ∃ result, ∀ fuel, f.insert (fuel + 2) hash = some result) := by
  have hmatched := h.matched
  refine ⟨hmatched.count_le, fun hash hlive => ⟨?_, (delete_spec hmatched hlive).1⟩, ?_, ?_, ?_⟩
  · apply contains_of_count_pos
    exact Nat.lt_of_lt_of_le (Multiset.count_pos.mpr hlive) (hmatched.count_le hash)
  · rw [← card_entries, Multiset.card_eq_card_of_rel hmatched.rel]
  · intro fuel hash f' hrun
    rcases insert_spec hmatched hrun with ⟨htrue, _⟩ | ⟨_, hsame⟩
    · cases htrue
    · exact hsame
  · exact fun hcapacity hash => insert_total hmatched (h.filters_ne_nil hcapacity) hash

/-- Four buckets of one slot: the third insertion kicks the first one out, and then one hash is
deleted. -/
theorem no_false_negatives_kickOut :
    ∃ f, Reachable ⟨4, 1, 2, 1⟩ f (({4, 1, 0} : Multiset UInt64).erase 1) ∧ f.numKoInserts = 1 ∧
      f.numDeletes = 1 ∧ (f.contains 4 = true ∧ (f.delete 4).1 = true) ∧ f.usedSlots = 2 := by
  have hnew : Reachable ⟨4, 1, 2, 1⟩ ⟨1, 2, 1, 4, 0, 0, 0, [[0, 0, 0, 0]]⟩ 0 := .new rfl
  have hzero : Reachable ⟨4, 1, 2, 1⟩ ⟨1, 2, 1, 4, 1, 0, 0, [[1, 0, 0, 0]]⟩ {0} :=
    hnew.inserted (show insert 1 _ 0 = some (true, _) from rfl)
  have hone : Reachable ⟨4, 1, 2, 1⟩ ⟨1, 2, 1, 4, 2, 0, 0, [[1, 2, 0, 0]]⟩ {1, 0} :=
    hzero.inserted (show insert 1 _ 1 = some (true, _) from rfl)
  have hfour : Reachable ⟨4, 1, 2, 1⟩ ⟨1, 2, 1, 4, 3, 0, 1, [[5, 1, 0, 2]]⟩ {4, 1, 0} :=
    hone.inserted (show insert 1 _ 4 = some (true, _) from rfl)
  have hdeleted := hfour.deleted (show (1 : UInt64) ∈ _ by decide)
  obtain ⟨-, hfound, hused, -⟩ := reachable_no_false_negatives _ _ _ hdeleted
  exact ⟨_, hdeleted, rfl, rfl, hfound 4 (by decide), hused⟩

end Drakeydb.Cuckoo
