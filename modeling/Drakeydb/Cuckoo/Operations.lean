import Drakeydb.Cuckoo.KickOut

/-!
# The operations keep the matching

Every operation leaves each live hash with a fingerprint of its own. A deletion may remove the
fingerprint of another hash; then it is in the newest sub-filter in which the deleted hash has one,
and the other hash can take over the one that is left, since the buckets in an older sub-filter
follow from those in a newer one. For the same reason a fingerprint can be moved to an older
sub-filter without knowing its hash.
-/

namespace Drakeydb.Cuckoo

open Lib.Matching List

namespace CuckooFilter

variable {f f' : CuckooFilter} {live : Multiset UInt64} {hash : UInt64}

/-! ## §1 Slots and sub-filters -/

theorem Matched.of_eq (h : f.Matched live) (hspb : f'.slotsPerBucket = f.slotsPerBucket)
    (hexp : f'.expansion = f.expansion) (hnum : f'.numBuckets = f.numBuckets)
    (hfilters : f'.filters = f.filters) : f'.Matched live := by
  obtain ⟨⟨hpos, hpow, hexpand, hsingle, hlength⟩, hrel⟩ := h
  cases f
  cases f'
  subst hspb hexp hnum hfilters
  exact ⟨⟨hpos, hpow, hexpand, hsingle, hlength⟩, hrel⟩

variable {q : Slot}

/-- A fingerprint is written to a free slot of one of its buckets. -/
theorem Matched.place (h : f.Matched live) (hq : q ∈ f.slots) (hzero : f.get q = 0)
    (hbucket : InBucket (f.numBucketsOf q.1) (fingerprint hash) hash.toNat
      (q.2 / f.slotsPerBucket)) :
    (f.set q (fingerprint hash)).Matched (hash ::ₘ live) := by
  refine ⟨h.shaped.set _ _, ?_⟩
  rw [(sameSizes_set f q _).numBucketsOf, entries_set_of_zero hq hzero (fingerprint_ne_zero hash)]
  exact .cons ⟨rfl, hbucket⟩ h.rel

variable {i : ℕ}

theorem mem_newestFirst : i ∈ f.newestFirst ↔ i < f.filters.length := by
  simp [newestFirst]

theorem mem_oldestFirst : i ∈ f.oldestFirst ↔ i < f.filters.length := mem_range

variable {is : List ℕ}

/-- The slots that a hash may have in some sub-filters. -/
abbrev probesOf (f : CuckooFilter) (is : List ℕ) (hash : UInt64) : List Slot :=
  f.probes is (lookupParamsFromHash hash).h1 (lookupParamsFromHash hash).h2

/-- The free slot that `Insert` takes, if there is one. -/
abbrev freeSlot (f : CuckooFilter) (hash : UInt64) : Option Slot :=
  (f.probesOf f.newestFirst hash).find? fun q => f.get q = 0

theorem Shaped.probe (h : f.Shaped) (his : ∀ i ∈ is, i < f.filters.length)
    (hq : q ∈ f.probesOf is hash) :
    q ∈ f.slots ∧ q.1 ∈ is ∧
      InBucket (f.numBucketsOf q.1) (fingerprint hash) hash.toNat (q.2 / f.slotsPerBucket) :=
  ⟨h.mem_slots_of_probe his hq, (mem_probes h.slots_pos).mp hq⟩

variable (sf : List UInt8)

section

variable (hf' : f'.filters = f.filters ++ [sf])
include hf'

/-- Sub-filters that are added or taken away do not matter if they are empty. -/
theorem slots_append :
    f'.slots = f.slots ++ (List.range sf.length).map (Prod.mk f.filters.length) := by
  rw [slots, slots, hf', length_append, length_singleton, range_succ, flatMap_append,
    flatMap_singleton]
  congr 1
  · exact flatMap_congr fun i hi => by rw [getD_append _ _ _ _ (mem_range.mp hi)]
  · simp

theorem get_append (hq : q.1 < f.filters.length) : f'.get q = f.get q := by
  rw [get, get, hf', getD_append _ _ _ _ hq]

theorem entries_append (hspb : f'.slotsPerBucket = f.slotsPerBucket)
    (hzero : ∀ k, f'.get (f.filters.length, k) = 0) : f'.entries = f.entries := by
  have hnew : ((range sf.length).map (Prod.mk f.filters.length)).filterMap
      (fun q => f'.entryOf q (f'.get q)) = [] := by
    apply filterMap_eq_nil_iff.mpr
    intro q hq
    obtain ⟨k, _, rfl⟩ := mem_map.mp hq
    rw [hzero, entryOf, if_pos rfl]
  rw [entries, entries, slots_append sf hf', filterMap_append, hnew, append_nil]
  congr 1
  apply filterMap_congr
  intro q hq
  rw [get_append sf hf' (f.mem_slots.mp hq).1, entryOf, entryOf, hspb]

end

theorem filter_lt_of_mem_entries {e : Entry} (he : e ∈ f.entries) :
    e.filter < f.filters.length := by
  obtain ⟨q, hq, _, rfl⟩ := mem_entries he
  exact (f.mem_slots.mp hq).1

/-- **An empty newest sub-filter** may come or go. -/
theorem rel_append {sf : List UInt8} (hf' : f'.filters = f.filters ++ [sf])
    (hspb : f'.slotsPerBucket = f.slotsPerBucket) (hzero : ∀ k, f'.get (f.filters.length, k) = 0) :
    Multiset.Rel (Holds f'.numBucketsOf) live f'.entries ↔
      Multiset.Rel (Holds f.numBucketsOf) live f.entries := by
  have hsize : ∀ e ∈ f.entries, f'.numBucketsOf e.filter = f.numBucketsOf e.filter := by
    intro e he
    rw [numBucketsOf, numBucketsOf, hf', hspb, getD_append _ _ _ _ (filter_lt_of_mem_entries he)]
  rw [entries_append sf hf' hspb hzero]
  constructor
  · intro h
    exact h.mono fun a _ e he hold => by rwa [Holds, hsize e he] at hold
  · intro h
    exact h.mono fun a _ e he hold => by rwa [Holds, hsize e he]

/-! ## §2 Insertion -/

def grown (f : CuckooFilter) : CuckooFilter :=
  { f with filters := f.filters ++
      [List.replicate (f.numBuckets * f.expansion ^ f.filters.length * f.slotsPerBucket) 0] }

theorem addNewSubFilter_cases (f : CuckooFilter) :
    f.addNewSubFilter = (false, f) ∨ f.addNewSubFilter = (true, f.grown) := by
  rw [addNewSubFilter]
  dsimp only
  split
  · exact .inl rfl
  · split
    · exact .inl rfl
    · exact .inr rfl

theorem get_grown (f : CuckooFilter) (k : ℕ) : f.grown.get (f.filters.length, k) = 0 := by
  have hnew : f.grown.filters.getD f.filters.length [] =
      replicate (f.numBuckets * f.expansion ^ f.filters.length * f.slotsPerBucket) 0 := by
    simp [grown]
  rw [get, hnew, getD_eq_getElem?_getD, getElem?_replicate]
  split <;> rfl

theorem length_grown (f : CuckooFilter) : f.grown.filters.length = f.filters.length + 1 := by
  simp [grown]

theorem Shaped.grown (h : f.Shaped) (hexp : f.expansion ≠ 0 ∨ f.filters = []) : f.grown.Shaped where
  slots_pos := h.slots_pos
  numBuckets := h.numBuckets
  expansion := h.expansion
  single := fun hzero => by
    rcases hexp with hne | hnil
    · exact absurd hzero hne
    · rw [length_grown, hnil]
      exact Nat.le_refl 1
  length := fun i hi => by
    rw [length_grown] at hi
    rcases Nat.lt_or_ge i f.filters.length with hlt | hge
    · rw [CuckooFilter.grown, getD_append _ _ _ _ hlt]
      exact h.length i hlt
    · obtain rfl : i = f.filters.length := by omega
      simp [CuckooFilter.grown]

theorem Matched.grown (h : f.Matched live) (hexp : f.expansion ≠ 0 ∨ f.filters = []) :
    f.grown.Matched live := by
  have hfilters : f.grown.filters = f.filters ++
      [replicate (f.numBuckets * f.expansion ^ f.filters.length * f.slotsPerBucket) 0] := rfl
  exact ⟨h.shaped.grown hexp, (rel_append hfilters rfl f.get_grown).mpr h.rel⟩

theorem full_of_find?_eq_none (hshaped : f.Shaped) (hi : i < f.filters.length)
    (hnone : f.freeSlot hash = none) : ∀ q ∈ f.bucketSlots i
    (hash.toNat % f.numBucketsOf i), f.get q ≠ 0 := by
  intro q hq hzero
  obtain ⟨rfl, hdiv⟩ := (mem_bucketSlots hshaped.slots_pos).mp hq
  have hprobe : q ∈ f.probesOf f.newestFirst hash :=
    (mem_probes hshaped.slots_pos).mpr ⟨mem_newestFirst.mpr hi, .inl hdiv⟩
  have := find?_eq_none.mp hnone q hprobe
  simp only [hzero, decide_true, not_true] at this

theorem find?_ne_none_of_zero (hshaped : f.Shaped) (hi : i < f.filters.length)
    (hzero : ∀ k, f.get (i, k) = 0) (hash : UInt64) : f.freeSlot hash ≠ none := by
  intro hnone
  have hfull := full_of_find?_eq_none hshaped hi hnone
  refine hfull (i, hash.toNat % f.numBucketsOf i * f.slotsPerBucket) ?_ (hzero _)
  exact (mem_bucketSlots hshaped.slots_pos).mpr ⟨rfl, Nat.mul_div_cancel _ hshaped.slots_pos⟩

theorem insert_of_free (h : f.Matched live) (hfind : f.freeSlot hash = some q) :
    ∃ f', (∀ fuel, f.insert (fuel + 1) hash = some (true, f')) ∧ f'.Matched (hash ::ₘ live) := by
  have hzero := find?_some hfind
  simp only [decide_eq_true_eq] at hzero
  obtain ⟨hq, _, hbucket⟩ :=
    h.shaped.probe (fun i => mem_newestFirst.mp) (mem_of_find?_eq_some hfind)
  refine ⟨{ f.set q (fingerprint hash) with numItems := f.numItems + 1 }, fun fuel => ?_,
    (h.place hq hzero hbucket).of_eq rfl rfl rfl rfl⟩
  rw [insert]
  simp only [hfind]
  rfl

theorem insert_of_koInsert (hnil : f.filters ≠ []) (hnone : f.freeSlot hash = none)
    (hko : (f.koInsert (lookupParamsFromHash hash) (f.filters.length - 1)).1 = true)
    (h : (f.koInsert (lookupParamsFromHash hash) (f.filters.length - 1)).2.Matched
      (hash ::ₘ live)) :
    ∃ f', (∀ fuel, f.insert (fuel + 1) hash = some (true, f')) ∧ f'.Matched (hash ::ₘ live) := by
  generalize hresult : f.koInsert (lookupParamsFromHash hash) (f.filters.length - 1) =
    result at hko h
  obtain ⟨ok, f'⟩ := result
  cases hko
  refine ⟨{ f' with numItems := f'.numItems + 1, numKoInserts := f'.numKoInserts + 1 },
    fun fuel => ?_, h.of_eq rfl rfl rfl rfl⟩
  rw [insert]
  simp only [hnone, if_neg hnil, hresult]

/-- **One round of `Insert`**: it succeeds, or gives up, or goes on with a new sub-filter, in which
there is a free slot. -/
theorem insert_round (h : f.Matched live) (hnil : f.filters ≠ []) (hash : UInt64) :
    (∃ f', (∀ fuel, f.insert (fuel + 1) hash = some (true, f')) ∧ f'.Matched (hash ::ₘ live)) ∨
    (∀ fuel, f.insert (fuel + 1) hash = some (false, f)) ∨
    (f.expansion ≠ 0 ∧ ∀ fuel, f.insert (fuel + 1) hash = f.grown.insert fuel hash) := by
  cases hfind : f.freeSlot hash with
  | some q => exact .inl (insert_of_free h hfind)
  | none =>
    have hlast : f.filters.length - 1 < f.filters.length :=
      Nat.sub_lt (length_pos_iff.mpr hnil) Nat.one_pos
    rcases koInsert_spec h hlast (full_of_find?_eq_none h.shaped hlast hfind)
      with ⟨htrue, _, hmatched⟩ | hfalse
    · exact .inl (insert_of_koInsert hnil hfind htrue hmatched)
    refine .inr ?_
    by_cases hexp : f.expansion = 0
    · refine .inl fun fuel => ?_
      rw [insert]
      simp only [hfind, if_neg hnil, hfalse, if_pos hexp]
    · rcases f.addNewSubFilter_cases with heq | heq
      · refine .inl fun fuel => ?_
        rw [insert]
        simp only [hfind, if_neg hnil, hfalse, if_neg hexp, heq]
      · refine .inr ⟨hexp, fun fuel => ?_⟩
        rw [insert]
        simp only [hfind, if_neg hnil, hfalse, if_neg hexp, heq]

theorem insert_grown (h : f.Matched live) (hexp : f.expansion ≠ 0) (hash : UInt64) :
    ∃ f', (∀ fuel, f.grown.insert (fuel + 1) hash = some (true, f')) ∧
      f'.Matched (hash ::ₘ live) := by
  have hgrown := h.grown (.inl hexp)
  have hlt : f.filters.length < f.grown.filters.length := by
    rw [length_grown]
    exact Nat.lt_succ_self _
  obtain ⟨q, hfind⟩ := Option.ne_none_iff_exists'.mp
    (find?_ne_none_of_zero hgrown.shaped hlt f.get_grown hash)
  exact insert_of_free hgrown hfind

theorem insert_of_nil (hnil : f.filters = []) (fuel : ℕ) (hash : UInt64) :
    f.insert fuel hash = none := by
  cases fuel with
  | zero => rfl
  | succ fuel =>
    have hprobes : f.newestFirst = [] := by rw [newestFirst, hnil]; rfl
    rw [insert]
    simp only [hprobes, probes, flatMap_nil, find?_nil, if_pos hnil]

/-- **`Insert`** adds a fingerprint for the hash, or changes nothing. -/
theorem insert_spec {fuel : ℕ} {ok : Bool} (h : f.Matched live)
    (hrun : f.insert fuel hash = some (ok, f')) :
    (ok = true ∧ f'.Matched (hash ::ₘ live)) ∨ (ok = false ∧ f' = f) := by
  by_cases hnil : f.filters = []
  · rw [insert_of_nil hnil] at hrun
    cases hrun
  cases fuel with
  | zero => cases hrun
  | succ fuel =>
    rcases insert_round h hnil hash with ⟨g, hsome, hmatched⟩ | hsame | ⟨hexp, hnext⟩
    · rw [hsome] at hrun
      cases hrun
      exact .inl ⟨rfl, hmatched⟩
    · rw [hsame] at hrun
      cases hrun
      exact .inr ⟨rfl, rfl⟩
    · rw [hnext] at hrun
      cases fuel with
      | zero => cases hrun
      | succ fuel =>
        obtain ⟨g, hsome, hmatched⟩ := insert_grown h hexp hash
        rw [hsome] at hrun
        cases hrun
        exact .inl ⟨rfl, hmatched⟩

/-- **`Insert` returns**, after two rounds at most. -/
theorem insert_total (h : f.Matched live) (hnil : f.filters ≠ []) (hash : UInt64) :
    ∃ result, ∀ fuel, f.insert (fuel + 2) hash = some result := by
  rcases insert_round h hnil hash with ⟨g, hsome, _⟩ | hsame | ⟨hexp, hnext⟩
  · exact ⟨_, fun fuel => hsome (fuel + 1)⟩
  · exact ⟨_, fun fuel => hsame (fuel + 1)⟩
  · obtain ⟨g, hsome, _⟩ := insert_grown h hexp hash
    exact ⟨_, fun fuel => (hnext (fuel + 1)).trans (hsome fuel)⟩

/-! ## §3 Deletion -/

theorem pairwise_probes (hpos : 0 < f.slotsPerBucket) (h1 h2 : ℕ) :
    (f.probes f.newestFirst h1 h2).Pairwise fun q q' => q'.1 ≤ q.1 := by
  have hone : ∀ i, ∀ q ∈ f.bucketSlots i (h1 % f.numBucketsOf i) ++
    f.bucketSlots i (h2 % f.numBucketsOf i),
      q.1 = i := by
    intro i q hq
    rcases mem_append.mp hq with hq | hq
    · exact ((mem_bucketSlots hpos).mp hq).1
    · exact ((mem_bucketSlots hpos).mp hq).1
  apply pairwise_flatMap.mpr
  constructor
  · intro i _
    apply pairwise_of_forall_mem_list
    intro q hq q' hq'
    rw [hone i q hq, hone i q' hq']
  · rw [newestFirst, pairwise_reverse]
    apply pairwise_lt_range.imp
    intro i j hij q hq q' hq'
    rw [hone j q hq, hone i q' hq']
    exact Nat.le_of_lt hij

theorem exists_probe_of_holds (hshaped : f.Shaped)
    (his : ∀ i < f.filters.length, i ∈ is) {e : Entry}
    (he : e ∈ f.entries) (hold : Holds f.numBucketsOf hash e) :
    ∃ q ∈ f.probesOf is hash, f.get q = fingerprint hash ∧ q.1 = e.filter := by
  obtain ⟨q, hq, _, rfl⟩ := mem_entries he
  obtain ⟨hfp, hbucket⟩ := hold
  have hget : f.get q = fingerprint hash := hfp
  refine ⟨q, (mem_probes hshaped.slots_pos).mpr ⟨his _ (f.mem_slots.mp hq).1, ?_⟩, hget, rfl⟩
  rwa [hget] at hbucket

/-- **`Delete`** removes a fingerprint, and every hash that is left has one of its own. -/
theorem delete_spec (h : f.Matched live) (hlive : hash ∈ live) :
    (f.delete hash).1 = true ∧ (f.delete hash).2.Matched (live.erase hash) := by
  have hshaped := h.shaped
  obtain ⟨own, hown, hholds⟩ := Multiset.exists_mem_of_rel_of_mem h.rel hlive
  obtain ⟨p, hp, hpget, _⟩ :=
    exists_probe_of_holds hshaped (fun i => mem_newestFirst.mpr) hown hholds
  rw [delete]
  cases hfind : (f.probesOf f.newestFirst hash).find? fun q =>
    f.get q = (lookupParamsFromHash hash).fp with
  | none =>
    have := find?_eq_none.mp hfind p hp
    simp only [lookupParamsFromHash, hpget, decide_true, not_true] at this
  | some q =>
    refine ⟨rfl, Matched.of_eq (f := f.set q 0) ?_ rfl rfl rfl rfl⟩
    obtain ⟨hfound, before, after, hsplit, hbefore⟩ := find?_eq_some_iff_append.mp hfind
    have hget : f.get q = fingerprint hash := of_decide_eq_true hfound
    obtain ⟨hq, _, hbucket⟩ :=
      hshaped.probe (fun i => mem_newestFirst.mp) (mem_of_find?_eq_some hfind)
    have hne : f.get q ≠ 0 := hget ▸ fingerprint_ne_zero hash
    -- no entry for the hash is in a newer sub-filter
    have hnewest : ∀ e ∈ f.entries, Holds f.numBucketsOf hash e → e.filter ≤ q.1 := by
      intro e he hold
      obtain ⟨p, hp, hpget, hpfilter⟩ :=
        exists_probe_of_holds hshaped (fun i => mem_newestFirst.mpr) he hold
      rw [← hpfilter]
      have hpairs : (f.probesOf f.newestFirst hash).Pairwise _ :=
        pairwise_probes hshaped.slots_pos _ _
      rw [hsplit] at hp hpairs
      rcases mem_append.mp hp with hmem | hmem
      · have := hbefore p hmem
        simp only [lookupParamsFromHash, hpget, decide_true, Bool.not_true] at this
        cases this
      · rcases mem_cons.mp hmem with rfl | hmem
        · exact Nat.le_refl _
        · exact rel_of_pairwise_cons (pairwise_append.mp hpairs).2.1 hmem
    have hentries : f.entries.erase ⟨q.1, q.2 / f.slotsPerBucket, f.get q⟩ =
      (f.set q 0).entries := by
      simp [entries_set_zero hq hne]
    refine ⟨hshaped.set _ _, ?_⟩
    rw [(sameSizes_set f q 0).numBucketsOf, ← hentries]
    apply rel_erase h.rel hlive (entries_mem hq hne)
    -- whoever has the removed fingerprint can take that of the deleted hash
    rintro other e ⟨hefp, hebucket⟩ he ⟨hofp, hobucket⟩
    obtain ⟨k, hk⟩ := hshaped.numBucketsOf_eq_pow (f.mem_slots.mp hq).1
    obtain ⟨m, hm⟩ := hshaped.numBucketsOf_eq_pow (filter_lt_of_mem_entries he)
    have hle := hnewest e he ⟨hefp, hebucket⟩
    have hdvd := hshaped.numBucketsOf_dvd hle (f.mem_slots.mp hq).1
    have hsame : fingerprint other = fingerprint hash := hofp.symm.trans hget
    refine ⟨hefp.trans hsame.symm, ?_⟩
    rw [hget] at hobucket
    rw [hefp] at hebucket ⊢
    rw [hm] at hebucket ⊢
    rw [hk] at hbucket hobucket
    rw [hk, hm] at hdvd
    exact hbucket.swap hdvd hobucket hebucket

/-! ## §4 Compaction -/

/-- What moving fingerprints out of sub-filter `i` does. -/
structure MovedFrom (i : ℕ) (live : Multiset UInt64) (f f' : CuckooFilter) : Prop where
  sizes : SameSizes f f'
  matched : f'.Matched live
  /-- No slot of the sub-filter is filled. -/
  zero : ∀ k, f.get (i, k) = 0 → f'.get (i, k) = 0

theorem MovedFrom.refl (i : ℕ) (h : f.Matched live) : MovedFrom i live f f :=
  ⟨.refl f, h, fun _ hzero => hzero⟩

theorem MovedFrom.trans {f'' : CuckooFilter} (h : MovedFrom i live f f')
    (h' : MovedFrom i live f' f'') : MovedFrom i live f f'' :=
  ⟨h.sizes.trans h'.sizes, h'.matched, fun k hzero => h'.zero k (h.zero k hzero)⟩

/-- A fingerprint may stand for the same hashes in an older sub-filter. -/
theorem Shaped.holds_older (h : f.Shaped) {j b : ℕ} {fp : UInt8} (hji : j ≤ i)
    (hi : i < f.filters.length) (hold : Holds f.numBucketsOf hash ⟨i, b, fp⟩) {b' : ℕ}
    (hb' : b' = b % f.numBucketsOf j ∨ b' = altIndex fp b % f.numBucketsOf j) :
    Holds f.numBucketsOf hash ⟨j, b', fp⟩ := by
  obtain ⟨hfp, hbucket⟩ := hold
  obtain ⟨k, hk⟩ := h.numBucketsOf_eq_pow hi
  obtain ⟨m, hm⟩ := h.numBucketsOf_eq_pow (Nat.lt_of_le_of_lt hji hi)
  have hdvd := h.numBucketsOf_dvd hji hi
  rw [hk] at hbucket hdvd
  rw [hm] at hdvd hb'
  refine ⟨hfp, ?_⟩
  rw [hm]
  rcases hb' with rfl | rfl
  · exact hbucket.mod hdvd
  · rw [← altIndex_mod]
    exact (hbucket.mod hdvd).jump

/-- **`RelocateSlot`** moves a fingerprint to an older sub-filter, or leaves it. -/
theorem relocateSlot_spec (h : f.Matched live) {b s : ℕ} (hi : i < f.filters.length)
    (hb : b < f.numBucketsOf i) (hs : s < f.slotsPerBucket) :
    MovedFrom i live f (f.relocateSlot i b s).2 ∧
      ((f.relocateSlot i b s).1 = true →
        (f.relocateSlot i b s).2.get (i, b * f.slotsPerBucket + s) = 0) := by
  have hdiv : (b * f.slotsPerBucket + s) / f.slotsPerBucket = b := bucket_of_slot hs
  have hq : (i, b * f.slotsPerBucket + s) ∈ f.slots :=
    h.shaped.mem_slots_of_div hi (by rw [hdiv]; exact hb)
  rw [relocateSlot]
  generalize hslot : (i, b * f.slotsPerBucket + s) = q at hq ⊢
  have hqi : q.1 = i := by rw [← hslot]
  have hqdiv : q.2 / f.slotsPerBucket = b := by rw [← hslot]; exact hdiv
  by_cases hzero : f.get q = 0
  · rw [if_pos hzero]
    exact ⟨.refl i h, fun _ => hzero⟩
  rw [if_neg hzero]
  split
  case h_2 => exact ⟨.refl i h, fun hfalse => by cases hfalse⟩
  case h_1 q' hfind =>
    have hfree := find?_some hfind
    simp only [decide_eq_true_eq] at hfree
    have hprobe := mem_of_find?_eq_some hfind
    have hrange : ∀ j ∈ range i, j < f.filters.length := fun j hj =>
      Nat.lt_trans (mem_range.mp hj) hi
    have hq' := h.shaped.mem_slots_of_probe hrange hprobe
    obtain ⟨hj, hbucket⟩ := (mem_probes h.shaped.slots_pos).mp hprobe
    have hlt : q'.1 < i := mem_range.mp hj
    have hne : q ≠ q' := fun heq => by
      rw [← heq, hqi] at hlt
      exact Nat.lt_irrefl _ hlt
    have hkeep : (f.set q' (f.get q)).get q = f.get q := get_set_of_ne hne _
    have hsizes := (sameSizes_set f q' (f.get q)).trans (sameSizes_set (f.set q' (f.get q)) q 0)
    have hq1 : q ∈ (f.set q' (f.get q)).slots := by rwa [slots_set]
    refine ⟨⟨hsizes, ⟨hsizes.shaped h.shaped, ?_⟩, fun k hk => ?_⟩, fun _ => get_set_self hq1 0⟩
    · -- the fingerprint has changed its place
      have hadd := entries_set_of_zero hq' hfree hzero
      have hremove := entries_set_zero hq1 (fun heq => hzero (hkeep.symm.trans heq))
      have hold := entries_set_zero hq hzero
      rw [hkeep, hadd, hold, Multiset.cons_swap] at hremove
      have hnew := (Multiset.cons_inj_right _).mp hremove
      rw [hsizes.numBucketsOf, ← hnew]
      have hrel := h.rel
      rw [hold] at hrel
      apply rel_cons_right_of_imp hrel
      intro a ha
      rw [hqi, hqdiv] at ha
      exact h.shaped.holds_older (Nat.le_of_lt hlt) hi ha hbucket
    · by_cases heq : (i, k) = q
      · rw [heq]
        exact get_set_self hq1 0
      · have hne' : (i, k) ≠ q' := fun heq' => by
          rw [← heq'] at hlt
          exact Nat.lt_irrefl _ hlt
        rw [get_set_of_ne heq, get_set_of_ne hne']
        exact hk

variable (slots : List (ℕ × ℕ))

theorem fst_of_foldl_relocateNext {state : Bool × CuckooFilter}
    (h : (slots.foldl (relocateNext i) state).1 = true) : state.1 = true := by
  induction slots generalizing state with
  | nil => exact h
  | cons q slots ih => exact (Bool.and_eq_true_iff.mp (ih h)).1

theorem foldl_relocateNext (state : Bool × CuckooFilter) (h : state.2.Matched live)
    (hi : i < state.2.filters.length)
    (hslots : ∀ q ∈ slots, q.1 < state.2.numBucketsOf i ∧ q.2 < state.2.slotsPerBucket) :
    MovedFrom i live state.2 (slots.foldl (relocateNext i) state).2 ∧
      ((slots.foldl (relocateNext i) state).1 = true →
        ∀ q ∈ slots, (slots.foldl (relocateNext i) state).2.get
          (i, q.1 * state.2.slotsPerBucket + q.2) = 0) := by
  induction slots generalizing state with
  | nil => exact ⟨.refl i h, fun _ q hq => absurd hq not_mem_nil⟩
  | cons q slots ih =>
    obtain ⟨hb, hs⟩ := hslots q mem_cons_self
    obtain ⟨hmoved, hdone⟩ := relocateSlot_spec h hi hb hs
    have hnext : (relocateNext i state q).2 = (state.2.relocateSlot i q.1 q.2).2 := rfl
    have hspb : (relocateNext i state q).2.slotsPerBucket = state.2.slotsPerBucket := by
      exact hmoved.sizes.slotsPerBucket
    have hmatched : (relocateNext i state q).2.Matched live := hnext ▸ hmoved.matched
    have hlength : i < (relocateNext i state q).2.filters.length := by
      rw [hnext, hmoved.sizes.length_filters]
      exact hi
    obtain ⟨hrest, hzeros⟩ := ih _ hmatched hlength fun q' hq' => by
      rw [hspb, hnext, hmoved.sizes.numBucketsOf]
      exact hslots q' (mem_cons_of_mem q hq')
    refine ⟨hmoved.trans hrest, fun hflag q' hq' => ?_⟩
    rcases mem_cons.mp hq' with rfl | hq'
    · -- the slot is emptied, and stays so
      have hfirst : (relocateNext i state q').1 = true := fst_of_foldl_relocateNext slots hflag
      have hslot : (state.2.relocateSlot i q'.1 q'.2).1 = true := (Bool.and_eq_true_iff.mp hfirst).2
      exact hrest.zero _ (hdone hslot)
    · rw [← hspb]
      exact hzeros hflag q' hq'

theorem mem_allSlots {q : ℕ × ℕ} : q ∈ f.allSlots i ↔ q.1 < f.numBucketsOf i ∧
    q.2 < f.slotsPerBucket := by
  obtain ⟨b, s⟩ := q
  simp [allSlots]

def shrunk (f : CuckooFilter) : CuckooFilter := { f with filters := f.filters.dropLast }

theorem Shaped.shrunk (h : f.Shaped) : f.shrunk.Shaped where
  slots_pos := h.slots_pos
  numBuckets := h.numBuckets
  expansion := h.expansion
  single := fun hzero => by
    have := h.single hzero
    rw [CuckooFilter.shrunk, length_dropLast]
    omega
  length := fun i hi => by
    rw [CuckooFilter.shrunk, length_dropLast] at hi
    have hget : f.shrunk.filters.getD i [] = f.filters.getD i [] := by
      rw [CuckooFilter.shrunk, getD_eq_getElem?_getD, getD_eq_getElem?_getD,
        getElem?_dropLast, if_pos hi]
    rw [hget]
    exact h.length i (by omega)

theorem Matched.shrunk (h : f.Matched live) (hne : f.filters ≠ [])
    (hzero : ∀ k, f.get (f.filters.length - 1, k) = 0) : f.shrunk.Matched live := by
  have hfilters : f.filters = f.shrunk.filters ++ [f.filters.getLast hne] :=
    (dropLast_append_getLast hne).symm
  refine ⟨h.shaped.shrunk, (rel_append hfilters rfl fun k => ?_).mp h.rel⟩
  rw [CuckooFilter.shrunk, length_dropLast]
  exact hzero k

/-- **`CompactSingleFilter`** keeps the matching, and takes no sub-filter but the one it emptied. -/
theorem compactSingleFilter_spec (h : f.Matched live) (hi : i < f.filters.length) :
    (f.compactSingleFilter i).2.Matched live ∧ i ≤ (f.compactSingleFilter i).2.filters.length := by
  have hslots : ∀ q ∈ f.allSlots i, q.1 < f.numBucketsOf i ∧ q.2 < f.slotsPerBucket :=
    fun q => mem_allSlots.mp
  obtain ⟨hmoved, hzeros⟩ := foldl_relocateNext (f.allSlots i) (true, f) h hi hslots
  rw [compactSingleFilter]
  generalize (f.allSlots i).foldl (relocateNext i) (true, f) = result at hmoved hzeros ⊢
  obtain ⟨fullyEmptied, g⟩ := result
  have hlength : g.filters.length = f.filters.length := hmoved.sizes.length_filters
  dsimp only
  split
  case isTrue hpop =>
    obtain ⟨hflag, hlast⟩ := hpop
    have hne : g.filters ≠ [] := by
      intro hnil
      rw [hnil] at hlength
      rw [← hlength] at hi
      exact Nat.not_lt_zero _ hi
    refine ⟨hmoved.matched.shrunk hne fun k => ?_, ?_⟩
    · -- every slot of the sub-filter has been emptied
      rw [← hlast]
      rcases Nat.lt_or_ge k (f.numBucketsOf i * f.slotsPerBucket) with hk | hk
      · have hpos := h.shaped.slots_pos
        have hmem : (k / f.slotsPerBucket, k % f.slotsPerBucket) ∈ f.allSlots i :=
          mem_allSlots.mpr ⟨(Nat.div_lt_iff_lt_mul hpos).mpr hk, Nat.mod_lt _ hpos⟩
        have hzero := hzeros hflag _ hmem
        rwa [Nat.mul_comm, Nat.div_add_mod] at hzero
      · rw [get, getD_eq_getElem?_getD, getElem?_eq_none]
        · rfl
        · rw [hmoved.sizes.length_getD, h.shaped.length_eq hi]
          exact hk
    · rw [length_dropLast]
      omega
  case isFalse => exact ⟨hmoved.matched, Nat.le_of_lt (hlength ▸ hi)⟩

/-- The loop of `Compact`, which does not come to the oldest sub-filter. -/
theorem compactLoop_spec (cont : Bool) {indices : List ℕ} (h : f.Matched live)
    (hsorted : indices.Pairwise (· > ·)) (hrange : ∀ i ∈ indices, 0 < i ∧ i < f.filters.length) :
    (compactLoop cont indices f).Matched live ∧
      (0 < f.filters.length → 0 < (compactLoop cont indices f).filters.length) := by
  induction indices generalizing f with
  | nil => exact ⟨h, id⟩
  | cons i rest ih =>
    obtain ⟨hpos, hlt⟩ := hrange i mem_cons_self
    obtain ⟨hmatched, hlength⟩ := compactSingleFilter_spec h hlt
    rw [compactLoop]
    generalize f.compactSingleFilter i = result at hmatched hlength ⊢
    obtain ⟨emptied, g⟩ := result
    have hkeep : 0 < g.filters.length := Nat.lt_of_lt_of_le hpos hlength
    dsimp only
    split
    · exact ⟨hmatched, fun _ => hkeep⟩
    · obtain ⟨hrest, hrestkeep⟩ := ih hmatched hsorted.of_cons fun j hj =>
        ⟨(hrange j (mem_cons_of_mem i hj)).1,
          Nat.lt_of_lt_of_le (rel_of_pairwise_cons hsorted hj) hlength⟩
      exact ⟨hrest, fun _ => hrestkeep hkeep⟩

/-- **`Compact`** keeps the matching. -/
theorem compact_spec (h : f.Matched live) (cont : Bool) :
    (f.compact cont).Matched live ∧ (f.filters ≠ [] → (f.compact cont).filters ≠ []) := by
  have hsorted : (range' 1 (f.filters.length - 1)).reverse.Pairwise (· > ·) := by
    rw [pairwise_reverse]
    exact pairwise_lt_range'
  obtain ⟨hmatched, hkeep⟩ := compactLoop_spec cont h hsorted fun i hi => by
    have := mem_range'_1.mp (mem_reverse.mp hi)
    omega
  exact ⟨hmatched.of_eq rfl rfl rfl rfl, fun hne =>
    length_pos_iff.mp (hkeep (length_pos_iff.mpr hne))⟩

end CuckooFilter

end Drakeydb.Cuckoo
