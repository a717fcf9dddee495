import Drakeydb.Search.RangeTree

/-!
# What a split yields

`Split` puts the entries below the median to the left and those above it to the right, and the
entries with the median value to the smaller side.
-/

namespace Drakeydb.Search

open List

variable {α : Type} [LinearOrder α] [BoundedOrder α]

/-- The minimum of some values, `⊤` if there are none. -/
def minOf (values : List α) : α := values.foldl min ⊤

/-- The maximum of some values, `⊥` if there are none. -/
def maxOf (values : List α) : α := values.foldl max ⊥

variable {k : α} {values : List α}

omit [BoundedOrder α] in
theorem le_foldl_min {a : α} : k ≤ values.foldl min a ↔ k ≤ a ∧ ∀ v ∈ values, k ≤ v := by
  induction values generalizing a with
  | nil => simp
  | cons v values ih => simp [ih, and_assoc]

omit [BoundedOrder α] in
theorem lt_foldl_min {a : α} : k < values.foldl min a ↔ k < a ∧ ∀ v ∈ values, k < v := by
  induction values generalizing a with
  | nil => simp
  | cons v values ih => simp [ih, and_assoc]

omit [BoundedOrder α] in
theorem foldl_max_le {a : α} : values.foldl max a ≤ k ↔ a ≤ k ∧ ∀ v ∈ values, v ≤ k := by
  induction values generalizing a with
  | nil => simp
  | cons v values ih => simp [ih, and_assoc]

theorem le_minOf : k ≤ minOf values ↔ ∀ v ∈ values, k ≤ v :=
  le_foldl_min.trans (and_iff_right le_top)

theorem lt_minOf (hk : k < ⊤) : k < minOf values ↔ ∀ v ∈ values, k < v :=
  lt_foldl_min.trans (and_iff_right hk)

theorem minOf_le {v : α} (hv : v ∈ values) : minOf values ≤ v :=
  le_minOf.mp le_rfl v hv

theorem le_maxOf {v : α} (hv : v ∈ values) : v ≤ maxOf values :=
  (foldl_max_le.mp le_rfl).2 v hv

theorem minOf_concat (v : α) : minOf (values ++ [v]) = min (minOf values) v := foldl_concat ..

theorem maxOf_concat (v : α) : maxOf (values ++ [v]) = max (maxOf values) v := foldl_concat ..

/-! ## §1 The loop -/

/-- What the loop has made of the entries it has seen. -/
structure SplitInv (median : α) (done : List (Entry α)) (s : SplitState α) : Prop where
  left : s.left.Inv
  right : s.right.Inv
  left_elems : s.left.elems = done.filter fun e => e.value < median
  right_elems : s.right.elems = done.filter fun e => median < e.value
  medianEntries : s.medianEntries = done.filter fun e => e.value = median
  lmin : s.lmin = minOf (s.left.elems.map Entry.value)
  lmax : s.lmax = maxOf (s.left.elems.map Entry.value)
  rmin : s.rmin = minOf (s.right.elems.map Entry.value)
  rmax : s.rmax = maxOf (s.right.elems.map Entry.value)

theorem splitInv_nil (median : α) (blockSize : ℕ) :
    SplitInv median [] ⟨.empty blockSize, .empty blockSize, [], ⊤, ⊥, ⊤, ⊥⟩ where
  left := BlockList.inv_empty blockSize
  right := BlockList.inv_empty blockSize
  left_elems := rfl
  right_elems := rfl
  medianEntries := rfl
  lmin := rfl
  lmax := rfl
  rmin := rfl
  rmax := rfl

theorem SplitInv.step {median : α} {done : List (Entry α)} {s : SplitState α} {e : Entry α}
    (h : SplitInv median done s) (hsorted : Sorted (done ++ [e])) :
    SplitInv median (done ++ [e]) (splitStep median s e) := by
  have hlt : ∀ x ∈ done, x < e := fun x hx =>
    (pairwise_append.mp hsorted).2.2 x hx e mem_cons_self
  have hskip (p : Entry α → Prop) [DecidablePred p] (hp : ¬p e) : (done ++ [e]).filter p =
    done.filter p := by simp [hp]
  have hpick (p : Entry α → Prop) [DecidablePred p] (hp : p e) : (done ++ [e]).filter p =
    done.filter p ++ [e] := by
    simp [hp]
  obtain ⟨left, right, medianEntries, lmin, lmax, rmin, rmax⟩ := s
  rw [splitStep]
  split
  case isTrue hless =>
    obtain ⟨hinv, -, helems⟩ := BlockList.pushBack_spec h.left (t := e) fun x hx => by
      rw [h.left_elems] at hx
      exact hlt x (mem_filter.mp hx).1
    refine ⟨hinv, h.right, ?_, ?_, ?_, ?_, ?_, h.rmin, h.rmax⟩
    · rw [helems, h.left_elems, hpick _ hless]
    · rw [hskip _ hless.not_gt, h.right_elems]
    · rw [hskip _ hless.ne, h.medianEntries]
    · rw [helems, map_append, map_singleton, minOf_concat, h.lmin]
    · rw [helems, map_append, map_singleton, maxOf_concat, h.lmax]
  case isFalse hnot =>
    split
    case isTrue hgreater =>
      obtain ⟨hinv, -, helems⟩ := BlockList.pushBack_spec h.right (t := e) fun x hx => by
        rw [h.right_elems] at hx
        exact hlt x (mem_filter.mp hx).1
      refine ⟨h.left, hinv, ?_, ?_, ?_, h.lmin, h.lmax, ?_, ?_⟩
      · rw [hskip _ hnot, h.left_elems]
      · rw [helems, h.right_elems, hpick _ hgreater]
      · rw [hskip _ hgreater.ne', h.medianEntries]
      · rw [helems, map_append, map_singleton, minOf_concat, h.rmin]
      · rw [helems, map_append, map_singleton, maxOf_concat, h.rmax]
    case isFalse hnot' =>
      have heq : e.value = median := le_antisymm (le_of_not_gt hnot') (le_of_not_gt hnot)
      refine ⟨h.left, h.right, ?_, ?_, ?_, h.lmin, h.lmax, h.rmin, h.rmax⟩
      · rw [hskip _ hnot, h.left_elems]
      · rw [hskip _ hnot', h.right_elems]
      · rw [hpick _ heq, h.medianEntries]

theorem splitInv_foldl {median : α} {done : List (Entry α)} (rest : List (Entry α))
    {s : SplitState α}
    (h : SplitInv median done s) (hsorted : Sorted (done ++ rest)) :
    SplitInv median (done ++ rest) (rest.foldl (splitStep median) s) := by
  induction rest generalizing done s with
  | nil => rwa [append_nil]
  | cons e rest ih =>
    rw [append_cons] at hsorted ⊢
    exact ih (h.step (pairwise_append.mp hsorted).1) hsorted

/-! ## §2 The two sides -/

omit [BoundedOrder α] in
theorem insertAll_spec {b : BlockList (Entry α)} (hb : b.Inv) (entries : List (Entry α)) :
    (insertAll b entries).Inv ∧ ∀ x, x ∈ (insertAll b entries).elems ↔ x ∈ entries ∨
      x ∈ b.elems := by
  induction entries generalizing b with
  | nil => exact ⟨hb, fun x => (or_iff_right not_mem_nil).symm⟩
  | cons e entries ih =>
    obtain ⟨hinv, _, hmem, _⟩ := BlockList.insert_spec hb e
    obtain ⟨hinv', hmem'⟩ := ih hinv
    refine ⟨hinv', fun x => (hmem' x).trans ?_⟩
    rw [hmem, mem_cons, or_left_comm, or_assoc]

/-- The two sides of a split. -/
structure SplitOk (b : BlockList (Entry α)) (r : SplitResult α) : Prop where
  left : r.left.Inv
  right : r.right.Inv
  mem_iff : ∀ x, x ∈ b.elems ↔ x ∈ r.left.elems ∨ x ∈ r.right.elems
  left_lt : ∀ x ∈ r.left.elems, x.value < r.median
  le_right : ∀ x ∈ r.right.elems, r.median ≤ x.value
  right_ne : r.right.elems ≠ []
  lmin_le : ∀ x ∈ r.left.elems, r.lmin ≤ x.value
  le_lmin : ∀ k, (∀ x ∈ b.elems, k ≤ x.value) → k ≤ r.lmin
  le_lmax : ∀ x ∈ r.left.elems, x.value ≤ r.lmax
  le_rmax : ∀ x ∈ r.right.elems, x.value ≤ r.rmax
  le_median : ∀ k, (∀ x ∈ b.elems, k ≤ x.value) → k ≤ r.median
  lt_median : ∀ k < ⊤, (∀ x ∈ b.elems, k < x.value) → k < r.median

theorem medianValue_mem (hne : values ≠ []) : medianValue values ∈ values := by
  have hlen : values.length / 2 < (values.insertionSort (· ≤ ·)).length := by
    rw [length_insertionSort]
    have := length_pos_iff.mpr hne
    omega
  rw [medianValue, getElem?_eq_getElem hlen, Option.getD_some]
  exact (mem_insertionSort _).mp (getElem_mem hlen)

/-- **A split** of a block that holds something. -/
theorem split_spec {b : BlockList (Entry α)} (hb : b.Inv) (hne : b.elems ≠ [])
    (hfinite : ∀ x ∈ b.elems, x.value < ⊤) : SplitOk b (split b) := by
  have hvalues : b.elems.map Entry.value ≠ [] := fun h => hne (map_eq_nil_iff.mp h)
  obtain ⟨e, he, hmedian⟩ := mem_map.mp (medianValue_mem hvalues)
  have hinv := splitInv_foldl b.elems
    (splitInv_nil (medianValue (b.elems.map Entry.value)) b.blockSize) hb.sorted
  rw [split]
  generalize medianValue (b.elems.map Entry.value) = median at hinv hmedian ⊢
  generalize b.elems.foldl (splitStep median) _ = s at hinv ⊢
  have hleft : ∀ x, x ∈ s.left.elems ↔ x ∈ b.elems ∧ x.value < median := fun x => by
    simp [hinv.left_elems]
  have hright : ∀ x, x ∈ s.right.elems ↔ x ∈ b.elems ∧ median < x.value := fun x => by
    simp [hinv.right_elems]
  have hmid : ∀ x, x ∈ s.medianEntries ↔ x ∈ b.elems ∧ x.value = median := fun x => by
    simp [hinv.medianEntries]
  have hall : ∀ x, x ∈ b.elems ↔ x ∈ s.left.elems ∨ x ∈ s.medianEntries ∨ x ∈ s.right.elems := by
    intro x
    rw [hleft, hmid, hright, ← and_or_left, ← and_or_left]
    exact (and_iff_left (lt_trichotomy x.value median)).symm
  have hmem := fun {b : BlockList (Entry α)} {x : Entry α} (hx : x ∈ b.elems) =>
    mem_map_of_mem (f := Entry.value) hx
  have hlmin : ∀ k, (∀ x ∈ b.elems, k ≤ x.value) → k ≤ s.lmin := fun k hk => by
    rw [hinv.lmin, le_minOf, forall_mem_map]
    exact fun x hx => hk x ((hleft x).mp hx).1
  split
  case isTrue hsmaller =>
    -- the median goes to the left, and the right side begins at its own minimum
    obtain ⟨hinv', hmem'⟩ := insertAll_spec hinv.left s.medianEntries
    have hpos : s.right.elems ≠ [] := by
      intro h
      rw [hinv.right.size_eq, h] at hsmaller
      exact Nat.not_lt_zero _ hsmaller
    have hlt : median < s.rmin := by
      rw [hinv.rmin, lt_minOf (hmedian ▸ hfinite e he), forall_mem_map]
      exact fun x hx => ((hright x).mp hx).2
    refine ⟨hinv', hinv.right, fun x => ?_, fun x hx => ?_, fun x hx => ?_, hpos, fun x hx => ?_,
      fun k hk => ?_, fun x hx => ?_, fun x hx => ?_, fun k hk => ?_, fun k _ hk => ?_⟩
    · rw [hall, hmem', or_left_comm, or_assoc]
    · rcases (hmem' x).mp hx with hx | hx
      · exact ((hmid x).mp hx).2.trans_lt hlt
      · exact ((hleft x).mp hx).2.trans hlt
    · exact hinv.rmin ▸ minOf_le (hmem hx)
    · rcases (hmem' x).mp hx with hx | hx
      · exact (min_le_right _ _).trans ((hmid x).mp hx).2.ge
      · exact (min_le_left _ _).trans (hinv.lmin ▸ minOf_le (hmem hx))
    · exact le_min (hlmin k hk) (hmedian ▸ hk e he)
    · rcases (hmem' x).mp hx with hx | hx
      · exact ((hmid x).mp hx).2.le
      · exact ((hleft x).mp hx).2.le
    · exact hinv.rmax ▸ le_maxOf (hmem hx)
    · exact (hmedian ▸ hk e he : k ≤ median).trans hlt.le
    · exact (hmedian ▸ hk e he : k < median).trans hlt
  case isFalse =>
    obtain ⟨hinv', hmem'⟩ := insertAll_spec hinv.right s.medianEntries
    have hmidmem : e ∈ s.medianEntries := (hmid e).mpr ⟨he, hmedian⟩
    refine ⟨hinv.left, hinv', fun x => ?_, fun x hx => ((hleft x).mp hx).2, fun x hx => ?_,
      fun h => ?_,
      fun x hx => ?_, fun k hk => ?_, fun x hx => ?_, fun x hx => ?_, fun k hk => ?_,
        fun k _ hk => ?_⟩
    · rw [hall, hmem']
    · rcases (hmem' x).mp hx with hx | hx
      · exact ((hmid x).mp hx).2.ge
      · exact ((hright x).mp hx).2.le
    · have hin := (hmem' e).mpr (.inl hmidmem)
      rw [h] at hin
      cases hin
    · exact hinv.lmin ▸ minOf_le (hmem hx)
    · exact hlmin k hk
    · exact hinv.lmax ▸ le_maxOf (hmem hx)
    · rcases (hmem' x).mp hx with hx | hx
      · exact ((hmid x).mp hx).2.le.trans (le_max_right _ _)
      · exact (hinv.rmax ▸ le_maxOf (hmem hx) : x.value ≤ s.rmax).trans (le_max_left _ _)
    · exact hmedian ▸ hk e he
    · exact hmedian ▸ hk e he

end Drakeydb.Search
