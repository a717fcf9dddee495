import Mathlib.Data.Finset.Sort

/-!
# Cursors over Sets of Numbers

A cursor iterates over numbers in increasing order and can seek forward. What it is worth is the set
of numbers still ahead of it; `Lawful` says how the operations change this set, and whatever is
built from the operations of lawful cursors can be told in terms of sets.
-/

namespace Drakeydb.Lib.SortedCursor

open Finset

variable {ι κ : Type*}

/-- The operations of an iterator over increasing numbers; `left` bounds the number of its steps. -/
structure Cursor (ι : Type*) where
  atEnd : ι → Bool
  value : ι → ℕ
  next : ι → ι
  seek : ℕ → ι → ι
  left : ι → ℕ

/-- The numbers ahead of a cursor, and how its operations change them. -/
structure Lawful (c : Cursor ι) (Valid : ι → Prop) (ahead : ι → Finset ℕ) : Prop where
  atEnd_iff : ∀ it, Valid it → (c.atEnd it = true ↔ ahead it = ∅)
  card_le : ∀ it, Valid it → (ahead it).card ≤ c.left it
  value_mem : ∀ it, Valid it → ahead it ≠ ∅ → c.value it ∈ ahead it
  value_le : ∀ it, Valid it → ∀ n ∈ ahead it, c.value it ≤ n
  valid_next : ∀ it, Valid it → ahead it ≠ ∅ → Valid (c.next it)
  ahead_next : ∀ it, Valid it → ahead it ≠ ∅ → ahead (c.next it) = (ahead it).erase (c.value it)
  valid_seek : ∀ it n, Valid it → Valid (c.seek n it)
  ahead_seek : ∀ it n, Valid it → ahead (c.seek n it) = (ahead it).filter (n ≤ ·)

/-- The laws where a cursor stands. -/
def LawfulAt (c : Cursor ι) (Valid : ι → Prop) (ahead : ι → Finset ℕ) (it : ι) : Prop :=
  (c.atEnd it = true ↔ ahead it = ∅) ∧ (ahead it).card ≤ c.left it ∧
    (ahead it ≠ ∅ → c.value it ∈ ahead it ∧ Valid (c.next it) ∧
      ahead (c.next it) = (ahead it).erase (c.value it)) ∧
    (∀ n ∈ ahead it, c.value it ≤ n) ∧ ∀ n, Valid (c.seek n it) ∧
      ahead (c.seek n it) = (ahead it).filter (n ≤ ·)

theorem lawful_iff {c : Cursor ι} {Valid : ι → Prop} {ahead : ι → Finset ℕ} :
    Lawful c Valid ahead ↔ ∀ it, Valid it → LawfulAt c Valid ahead it := by
  constructor
  · rintro ⟨hend, hcard, hmem, hle, hnext, hrest, hseek, hafter⟩ it h
    exact ⟨hend it h, hcard it h, fun hne =>
      ⟨hmem it h hne, hnext it h hne, hrest it h hne⟩, hle it h,
      fun n => ⟨hseek it n h, hafter it n h⟩⟩
  · intro h
    constructor <;> intro it <;> grind [h it, LawfulAt]

/-! ## §1 Sorted lists of sets -/

theorem sort_eq_cons {s : Finset ℕ} {m : ℕ} (hm : m ∈ s) (hle : ∀ n ∈ s, m ≤ n) :
    s.sort = m :: (s.erase m).sort := by
  conv_lhs => rw [← insert_erase hm]
  exact sort_insert _ (fun n hn => hle n (mem_of_mem_erase hn)) (notMem_erase m s)

theorem eq_sort_of_sortedLT {l : List ℕ} {s : Finset ℕ} (hl : l.Pairwise (· < ·))
    (hs : ∀ n, n ∈ l ↔ n ∈ s) : l = s.sort := by
  have hnodup : l.Nodup := hl.imp fun h => Nat.ne_of_lt h
  have hset : l.toFinset = s := by
    ext n
    rw [List.mem_toFinset, hs]
  rw [← hset]
  exact ((List.toFinset_sort _ hnodup).mpr (hl.imp fun h => Nat.le_of_lt h)).symm

/-! ## §2 Walking and seeking -/

theorem filter_erase_of_lt {v n : ℕ} (hlt : v < n) (s : Finset ℕ) :
    (s.erase v).filter (n ≤ ·) = s.filter (n ≤ ·) := by
  rw [filter_erase, erase_eq_of_notMem]
  intro hmem
  exact Nat.not_le_of_lt hlt (mem_filter.mp hmem).2

section One

variable (c : Cursor ι) {Valid : ι → Prop} {ahead : ι → Finset ℕ}

/-- The values until the end. -/
def walkSteps : ℕ → ι → List ℕ
  | 0, _ => []
  | fuel + 1, it => if c.atEnd it then [] else c.value it :: walkSteps fuel (c.next it)

/-- Iterating to the end. -/
def walk (it : ι) : List ℕ := walkSteps c (c.left it) it

/-- Single steps while the value is too small. -/
def stepTo (n : ℕ) : ℕ → ι → ι
  | 0, it => it
  | fuel + 1, it =>
    if c.atEnd it then it else if c.value it < n then stepTo n fuel (c.next it) else it

/-- Forward to the first value that is not below `n`: in one go if the gap is above a threshold,
else by single steps, of which the first is always made. -/
def advance (threshold n : ℕ) (it : ι) : ι :=
  if threshold < n - c.value it then c.seek n it else stepTo c n (c.left it) (c.next it)

variable {c} (hc : Lawful c Valid ahead)
include hc

theorem walkSteps_eq {fuel : ℕ} {it : ι} (hit : Valid it) (hfuel : (ahead it).card ≤ fuel) :
    walkSteps c fuel it = (ahead it).sort := by
  induction fuel generalizing it with
  | zero =>
    rw [card_eq_zero.mp (Nat.le_zero.mp hfuel), sort_empty]
    rfl
  | succ fuel ih =>
    rw [walkSteps]
    split
    case isTrue hend => simp [(hc.atEnd_iff it hit).mp hend]
    case isFalse hend =>
      have hne : ahead it ≠ ∅ := fun h => hend ((hc.atEnd_iff it hit).mpr h)
      have hmem := hc.value_mem it hit hne
      have hnext := hc.ahead_next it hit hne
      have hcard : (ahead (c.next it)).card ≤ fuel := by
        rw [hnext, card_erase_of_mem hmem]
        omega
      rw [sort_eq_cons hmem (hc.value_le it hit), ih (hc.valid_next it hit hne) hcard, hnext]

/-- **Iterating to the end** lists what is ahead, in increasing order. -/
theorem walk_eq {it : ι} (hit : Valid it) : walk c it = (ahead it).sort :=
  walkSteps_eq hc hit (hc.card_le it hit)

theorem stepTo_spec (n : ℕ) {fuel : ℕ} {it : ι} (hit : Valid it) (hfuel : (ahead it).card ≤ fuel) :
    Valid (stepTo c n fuel it) ∧ ahead (stepTo c n fuel it) = (ahead it).filter (n ≤ ·) := by
  induction fuel generalizing it with
  | zero =>
    have hnil := card_eq_zero.mp (Nat.le_zero.mp hfuel)
    refine ⟨hit, ?_⟩
    rw [stepTo, hnil, filter_empty]
  | succ fuel ih =>
    rw [stepTo]
    split
    case isTrue hend =>
      refine ⟨hit, ?_⟩
      rw [(hc.atEnd_iff it hit).mp hend, filter_empty]
    case isFalse hend =>
      have hne : ahead it ≠ ∅ := fun h => hend ((hc.atEnd_iff it hit).mpr h)
      split
      case isTrue hlt =>
        have hnext := hc.ahead_next it hit hne
        have hcard : (ahead (c.next it)).card ≤ fuel := by
          rw [hnext, card_erase_of_mem (hc.value_mem it hit hne)]
          omega
        obtain ⟨hvalid, hahead⟩ := ih (hc.valid_next it hit hne) hcard
        refine ⟨hvalid, hahead.trans ?_⟩
        rw [hnext, filter_erase_of_lt hlt]
      case isFalse hge =>
        refine ⟨hit, (filter_eq_self.mpr fun m hm => ?_).symm⟩
        exact (Nat.le_of_not_lt hge).trans (hc.value_le it hit m hm)

/-- **Advancing** to a number above the present value. -/
theorem advance_spec (threshold : ℕ) {n : ℕ} {it : ι} (hit : Valid it) (hne : ahead it ≠ ∅)
    (hlt : c.value it < n) :
    Valid (advance c threshold n it) ∧
      ahead (advance c threshold n it) = (ahead it).filter (n ≤ ·) := by
  rw [advance]
  split
  case isTrue => exact ⟨hc.valid_seek it n hit, hc.ahead_seek it n hit⟩
  case isFalse =>
    have hnext := hc.ahead_next it hit hne
    have hcard : (ahead (c.next it)).card ≤ c.left it := by
      rw [hnext]
      exact (card_erase_le).trans (hc.card_le it hit)
    obtain ⟨hvalid, hahead⟩ := stepTo_spec hc n (hc.valid_next it hit hne) hcard
    refine ⟨hvalid, hahead.trans ?_⟩
    rw [hnext, filter_erase_of_lt hlt]

end One

/-! ## §3 Merging two cursors -/

section Two

variable (c : Cursor ι) (d : Cursor κ) {Valid : ι → Prop} {Valid' : κ → Prop} {ahead : ι → Finset ℕ}
  {ahead' : κ → Finset ℕ}

/-- The intersection, by advancing the smaller cursor to the value of the other one. -/
def intersectSteps (threshold : ℕ) : ℕ → ι → κ → List ℕ
  | 0, _, _ => []
  | fuel + 1, l, r =>
    if c.atEnd l || d.atEnd r then []
    else if c.value l = d.value r then
      let l' := c.next l
      c.value l ::
        intersectSteps threshold fuel l'
          (if c.atEnd l' then r else advance d threshold (c.value l') r)
    else if c.value l < d.value r then
      intersectSteps threshold fuel (advance c threshold (d.value r) l) r
    else intersectSteps threshold fuel l (advance d threshold (c.value l) r)

/-- The intersection of what is ahead of two cursors. -/
def intersect (threshold : ℕ) (l : ι) (r : κ) : List ℕ :=
  intersectSteps c d threshold (c.left l + d.left r) l r

/-- The union, the smaller value first. -/
def unionSteps : ℕ → ι → κ → List ℕ
  | 0, _, _ => []
  | fuel + 1, l, r =>
    if c.atEnd l then walk d r
    else if d.atEnd r then walk c l
    else if c.value l < d.value r then c.value l :: unionSteps fuel (c.next l) r
    else if d.value r < c.value l then d.value r :: unionSteps fuel l (d.next r)
    else c.value l :: unionSteps fuel (c.next l) (d.next r)

/-- The union of what is ahead of two cursors. -/
def union (l : ι) (r : κ) : List ℕ := unionSteps c d (c.left l + d.left r + 1) l r

variable {c d} (hc : Lawful c Valid ahead) (hd : Lawful d Valid' ahead')
include hc hd

omit hd in
/-- Advancing to a bound of another set keeps the intersection with it, and leaves less ahead. -/
theorem advance_inter (threshold : ℕ) {n : ℕ} {it : ι} (hit : Valid it) (hne : ahead it ≠ ∅)
    (hlt : c.value it < n) {s : Finset ℕ} (hs : ∀ m ∈ s, n ≤ m) :
    Valid (advance c threshold n it) ∧ ahead (advance c threshold n it) ∩ s = ahead it ∩ s ∧
      (ahead (advance c threshold n it)).card < (ahead it).card := by
  obtain ⟨hvalid, hahead⟩ := advance_spec hc threshold hit hne hlt
  refine ⟨hvalid, ?_, ?_⟩
  · rw [hahead]
    ext m
    simp only [mem_inter, mem_filter]
    exact ⟨fun h => ⟨h.1.1, h.2⟩, fun h => ⟨⟨h.1, hs m h.2⟩, h.2⟩⟩
  · rw [hahead]
    apply card_lt_card
    apply filter_ssubset.mpr
    exact ⟨c.value it, hc.value_mem it hit hne, Nat.not_le_of_lt hlt⟩

theorem intersectSteps_eq (threshold : ℕ) {fuel : ℕ} {l : ι} {r : κ} (hl : Valid l) (hr : Valid' r)
    (hfuel : (ahead l).card + (ahead' r).card ≤ fuel) :
    intersectSteps c d threshold fuel l r = (ahead l ∩ ahead' r).sort := by
  induction fuel generalizing l r with
  | zero =>
    have hnil := card_eq_zero.mp (Nat.le_zero.mp (Nat.le_of_add_right_le hfuel))
    rw [hnil, empty_inter, sort_empty]
    rfl
  | succ fuel ih =>
    rw [intersectSteps]
    split
    case isTrue hend =>
      rcases Bool.or_eq_true_iff.mp hend with hend | hend
      · simp [(hc.atEnd_iff l hl).mp hend]
      · simp [(hd.atEnd_iff r hr).mp hend]
    case isFalse hend =>
      have hlne : ahead l ≠ ∅ :=
        fun h => hend (Bool.or_eq_true_iff.mpr (.inl ((hc.atEnd_iff l hl).mpr h)))
      have hrne : ahead' r ≠ ∅ :=
        fun h => hend (Bool.or_eq_true_iff.mpr (.inr ((hd.atEnd_iff r hr).mpr h)))
      have hlmem := hc.value_mem l hl hlne
      have hrmem := hd.value_mem r hr hrne
      split
      case isTrue heq =>
        have hnext := hc.ahead_next l hl hlne
        have hvnext := hc.valid_next l hl hlne
        have hcard : (ahead (c.next l)).card + 1 = (ahead l).card := by
          rw [hnext]
          exact card_erase_add_one hlmem
        have hmin : ∀ n ∈ ahead l ∩ ahead' r, c.value l ≤ n := fun n hn =>
          hc.value_le l hl n (mem_inter.mp hn).1
        have herase : (ahead l ∩ ahead' r).erase (c.value l) = ahead (c.next l) ∩ ahead' r := by
          simp [hnext]
        rw [sort_eq_cons (mem_inter.mpr ⟨hlmem, heq ▸ hrmem⟩) hmin, herase]
        dsimp only
        congr 1
        split
        case isTrue => exact ih hvnext hr (by omega)
        case isFalse hend' =>
          have hne' : ahead (c.next l) ≠ ∅ := fun h => hend' ((hc.atEnd_iff _ hvnext).mpr h)
          have hmem' := hc.value_mem _ hvnext hne'
          have hlt : d.value r < c.value (c.next l) := by
            rw [hnext] at hmem'
            obtain ⟨hne, hmem⟩ := mem_erase.mp hmem'
            exact heq ▸ lt_of_le_of_ne (hc.value_le l hl _ hmem) (Ne.symm hne)
          obtain ⟨hvalid, hinter, hless⟩ := advance_inter hd threshold hr hrne hlt
            (hc.value_le _ hvnext)
          rw [ih hvnext hvalid (by omega), inter_comm, hinter, inter_comm]
      case isFalse hneq =>
        split
        case isTrue hlt =>
          obtain ⟨hvalid, hinter, hless⟩ :=
            advance_inter hc threshold hl hlne hlt (hd.value_le r hr)
          rw [ih hvalid hr (by omega), hinter]
        case isFalse hge =>
          have hlt : d.value r < c.value l := by omega
          obtain ⟨hvalid, hinter, hless⟩ :=
            advance_inter hd threshold hr hrne hlt (hc.value_le l hl)
          rw [ih hl hvalid (by omega), inter_comm, hinter, inter_comm]

/-- **Intersecting** two cursors. -/
theorem intersect_eq (threshold : ℕ) {l : ι} {r : κ} (hl : Valid l) (hr : Valid' r) :
    intersect c d threshold l r = (ahead l ∩ ahead' r).sort :=
  intersectSteps_eq hc hd threshold hl hr (Nat.add_le_add (hc.card_le l hl) (hd.card_le r hr))

theorem unionSteps_eq {fuel : ℕ} {l : ι} {r : κ} (hl : Valid l) (hr : Valid' r)
    (hfuel : (ahead l).card + (ahead' r).card < fuel) :
    unionSteps c d fuel l r = (ahead l ∪ ahead' r).sort := by
  induction fuel generalizing l r with
  | zero => exact absurd hfuel (Nat.not_lt_zero _)
  | succ fuel ih =>
    rw [unionSteps]
    split
    case isTrue hend => rw [(hc.atEnd_iff l hl).mp hend, empty_union, walk_eq hd hr]
    case isFalse hlend =>
      split
      case isTrue hend => rw [(hd.atEnd_iff r hr).mp hend, union_empty, walk_eq hc hl]
      case isFalse hrend =>
        have hlne : ahead l ≠ ∅ := fun h => hlend ((hc.atEnd_iff l hl).mpr h)
        have hrne : ahead' r ≠ ∅ := fun h => hrend ((hd.atEnd_iff r hr).mpr h)
        have hlmem := hc.value_mem l hl hlne
        have hrmem := hd.value_mem r hr hrne
        have hlnext := hc.ahead_next l hl hlne
        have hrnext := hd.ahead_next r hr hrne
        have hlcard := card_erase_add_one hlmem
        have hrcard := card_erase_add_one hrmem
        have hlle := hc.value_le l hl
        have hrle := hd.value_le r hr
        split
        case isTrue hlt =>
          have hmin : ∀ n ∈ ahead l ∪ ahead' r, c.value l ≤ n := fun n hn =>
            (mem_union.mp hn).elim (hlle n) fun h => hlt.le.trans (hrle n h)
          have hnot : c.value l ∉ ahead' r := fun h => Nat.not_le_of_lt hlt (hrle _ h)
          rw [sort_eq_cons (mem_union_left _ hlmem) hmin, erase_union_distrib,
            erase_eq_of_notMem hnot,
              ih (hc.valid_next l hl hlne) hr (by rw [hlnext]; omega), hlnext]
        case isFalse hge =>
          split
          case isTrue hlt =>
            have hmin : ∀ n ∈ ahead l ∪ ahead' r, d.value r ≤ n := fun n hn =>
              (mem_union.mp hn).elim (fun h => hlt.le.trans (hlle n h)) (hrle n)
            have hnot : d.value r ∉ ahead l := fun h => Nat.not_le_of_lt hlt (hlle _ h)
            rw [sort_eq_cons (mem_union_right _ hrmem) hmin, erase_union_distrib,
              erase_eq_of_notMem hnot,
                ih hl (hd.valid_next r hr hrne) (by rw [hrnext]; omega), hrnext]
          case isFalse hge' =>
            have heq : c.value l = d.value r := by omega
            have hmin : ∀ n ∈ ahead l ∪ ahead' r, c.value l ≤ n := fun n hn =>
              (mem_union.mp hn).elim (hlle n) fun h => heq ▸ hrle n h
            rw [sort_eq_cons (mem_union_left _ hlmem) hmin, erase_union_distrib,
              ih (hc.valid_next l hl hlne) (hd.valid_next r hr hrne)
                (by rw [hlnext, hrnext]; omega),
              hlnext, hrnext, heq]

/-- **Uniting** two cursors. -/
theorem union_eq {l : ι} {r : κ} (hl : Valid l) (hr : Valid' r) :
    union c d l r = (ahead l ∪ ahead' r).sort :=
  unionSteps_eq hc hd hl hr (Nat.lt_succ_of_le (Nat.add_le_add (hc.card_le l hl) (hd.card_le r hr)))

end Two

end Drakeydb.Lib.SortedCursor
