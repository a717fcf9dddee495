import Drakeydb.Search.Iterators

/-!
# Iterators over query results

The iterators of `range_tree.h`, and all kinds of iterators that results are read through. The
iterator over a range skips pairs whose value is outside the range, and the further pairs of the
document it has just left; the merging iterator runs through two blocks at once.
-/

namespace Drakeydb.Search

open Lib Lib.SortedCursor List
open Finset hiding mem_filter mem_map mem_of_mem_erase mem_union_right

variable {α : Type} [LinearOrder α]

def kInvalidDocId : ℕ := 2 ^ 32 - 1

/-! ## §1 Skipping -/

namespace BlockIter

variable {τ : Type} {docId : τ → ℕ}

/-- Single steps as long as the pairs are not wanted. -/
def skipWhile (p : τ → Bool) : ℕ → BlockIter τ → BlockIter τ
  | 0, it => it
  | fuel + 1, it =>
    match it.cur with
    | [] => it
    | e :: _ => if p e then skipWhile p fuel it.next else it

theorem skipWhile_spec (p : τ → Bool) {fuel : ℕ} {it : BlockIter τ} (h : Valid docId it)
    (hfuel : it.entries.length ≤ fuel) :
    Valid docId (it.skipWhile p fuel) ∧ (it.skipWhile p fuel).entries = it.entries.dropWhile p := by
  induction fuel generalizing it with
  | zero =>
    have hnil := eq_nil_of_length_eq_zero (Nat.le_zero.mp hfuel)
    refine ⟨h, ?_⟩
    rw [skipWhile, hnil]
    rfl
  | succ fuel ih =>
    rw [skipWhile]
    split
    case h_1 hcur =>
      have hnil := (entries_eq_nil_iff h).mpr hcur
      refine ⟨h, ?_⟩
      rw [hnil]
      rfl
    case h_2 e cur hcur =>
      have hentries : it.entries = e :: (cur ++ it.later.flatten) := by
        rw [entries, hcur]
        rfl
      split
      case isTrue hskip =>
        obtain ⟨hvalid, hnext⟩ := next_spec h
        rw [hentries, tail_cons] at hnext
        rw [hentries, length_cons] at hfuel
        obtain ⟨hvalid', hrest⟩ := ih hvalid (hnext ▸ Nat.le_of_succ_le_succ hfuel)
        refine ⟨hvalid', ?_⟩
        rw [hrest, hnext, hentries, dropWhile_cons_of_pos hskip]
      case isFalse hkeep =>
        refine ⟨h, ?_⟩
        rw [hentries, dropWhile_cons_of_neg hkeep]

end BlockIter

/-! ## §2 Documents in a range -/

def inRange (l r : α) (e : Entry α) : Bool := decide (l ≤ e.value ∧ e.value ≤ r)

/-- The documents with a value in the range. -/
def docsIn (l r : α) (v : List (Entry α)) : Finset ℕ :=
  ((v.filter (inRange l r)).map Entry.id).toFinset

variable {n : ℕ} {e : Entry α}

section Docs

variable {l r : α} {v : List (Entry α)}

theorem mem_docsIn : n ∈ docsIn l r v ↔ ∃ e ∈ v, inRange l r e = true ∧ e.id = n := by
  simp only [docsIn, mem_toFinset, mem_map, mem_filter, and_assoc]

theorem docsIn_append (v v' : List (Entry α)) :
    docsIn l r (v ++ v') = docsIn l r v ∪ docsIn l r v' := by
  rw [docsIn, filter_append, map_append, toFinset_append]
  rfl

theorem card_docsIn_le (v : List (Entry α)) : (docsIn l r v).card ≤ v.length :=
  (toFinset_card_le _).trans (by rw [length_map]; exact length_filter_le _ _)

theorem docsIn_dropWhile_outside (v : List (Entry α)) :
    docsIn l r (v.dropWhile fun e => !inRange l r e) = docsIn l r v := by
  have hskipped : docsIn l r (v.takeWhile fun e => !inRange l r e) = ∅ := by
    apply eq_empty_of_forall_notMem
    intro n hn
    obtain ⟨e, he, hin, -⟩ := mem_docsIn.mp hn
    have hout := mem_takeWhile_imp he
    rw [hin] at hout
    cases hout
  conv_rhs => rw [← takeWhile_append_dropWhile (p := fun e => !inRange l r e) (l := v)]
  rw [docsIn_append, hskipped, empty_union]

theorem docsIn_cons (e : Entry α) (v : List (Entry α)) :
    docsIn l r (e :: v) = if inRange l r e then insert e.id (docsIn l r v) else docsIn l r v := by
  cases hin : inRange l r e <;> simp [docsIn, hin]

theorem docsIn_dropWhile_below (hsorted : ById Entry.id v) (n : ℕ) :
    docsIn l r (v.dropWhile fun e => decide (e.id < n)) = (docsIn l r v).filter (n ≤ ·) := by
  have hfrom : FromSome (fun e : Entry α => decide (n ≤ e.id)) v :=
    hsorted.imp fun hle => by simpa using hle.trans'
  have hdrop : (v.dropWhile fun e => decide (e.id < n)) = v.filter fun e => decide (n ≤ e.id) := by
    rw [← hfrom.dropWhile_eq_filter]
    simp [← decide_not]
  rw [hdrop]
  ext m
  simp only [mem_docsIn, Finset.mem_filter, mem_filter, decide_eq_true_eq]
  constructor
  · rintro ⟨e, ⟨he, hle⟩, hin, rfl⟩
    exact ⟨⟨e, he, hin, rfl⟩, hle⟩
  · rintro ⟨⟨e, he, hin, rfl⟩, hle⟩
    exact ⟨e, ⟨he, hle⟩, hin, rfl⟩

theorem docsIn_dropWhile_same (hsorted : ById Entry.id (e :: v)) :
    docsIn l r (v.dropWhile fun e' => !inRange l r e' || e'.id == e.id) =
      (docsIn l r (e :: v)).erase e.id := by
  rw [docsIn_cons]
  suffices h : docsIn l r (v.dropWhile fun e' => !inRange l r e' || e'.id == e.id) =
    (docsIn l r v).erase e.id by
    split <;> simp [h]
  obtain ⟨hhead, htail⟩ := pairwise_cons.mp hsorted
  induction v with
  | nil => rfl
  | cons x v ih =>
    obtain ⟨hfirst, hrest⟩ := forall_mem_cons.mp hhead
    rw [dropWhile_cons]
    split
    case isTrue hskip =>
      -- it is out of the range, or another pair of the same document
      rw [ih (pairwise_cons.mpr ⟨hrest, htail.of_cons⟩) hrest htail.of_cons, docsIn_cons]
      cases hin : inRange l r x <;> simp_all
    case isFalse hkeep =>
      obtain ⟨-, hne⟩ : inRange l r x = true ∧ x.id ≠ e.id := by simpa using hkeep
      refine (erase_eq_of_notMem fun hmem => ?_).symm
      obtain ⟨e', he', -, heq⟩ := mem_docsIn.mp hmem
      have hle : x.id ≤ e'.id := by
        rcases mem_cons.mp he' with rfl | he'
        · exact Nat.le_refl _
        · exact (pairwise_cons.mp htail).1 e' he'
      omega

end Docs

/-! ## §3 The iterator over a range -/

/-- `RangeFilterIterator`. -/
structure RangeIter (α : Type) where
  base : BlockIter (Entry α)
  l : α
  r : α

namespace RangeIter

def skipInvalidEntries (lastId : ℕ) (it : RangeIter α) : RangeIter α :=
  { it with
    base :=
      it.base.skipWhile (fun e => !inRange it.l it.r e || e.id == lastId) it.base.entries.length }

/-- `MakeBegin`: the constructor over a whole block. -/
def makeBegin (blocks : List (List (Entry α))) (l r : α) : RangeIter α :=
  skipInvalidEntries kInvalidDocId ⟨.start blocks, l, r⟩

def hasReachedEnd (it : RangeIter α) : Bool := it.base.cur.isEmpty

/-- `operator*`. -/
def deref (it : RangeIter α) : ℕ := (it.base.cur.head?.map Entry.id).getD kInvalidDocId

/-- `operator++`. -/
def next (it : RangeIter α) : RangeIter α :=
  skipInvalidEntries it.deref { it with base := it.base.next }

def seekGE (minDocId : ℕ) (it : RangeIter α) : RangeIter α :=
  let base := it.base.seekGE Entry.id true minDocId
  { it with base := base.skipWhile (fun e => !inRange it.l it.r e) base.entries.length }

/-- The iterator is at the end or at a pair in the range. -/
structure Valid (it : RangeIter α) : Prop where
  base : it.base.Valid Entry.id
  head : ∀ e ∈ it.base.entries.head?, inRange it.l it.r e = true

/-- The documents not passed yet. -/
def ahead (it : RangeIter α) : Finset ℕ := docsIn it.l it.r it.base.entries

/-- The operations as those of a cursor. -/
def rangeCursor : Cursor (RangeIter α) where
  atEnd := hasReachedEnd
  value := deref
  next := next
  seek := seekGE
  left := fun it => it.base.entries.length

end RangeIter

theorem dropWhile_congr {τ : Type} {p q : τ → Bool} {v : List τ} (h : ∀ e ∈ v, p e = q e) :
    v.dropWhile p = v.dropWhile q := by
  induction v with
  | nil => rfl
  | cons e v ih =>
    obtain ⟨hfirst, hrest⟩ := forall_mem_cons.mp h
    rw [dropWhile_cons, dropWhile_cons, hfirst, ih hrest]

omit [LinearOrder α] in
theorem head?_dropWhile {p : Entry α → Bool} {v : List (Entry α)} (he : e ∈ (v.dropWhile p).head?) :
    p e = false := by
  have hne : v.dropWhile p ≠ [] := by
    rintro hnil
    rw [hnil] at he
    cases he
  have hhead := head_dropWhile_not p hne
  rw [head?_eq_some_head hne] at he
  cases he
  exact hhead

namespace RangeIter

variable {it : RangeIter α}

theorem skipInvalidEntries_spec (it : RangeIter α) (lastId : ℕ) (hbase : it.base.Valid Entry.id) :
    Valid (it.skipInvalidEntries lastId) ∧
      (it.skipInvalidEntries lastId).ahead =
        docsIn it.l it.r
          (it.base.entries.dropWhile fun e => !inRange it.l it.r e || e.id == lastId) := by
  obtain ⟨hvalid, hrest⟩ := BlockIter.skipWhile_spec
    (fun e => !inRange it.l it.r e || e.id == lastId) hbase (Nat.le_refl _)
  refine ⟨⟨hvalid, fun e he => ?_⟩, congrArg (docsIn it.l it.r) hrest⟩
  have he' :
    e ∈ (it.base.entries.dropWhile fun e => !inRange it.l it.r e || e.id == lastId).head? :=
    hrest ▸ he
  have hkept := head?_dropWhile he'
  simp only [Bool.or_eq_false_iff, Bool.not_eq_false'] at hkept
  exact hkept.1

/-- **The beginning** is before all documents with a value in the range. -/
theorem makeBegin_spec {blocks : List (List (Entry α))} (hne : ∀ block ∈ blocks, block ≠ [])
    (hsorted : ById Entry.id blocks.flatten) {l r : α}
    (hdocs : ∀ n ∈ docsIn l r blocks.flatten, n < kInvalidDocId) :
    Valid (makeBegin blocks l r) ∧ (makeBegin blocks l r).ahead = docsIn l r blocks.flatten := by
  obtain ⟨hvalid, hentries⟩ := BlockIter.valid_start hne hsorted
  obtain ⟨hvalid', hahead⟩ := skipInvalidEntries_spec ⟨.start blocks, l, r⟩ kInvalidDocId hvalid
  refine ⟨hvalid', hahead.trans ?_⟩
  rw [hentries]
  -- no document in the range has the number that is compared with
  have hsame : ∀ e ∈ blocks.flatten, (!inRange l r e || e.id == kInvalidDocId) =
    !inRange l r e := by
    intro e he
    cases hin : inRange l r e with
    | false => rfl
    | true => simpa using (hdocs e.id (mem_docsIn.mpr ⟨e, he, hin, rfl⟩)).ne
  rw [dropWhile_congr hsame, docsIn_dropWhile_outside]

theorem entries_cons (h : Valid it) (hne : it.ahead ≠ ∅) :
    ∃ e rest, it.base.entries = e :: rest ∧ it.deref = e.id ∧ inRange it.l it.r e = true := by
  cases hcur : it.base.cur with
  | nil =>
    refine absurd ?_ hne
    rw [ahead, (BlockIter.entries_eq_nil_iff h.base).mpr hcur]
    rfl
  | cons e cur =>
    have hentries : it.base.entries = e :: (cur ++ it.base.later.flatten) := by
      rw [BlockIter.entries, hcur]
      rfl
    refine ⟨e, _, hentries, ?_, h.head e ?_⟩
    · rw [deref, hcur]
      rfl
    · rw [hentries]
      rfl

theorem ahead_eq_empty_iff (h : Valid it) : it.hasReachedEnd = true ↔ it.ahead = ∅ := by
  rw [hasReachedEnd, List.isEmpty_iff, ← BlockIter.entries_eq_nil_iff h.base]
  constructor
  · intro hnil
    rw [ahead, hnil]
    rfl
  · intro hempty
    cases hentries : it.base.entries with
    | nil => rfl
    | cons e rest =>
      have hin := h.head e (by rw [hentries]; rfl)
      have hmem : e.id ∈ it.ahead := mem_docsIn.mpr ⟨e, hentries ▸ List.mem_cons_self, hin, rfl⟩
      rw [hempty] at hmem
      exact absurd hmem (notMem_empty _)

theorem seekGE_spec (h : Valid it) (n : ℕ) :
    Valid (it.seekGE n) ∧ (it.seekGE n).ahead = it.ahead.filter (n ≤ ·) := by
  obtain ⟨hvalid, hrest⟩ := BlockIter.seekGE_spec true n h.base
  obtain ⟨hvalid', hrest'⟩ := BlockIter.skipWhile_spec
    (fun e => !inRange it.l it.r e) hvalid (Nat.le_refl _)
  refine ⟨⟨hvalid', fun e he => ?_⟩, ?_⟩
  · have he' := he
    rw [seekGE] at he'
    rw [hrest'] at he'
    have hkept := head?_dropWhile he'
    rwa [Bool.not_eq_false'] at hkept
  · have hahead : (it.seekGE n).ahead =
        docsIn it.l it.r ((it.base.seekGE Entry.id true n).entries.dropWhile fun e =>
          !inRange it.l it.r e) :=
      congrArg (docsIn it.l it.r) hrest'
    rw [hahead, docsIn_dropWhile_outside, hrest, docsIn_dropWhile_below h.base.sorted]
    rfl

theorem next_spec (h : Valid it) (hne : it.ahead ≠ ∅) :
    Valid it.next ∧ it.next.ahead = it.ahead.erase it.deref := by
  obtain ⟨e, rest, hentries, hderef, -⟩ := entries_cons h hne
  obtain ⟨hvalid, hnext⟩ := BlockIter.next_spec h.base
  obtain ⟨hvalid', hahead⟩ :=
    skipInvalidEntries_spec { it with base := it.base.next } it.deref hvalid
  refine ⟨hvalid', hahead.trans ?_⟩
  have hsorted : ById Entry.id (e :: rest) := hentries ▸ h.base.sorted
  rw [hnext, hentries, tail_cons, hderef, docsIn_dropWhile_same hsorted, ahead, hentries]

/-- **The iterator over a range** is a cursor over the documents with a value in it. -/
theorem rangeCursor_lawful : Lawful (rangeCursor : Cursor (RangeIter α)) Valid ahead := by
  refine lawful_iff.mpr fun it h =>
    ⟨ahead_eq_empty_iff h, card_docsIn_le _, fun hne => ⟨?_, next_spec h hne⟩,
    fun n hn => ?_, seekGE_spec h⟩
  · obtain ⟨e, rest, hentries, hderef, hin⟩ := entries_cons h hne
    exact mem_docsIn.mpr ⟨e, hentries ▸ mem_cons_self, hin, hderef.symm⟩
  · obtain ⟨e, rest, hentries, hderef, -⟩ := entries_cons h (ne_empty_of_mem hn)
    obtain ⟨e', he', -, rfl⟩ := mem_docsIn.mp hn
    have hsorted : ById Entry.id (e :: rest) := hentries ▸ h.base.sorted
    rw [hentries] at he'
    change it.deref ≤ e'.id
    rw [hderef]
    rcases mem_cons.mp he' with rfl | he'
    · exact Nat.le_refl _
    · exact (pairwise_cons.mp hsorted).1 e' he'

end RangeIter

/-! ## §4 The iterator over two blocks -/

/-- `TwoBlocksRangeResult::MergingIterator`. -/
structure MergingIter (α : Type) where
  currentMin : ℕ
  l : RangeIter α
  r : RangeIter α

namespace MergingIter

/-- The document an iterator stands at, or the invalid one. -/
def docOr (it : RangeIter α) : ℕ := if it.hasReachedEnd then kInvalidDocId else it.deref

/-- The constructor, with `InitializeMin`. -/
def make (l r : RangeIter α) : MergingIter α := ⟨min (docOr l) (docOr r), l, r⟩

/-- `operator++`. -/
def next (it : MergingIter α) : MergingIter α :=
  if it.l.hasReachedEnd then ⟨docOr it.r.next, it.l, it.r.next⟩
  else if it.r.hasReachedEnd then ⟨docOr it.l.next, it.l.next, it.r⟩
  else
    make (if it.l.deref = it.currentMin then it.l.next else it.l)
      (if it.r.deref = it.currentMin then it.r.next else it.r)

def seekGE (minDocId : ℕ) (it : MergingIter α) : MergingIter α :=
  make (it.l.seekGE minDocId) (it.r.seekGE minDocId)

/-- The documents of both blocks. -/
def ahead (it : MergingIter α) : Finset ℕ := it.l.ahead ∪ it.r.ahead

/-- The current document is the smaller of both. -/
structure Valid (it : MergingIter α) : Prop where
  l : it.l.Valid
  r : it.r.Valid
  min : it.currentMin = min (docOr it.l) (docOr it.r)
  docs : ∀ n ∈ it.ahead, n < kInvalidDocId

/-- The operations as those of a cursor. -/
def mergingCursor : Cursor (MergingIter α) where
  atEnd := fun it => it.l.hasReachedEnd && it.r.hasReachedEnd
  value := currentMin
  next := next
  seek := seekGE
  left := fun it => it.l.base.entries.length + it.r.base.entries.length

variable {it : MergingIter α} {l r : RangeIter α}

section

variable (h : l.Valid)
include h

theorem docOr_of_empty (hempty : l.ahead = ∅) : docOr l = kInvalidDocId :=
  if_pos ((RangeIter.ahead_eq_empty_iff h).mpr hempty)

theorem docOr_of_ne (hne : l.ahead ≠ ∅) : docOr l = l.deref :=
  if_neg fun hend => hne ((RangeIter.ahead_eq_empty_iff h).mp hend)

/-- The document an iterator stands at is its least one, if it has any. -/
theorem docOr_le (hn : n ∈ l.ahead) : docOr l ≤ n := by
  rw [docOr_of_ne h (ne_empty_of_mem hn)]
  exact RangeIter.rangeCursor_lawful.value_le l h n hn

theorem docOr_mem (hlt : docOr l < kInvalidDocId) : docOr l ∈ l.ahead := by
  have hne : l.ahead ≠ ∅ := fun hempty => Nat.ne_of_lt hlt (docOr_of_empty h hempty)
  rw [docOr_of_ne h hne]
  exact RangeIter.rangeCursor_lawful.value_mem l h hne

theorem docOr_le_invalid (hdocs : ∀ n ∈ l.ahead, n < kInvalidDocId) : docOr l ≤ kInvalidDocId := by
  by_cases hempty : l.ahead = ∅
  · exact Nat.le_of_eq (docOr_of_empty h hempty)
  · obtain ⟨n, hn⟩ := nonempty_iff_ne_empty.mpr hempty
    exact (docOr_le h hn).trans (hdocs n hn).le

end

theorem valid_make (hl : l.Valid) (hr : r.Valid)
    (hdocs : ∀ n ∈ l.ahead ∪ r.ahead, n < kInvalidDocId) :
    Valid (make l r) ∧ (make l r).ahead = l.ahead ∪ r.ahead :=
  ⟨⟨hl, hr, rfl, hdocs⟩, rfl⟩

theorem Valid.currentMin_le (h : Valid it) (hn : n ∈ it.ahead) : it.currentMin ≤ n := by
  rw [h.min]
  rcases mem_union.mp hn with hn | hn
  · exact (min_le_left _ _).trans (docOr_le h.l hn)
  · exact (min_le_right _ _).trans (docOr_le h.r hn)

theorem Valid.currentMin_mem (h : Valid it) (hne : it.ahead ≠ ∅) : it.currentMin ∈ it.ahead := by
  obtain ⟨n, hn⟩ := nonempty_iff_ne_empty.mpr hne
  have hlt : it.currentMin < kInvalidDocId := (h.currentMin_le hn).trans_lt (h.docs n hn)
  rw [h.min] at hlt ⊢
  rcases min_choice (docOr it.l) (docOr it.r) with heq | heq
  · rw [heq] at hlt ⊢
    exact mem_union_left _ (docOr_mem h.l hlt)
  · rw [heq] at hlt ⊢
    exact Finset.mem_union_right _ (docOr_mem h.r hlt)

/-- A step of one of the two iterators if it stands at the current document, none otherwise. -/
theorem step_spec (h : l.Valid) (hne : l.ahead ≠ ∅) (hle : n ≤ l.deref) :
    (if l.deref = n then l.next else l).Valid ∧
      (if l.deref = n then l.next else l).ahead = l.ahead.erase n := by
  split
  case isTrue heq => exact heq ▸ RangeIter.next_spec h hne
  case isFalse hneq =>
    refine ⟨h, (erase_eq_of_notMem fun hmem => hneq ?_).symm⟩
    exact Nat.le_antisymm (RangeIter.rangeCursor_lawful.value_le l h n hmem) hle

theorem next_spec (h : Valid it) (hne : it.ahead ≠ ∅) :
    Valid it.next ∧ it.next.ahead = it.ahead.erase it.currentMin := by
  -- it is enough that both have lost the current document
  have hmake : ∀ {l r : RangeIter α}, l.Valid → r.Valid → l.ahead = it.l.ahead.erase it.currentMin →
      r.ahead = it.r.ahead.erase it.currentMin →
      Valid (make l r) ∧ (make l r).ahead = it.ahead.erase it.currentMin := by
    intro l r hl hr hlnext hrnext
    have hunion : (make l r).ahead = it.ahead.erase it.currentMin := by
      simp [ahead, make, hlnext, hrnext, erase_union_distrib]
    exact ⟨⟨hl, hr, rfl, fun n hn => h.docs n (Finset.mem_of_mem_erase (hunion ▸ hn))⟩, hunion⟩
  have hldocs : ∀ n ∈ it.l.ahead, n < kInvalidDocId := fun n hn => h.docs n (mem_union_left _ hn)
  have hrdocs : ∀ n ∈ it.r.ahead, n < kInvalidDocId :=
    fun n hn => h.docs n (Finset.mem_union_right _ hn)
  rw [next]
  split
  case isTrue hlend =>
    -- only the right one is left, and stands at the current document
    have hlempty := (RangeIter.ahead_eq_empty_iff h.l).mp hlend
    have hrne : it.r.ahead ≠ ∅ := by simpa [ahead, hlempty] using hne
    have hmin : it.currentMin = it.r.deref := by
      rw [h.min, docOr_of_empty h.l hlempty, min_eq_right (docOr_le_invalid h.r hrdocs),
        docOr_of_ne h.r hrne]
    obtain ⟨hvalid, hnext⟩ := RangeIter.next_spec h.r hrne
    have hdoc := docOr_le_invalid hvalid fun n hn => hrdocs n (Finset.mem_of_mem_erase (hnext ▸ hn))
    rw [← min_eq_right hdoc, ← docOr_of_empty h.l hlempty]
    exact hmake h.l hvalid (by simp [hlempty]) (hmin ▸ hnext)
  case isFalse hlend =>
    have hlne : it.l.ahead ≠ ∅ :=
      fun hempty => hlend ((RangeIter.ahead_eq_empty_iff h.l).mpr hempty)
    split
    case isTrue hrend =>
      have hrempty := (RangeIter.ahead_eq_empty_iff h.r).mp hrend
      have hmin : it.currentMin = it.l.deref := by
        rw [h.min, docOr_of_empty h.r hrempty, min_eq_left (docOr_le_invalid h.l hldocs),
          docOr_of_ne h.l hlne]
      obtain ⟨hvalid, hnext⟩ := RangeIter.next_spec h.l hlne
      have hdoc :=
        docOr_le_invalid hvalid fun n hn => hldocs n (Finset.mem_of_mem_erase (hnext ▸ hn))
      rw [← min_eq_left hdoc, ← docOr_of_empty h.r hrempty]
      exact hmake hvalid h.r (hmin ▸ hnext) (by simp [hrempty])
    case isFalse hrend =>
      have hrne : it.r.ahead ≠ ∅ :=
        fun hempty => hrend ((RangeIter.ahead_eq_empty_iff h.r).mpr hempty)
      have hmin := h.min
      rw [docOr_of_ne h.l hlne, docOr_of_ne h.r hrne] at hmin
      obtain ⟨hlvalid, hlnext⟩ :=
        step_spec h.l hlne (hmin ▸ min_le_left _ _ : it.currentMin ≤ it.l.deref)
      obtain ⟨hrvalid, hrnext⟩ :=
        step_spec h.r hrne (hmin ▸ min_le_right _ _ : it.currentMin ≤ it.r.deref)
      exact hmake hlvalid hrvalid hlnext hrnext

theorem seekGE_spec (h : Valid it) (n : ℕ) :
    Valid (it.seekGE n) ∧ (it.seekGE n).ahead = it.ahead.filter (n ≤ ·) := by
  obtain ⟨hlvalid, hl⟩ := RangeIter.seekGE_spec h.l n
  obtain ⟨hrvalid, hr⟩ := RangeIter.seekGE_spec h.r n
  have hunion : (it.l.seekGE n).ahead ∪ (it.r.seekGE n).ahead = it.ahead.filter (n ≤ ·) := by
    rw [hl, hr, ahead, filter_union]
  obtain ⟨hvalid, hahead⟩ := valid_make hlvalid hrvalid
    (hunion ▸ fun m hm => h.docs m (Finset.mem_filter.mp hm).1)
  exact ⟨hvalid, hahead.trans hunion⟩

/-- **The merging iterator** is a cursor over the documents of both blocks. -/
theorem mergingCursor_lawful : Lawful (mergingCursor : Cursor (MergingIter α)) Valid ahead := by
  refine lawful_iff.mpr fun it h => ⟨?_, ?_, fun hne => ⟨h.currentMin_mem hne, next_spec h hne⟩,
    fun n => h.currentMin_le, seekGE_spec h⟩
  · change (it.l.hasReachedEnd && it.r.hasReachedEnd) = true ↔ it.ahead = ∅
    rw [Bool.and_eq_true, RangeIter.ahead_eq_empty_iff h.l, RangeIter.ahead_eq_empty_iff h.r, ahead,
      union_eq_empty]
  · exact (card_union_le _ _).trans (Nat.add_le_add (card_docsIn_le _) (card_docsIn_le _))

end MergingIter

/-! ## §5 All iterators -/

/-- The iterator of a result: into a vector, into a block list of compressed sets or sorted vectors,
into one block of a range tree or into two. Only vectors are galloped through. -/
inductive ResultIter (α : Type) where
  | vector (rest : List ℕ)
  | blocks (randomAccess : Bool) (it : BlockIter ℕ)
  | single (it : RangeIter α)
  | two (it : MergingIter α)

namespace ResultIter

def atEnd : ResultIter α → Bool
  | vector rest => rest.isEmpty
  | blocks _ it => it.cur.isEmpty
  | single it => RangeIter.rangeCursor.atEnd it
  | two it => MergingIter.mergingCursor.atEnd it

/-- `operator*`. -/
def deref : ResultIter α → ℕ
  | vector rest => rest.head?.getD kInvalidDocId
  | blocks _ it => it.cur.head?.getD kInvalidDocId
  | single it => RangeIter.rangeCursor.value it
  | two it => MergingIter.mergingCursor.value it

/-- `operator++`. -/
def next : ResultIter α → ResultIter α
  | vector rest => vector rest.tail
  | blocks randomAccess it => blocks randomAccess it.next
  | single it => single (RangeIter.rangeCursor.next it)
  | two it => two (MergingIter.mergingCursor.next it)

/-- `SeekGE`, or `BasicSeekGE` for vectors. -/
def seekGE (minDocId : ℕ) : ResultIter α → ResultIter α
  | vector rest => vector (basicSeekGE id true minDocId rest)
  | blocks randomAccess it => blocks randomAccess (it.seekGE id randomAccess minDocId)
  | single it => single (RangeIter.rangeCursor.seek minDocId it)
  | two it => two (MergingIter.mergingCursor.seek minDocId it)

/-- A bound for the number of steps to the end. -/
def left : ResultIter α → ℕ
  | vector rest => rest.length
  | blocks _ it => it.entries.length
  | single it => RangeIter.rangeCursor.left it
  | two it => MergingIter.mergingCursor.left it

/-- The operations as those of a cursor. -/
def resultCursor : Cursor (ResultIter α) := ⟨atEnd, deref, next, seekGE, left⟩

/-- The invariant of each kind. -/
def Valid : ResultIter α → Prop
  | vector rest => rest.Pairwise (· < ·)
  | blocks _ it => it.Valid id ∧ it.entries.Pairwise (· < ·)
  | single it => it.Valid
  | two it => it.Valid

/-- The documents not passed yet. -/
def ahead : ResultIter α → Finset ℕ
  | vector rest => rest.toFinset
  | blocks _ it => it.entries.toFinset
  | single it => it.ahead
  | two it => it.ahead

end ResultIter

section Increasing

variable {v : List ℕ}

theorem head?_getD_mem (hne : v.toFinset ≠ ∅) : v.head?.getD kInvalidDocId ∈ v.toFinset := by
  cases v with
  | nil => exact absurd rfl hne
  | cons e v => exact mem_toFinset.mpr mem_cons_self

section

variable (hv : v.Pairwise (· < ·))
include hv

theorem head?_getD_le (hn : n ∈ v.toFinset) : v.head?.getD kInvalidDocId ≤ n := by
  cases v with
  | nil => exact absurd hn (notMem_empty _)
  | cons e v =>
    rcases mem_cons.mp (mem_toFinset.mp hn) with rfl | hn
    · exact Nat.le_refl _
    · exact ((pairwise_cons.mp hv).1 n hn).le

theorem toFinset_tail : v.tail.toFinset = v.toFinset.erase (v.head?.getD kInvalidDocId) := by
  cases v with
  | nil => rfl
  | cons e v =>
    have hnot : e ∉ v.toFinset := fun hmem =>
      Nat.lt_irrefl e ((pairwise_cons.mp hv).1 e (mem_toFinset.mp hmem))
    rw [toFinset_cons, head?_cons, Option.getD_some, erase_insert hnot, tail_cons]

theorem toFinset_dropWhile (n : ℕ) :
    (v.dropWhile fun m => decide (id m < n)).toFinset = v.toFinset.filter (n ≤ ·) := by
  ext m
  rw [Finset.mem_filter, mem_toFinset, mem_toFinset]
  constructor
  · intro hm
    exact ⟨(dropWhile_sublist _).subset hm, SortedVector.le_of_mem_dropWhile hv hm⟩
  · rintro ⟨hm, hle⟩
    rw [← takeWhile_append_dropWhile (p := fun m => decide (id m < n)) (l := v)] at hm
    refine (mem_append.mp hm).resolve_left fun hskip => ?_
    exact absurd (SortedVector.lt_of_mem_takeWhile hskip) (Nat.not_lt_of_le hle)

theorem byId_of_increasing : ById id v := hv.imp fun h => h.le

end

end Increasing

namespace ResultIter

theorem blocks_head? {it : BlockIter ℕ} (h : it.Valid id) : it.entries.head? = it.cur.head? := by
  cases hcur : it.cur with
  | nil => rw [(BlockIter.entries_eq_nil_iff h).mpr hcur]
  | cons e cur =>
    rw [BlockIter.entries, hcur]
    rfl

/-- **Every result iterator** is a cursor over a set of documents. -/
theorem resultCursor_lawful : Lawful (resultCursor : Cursor (ResultIter α)) Valid ahead := by
  refine lawful_iff.mpr ?_
  rintro (rest | ⟨randomAccess, it⟩ | it | it) h
  · refine ⟨isEmpty_iff.trans (toFinset_eq_empty_iff rest).symm, toFinset_card_le rest,
      fun hne => ⟨head?_getD_mem hne, h.sublist (tail_sublist rest), toFinset_tail h⟩,
      fun n => head?_getD_le h, fun n => ?_⟩
    change (basicSeekGE id true n rest).Pairwise (· < ·) ∧ (basicSeekGE id true n rest).toFinset = _
    rw [basicSeekGE_eq true n (byId_of_increasing h)]
    exact ⟨List.Pairwise.sublist (dropWhile_sublist _) h, toFinset_dropWhile h n⟩
  · obtain ⟨hvalid, hsorted⟩ := h
    obtain ⟨hnext, hrest⟩ := BlockIter.next_spec hvalid
    have hvalue : resultCursor.value (blocks randomAccess it : ResultIter α) =
        it.entries.head?.getD kInvalidDocId := congrArg (Option.getD · _) (blocks_head? hvalid).symm
    refine ⟨?_, toFinset_card_le it.entries, fun hne => ⟨?_, ⟨hnext, ?_⟩, ?_⟩, fun n hn => ?_,
      fun n => ?_⟩
    · exact isEmpty_iff.trans
        ((BlockIter.entries_eq_nil_iff hvalid).symm.trans (toFinset_eq_empty_iff it.entries).symm)
    · rw [hvalue]
      exact head?_getD_mem hne
    · exact hrest ▸ hsorted.sublist (tail_sublist _)
    · rw [hvalue]
      exact (congrArg toFinset hrest).trans (toFinset_tail hsorted)
    · rw [hvalue]
      exact head?_getD_le hsorted hn
    · obtain ⟨hseek, hafter⟩ := BlockIter.seekGE_spec randomAccess n hvalid
      refine ⟨⟨hseek, hafter ▸ hsorted.sublist (dropWhile_sublist _)⟩, ?_⟩
      exact (congrArg toFinset hafter).trans (toFinset_dropWhile hsorted n)
  · exact lawful_iff.mp RangeIter.rangeCursor_lawful it h
  · exact lawful_iff.mp MergingIter.mergingCursor_lawful it h

end ResultIter

end Drakeydb.Search
