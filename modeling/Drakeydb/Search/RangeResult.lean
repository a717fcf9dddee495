import Mathlib.Algebra.Order.BigOperators.Group.List
import Mathlib.Algebra.Order.Group.Nat
import Mathlib.Algebra.Ring.Nat
import Mathlib.Data.Fin.SuccPredOrder
import Drakeydb.Search.RangeTreeInv
import Drakeydb.Search.ResultIter

/-!
# Range queries

`RangeTree::Range`, `RangeTree::GetAllDocIds` and `RangeResult` of `core/search/range_tree.{h,cc}`.
A query collects the blocks that its range meets. One block or two are read through iterators, which
leave out the further values of a document; more blocks are merged at once, and there a document is
listed once for each block that has a value of it.
-/

namespace Drakeydb.Search

open Finset RangeIter Prod

open Lib (forall_mem_append_cons getElem?_length set_length)
open Lib.SortedCursor
open List hiding disjoint_left filter_cons getElem?_length map_cons mem_filter mem_map
  mem_singleton range

/-! ## §1 The code -/

section Code

variable {α : Type}

/-- The position of the first least document: the inner loop of `MergeAllResults`. -/
def minDocIdIndex (heap : List (RangeIter α)) : ℕ :=
  (List.range heap.length).foldl (fun m i =>
    if (heap[i]?.elim kInvalidDocId RangeIter.deref) <
      (heap[m]?.elim kInvalidDocId RangeIter.deref) then i
    else m) 0

/-- An iterator at the end is swapped with the last one and dropped. -/
def dropAt (heap : List (RangeIter α)) (i : ℕ) : List (RangeIter α) :=
  match heap.getLast? with
  | none => heap
  | some last => (heap.set i last).dropLast

variable [LinearOrder α]

/-- The heap after a round of the loop. -/
def popMin (heap : List (RangeIter α)) (it : RangeIter α) : List (RangeIter α) :=
  if it.next.hasReachedEnd then dropAt heap (minDocIdIndex heap)
    else heap.set (minDocIdIndex heap) it.next

/-- The loop of `MergeAllResults`. -/
def mergeHeap : ℕ → List (RangeIter α) → List ℕ
  | 0, _ => []
  | fuel + 1, heap =>
    match heap[minDocIdIndex heap]? with
    | none => []
    | some it => it.deref :: mergeHeap fuel (popMin heap it)

def mergeAllResults (blocks : List (RangeBlock α)) (l r : α) : List ℕ :=
  let heap := (blocks.map fun b => RangeIter.makeBegin b.list.blocks l r).filter fun it =>
    !it.hasReachedEnd
  mergeHeap (blocks.map fun b => b.elems.length).sum heap

inductive RangeResult (α : Type) where
  | docs (ids : List ℕ)
  | single (block : RangeBlock α) (l r : α)
  | two (left right : RangeBlock α) (l r : α)

namespace RangeResult

/-- The constructor from blocks. -/
def ofBlocks (blocks : List (RangeBlock α)) (l r : α) : RangeResult α :=
  match blocks with
  | [b] => single b l r
  | [b, b'] => two b b' l r
  | _ => docs (mergeAllResults blocks l r)

/-- The iterator at the beginning of the borrowed result. -/
def begin : RangeResult α → ResultIter α
  | docs ids => .vector ids
  | single b l r => .single (.makeBegin b.list.blocks l r)
  | two b b' l r => .two (.make (.makeBegin b.list.blocks l r) (.makeBegin b'.list.blocks l r))

/-- What iterating over the result gives. -/
def iterate (result : RangeResult α) : List ℕ := walk ResultIter.resultCursor result.begin

def take : RangeResult α → List ℕ
  | docs ids => ids
  | single b l r => walk RangeIter.rangeCursor (.makeBegin b.list.blocks l r)
  | two b b' l r =>
    walk MergingIter.mergingCursor
      (.make (.makeBegin b.list.blocks l r) (.makeBegin b'.list.blocks l r))

end RangeResult

namespace RangeTree

def rangeBlocks (t : RangeTree α) (l r : α) : List (RangeBlock α) :=
  let itL := findRangeBlock t.entries l
  let itR := findRangeBlock t.entries r
  ((t.entries.take (itR + 1)).drop itL).map Prod.snd

def range (t : RangeTree α) (l r : α) : RangeResult α := .ofBlocks (t.rangeBlocks l r) l r

def getAllDocIds [BoundedOrder α] (t : RangeTree α) : RangeResult α :=
  .ofBlocks (t.entries.map Prod.snd) ⊥ ⊤

end RangeTree

end Code

/-! ## §2 Merging -/

section Merge

variable {α : Type} {heap : List (RangeIter α)}

theorem foldl_min_index (f : ℕ → ℕ) (n m : ℕ) :
    (∀ i < n, f ((List.range n).foldl (fun m i => if f i < f m then i else m) m) ≤ f i) ∧
      f ((List.range n).foldl (fun m i => if f i < f m then i else m) m) ≤ f m ∧
      ((List.range n).foldl (fun m i => if f i < f m then i else m) m = m ∨
        (List.range n).foldl (fun m i => if f i < f m then i else m) m < n) := by
  induction n with
  | zero => exact ⟨fun i hi => absurd hi (Nat.not_lt_zero i), Nat.le_refl _, .inl rfl⟩
  | succ n ih =>
    rw [range_succ, foldl_append, foldl_cons, foldl_nil]
    obtain ⟨hall, hm, hk⟩ := ih
    split
    case isTrue hlt =>
      refine ⟨fun i hi => ?_, hlt.le.trans hm, .inr (Nat.lt_succ_self n)⟩
      rcases Nat.lt_succ_iff_lt_or_eq.mp hi with hi | rfl
      · exact hlt.le.trans (hall i hi)
      · exact Nat.le_refl _
    case isFalse hge =>
      refine ⟨fun i hi => ?_, hm, hk.imp_right fun h => Nat.lt_succ_of_lt h⟩
      rcases Nat.lt_succ_iff_lt_or_eq.mp hi with hi | rfl
      · exact hall i hi
      · exact Nat.le_of_not_lt hge

/-- **The inner loop** finds an iterator with the least document. -/
theorem minDocIdIndex_spec (hne : heap ≠ []) :
    ∃ before it after, heap = before ++ it :: after ∧ minDocIdIndex heap = before.length ∧
      ∀ it' ∈ heap, it.deref ≤ it'.deref := by
  obtain ⟨hall, -, hk⟩ := foldl_min_index
    (fun i => heap[i]?.elim kInvalidDocId deref) heap.length 0
  have hpos := length_pos_of_ne_nil hne
  have hlt : minDocIdIndex heap < heap.length := by
    rcases hk with hk | hk
    · exact (Nat.le_of_eq hk).trans_lt hpos
    · exact hk
  change ∀ i < heap.length, heap[minDocIdIndex heap]?.elim kInvalidDocId deref ≤
    heap[i]?.elim kInvalidDocId deref at hall
  rw [getElem?_eq_getElem hlt] at hall
  refine ⟨heap.take (minDocIdIndex heap), heap[minDocIdIndex heap],
    heap.drop (minDocIdIndex heap + 1), ?_, (length_take_of_le hlt.le).symm, fun it' hit' => ?_⟩
  · simp
  · obtain ⟨i, hi, rfl⟩ := getElem_of_mem hit'
    have hle := hall i hi
    rwa [getElem?_eq_getElem hi] at hle

theorem dropAt_perm (before after : List (RangeIter α)) (it : RangeIter α) :
    (dropAt (before ++ it :: after) before.length).Perm (before ++ after) := by
  rcases eq_nil_or_concat after with rfl | ⟨init, last, rfl⟩
  · rw [dropAt, getLast?_concat]
    dsimp only
    rw [set_length, dropLast_concat, append_nil]
  · rw [concat_eq_append]
    have hlast : (before ++ it :: (init ++ [last])).getLast? = some last := by
      rw [← cons_append, ← append_assoc, getLast?_concat]
    rw [dropAt, hlast]
    dsimp only
    rw [set_length, ← cons_append, ← append_assoc, dropLast_concat]
    exact List.Perm.append_left before (perm_append_singleton last init).symm

variable [LinearOrder α]

/-- The documents that the iterators have not passed, one iterator after the other. -/
def docsLeft (heap : List (RangeIter α)) : List ℕ := heap.flatMap fun it => it.ahead.sort

/-- The iterators that are merged: each of them has a document left. -/
def HeapOk (heap : List (RangeIter α)) : Prop := ∀ it ∈ heap, it.Valid ∧ it.ahead ≠ ∅

theorem popMin_spec (h : HeapOk heap) (hne : heap ≠ []) :
    ∃ it, heap[minDocIdIndex heap]? = some it ∧ HeapOk (popMin heap it) ∧
      (docsLeft heap).Perm (it.deref :: docsLeft (popMin heap it)) ∧
        ∀ n ∈ docsLeft heap, it.deref ≤ n := by
  obtain ⟨before, it, after, hheap, hindex, hmin⟩ := minDocIdIndex_spec hne
  have hmem : it ∈ heap := hheap ▸ mem_append_cons_self
  obtain ⟨hit, hitne⟩ := h it hmem
  obtain ⟨hvalid, hnext⟩ := next_spec hit hitne
  have hlawful := rangeCursor_lawful (α := α)
  have hsort : it.ahead.sort = it.deref :: it.next.ahead.sort := by
    rw [hnext]
    exact sort_eq_cons (hlawful.value_mem it hit hitne) (hlawful.value_le it hit)
  have hrest : HeapOk (before ++ after) := (forall_mem_append_cons.mp (hheap ▸ h)).2
  have hdocs : (docsLeft heap).Perm
      (it.deref :: (docsLeft before ++ (it.next.ahead.sort ++ docsLeft after))) := by
    rw [hheap, docsLeft, flatMap_append, flatMap_cons, hsort, cons_append]
    exact perm_middle
  refine ⟨it, ?_, ?_⟩
  · rw [hindex, hheap, getElem?_length]
  have hleast : ∀ n ∈ docsLeft heap, it.deref ≤ n := by
    intro n hn
    obtain ⟨it', hit', hn⟩ := mem_flatMap.mp hn
    have hle := hlawful.value_le it' (h it' hit').1 n ((mem_sort _).mp hn)
    exact (hmin it' hit').trans hle
  rw [popMin, hindex]
  split
  case isTrue hend =>
    have hempty := (ahead_eq_empty_iff hvalid).mp hend
    have hperm := dropAt_perm before after it
    rw [hempty, sort_empty, nil_append] at hdocs
    rw [hheap] at hdocs hleast ⊢
    refine ⟨fun it' hit' => hrest it' (hperm.subset hit'), hdocs.trans ?_, hleast⟩
    · apply List.Perm.cons
      rw [docsLeft, docsLeft, ← flatMap_append]
      exact (hperm.flatMap_right _).symm
  case isFalse hend =>
    have hne' : it.next.ahead ≠ ∅ := fun hempty =>
      hend ((ahead_eq_empty_iff hvalid).mpr hempty)
    have hset : heap.set before.length it.next = before ++ it.next :: after := by
      simp [hheap]
    rw [hset]
    refine ⟨forall_mem_append_cons.mpr ⟨⟨hvalid, hne'⟩, hrest⟩, hdocs.trans ?_, hleast⟩
    simp [docsLeft]

/-- **The loop** lists each document once for each iterator that has it, in order. -/
theorem mergeHeap_spec {fuel : ℕ} (h : HeapOk heap) (hfuel : (docsLeft heap).length ≤ fuel) :
    (mergeHeap fuel heap).Perm (docsLeft heap) ∧ (mergeHeap fuel heap).Pairwise (· ≤ ·) := by
  induction fuel generalizing heap with
  | zero =>
    rw [eq_nil_of_length_eq_zero (Nat.le_zero.mp hfuel)]
    exact ⟨List.Perm.refl _, List.Pairwise.nil⟩
  | succ fuel ih =>
    by_cases hnil : heap = []
    · subst hnil
      exact ⟨List.Perm.refl _, List.Pairwise.nil⟩
    · obtain ⟨it, hget, hok, hperm, hleast⟩ := popMin_spec h hnil
      have hlen : (docsLeft (popMin heap it)).length ≤ fuel := by
        have := hperm.length_eq
        rw [length_cons] at this
        omega
      obtain ⟨hrest, hsorted⟩ := ih hok hlen
      have heq : mergeHeap (fuel + 1) heap = it.deref :: mergeHeap fuel (popMin heap it) := by
        rw [mergeHeap, hget]
      rw [heq]
      refine ⟨(hrest.cons it.deref).trans hperm.symm, pairwise_cons.mpr ⟨fun n hn => ?_, hsorted⟩⟩
      exact hleast n (hperm.symm.subset (mem_cons_of_mem _ (hrest.subset hn)))

end Merge

/-! ## §3 Results -/

section Results

variable {α : Type} [LinearOrder α] {blocks : List (RangeBlock α)} {l r : α}

/-- Blocks that can be read: all their documents are valid. -/
structure Readable (b : RangeBlock α) : Prop where
  inv : b.list.Inv
  docs : ∀ e ∈ b.elems, e.id < kInvalidDocId

/-- The documents with a value in the range, in any of the blocks. -/
def docsOf (l r : α) (blocks : List (RangeBlock α)) : Finset ℕ :=
  docsIn l r (blocks.flatMap RangeBlock.elems)

theorem docsOf_cons (b : RangeBlock α) :
    docsOf l r (b :: blocks) = docsIn l r b.elems ∪ docsOf l r blocks := by
  rw [docsOf, flatMap_cons, docsIn_append]
  rfl

theorem mem_docsOf {n : ℕ} : n ∈ docsOf l r blocks ↔ ∃ b ∈ blocks, n ∈ docsIn l r b.elems := by
  simp only [docsOf, mem_docsIn, mem_flatMap]
  constructor
  · rintro ⟨e, ⟨b, hb, he⟩, hin⟩
    exact ⟨b, hb, e, he, hin⟩
  · rintro ⟨b, hb, e, he, hin⟩
    exact ⟨e, ⟨b, hb, he⟩, hin⟩

variable {b : RangeBlock α}

theorem byId_elems (h : b.list.Inv) : ById Entry.id b.elems :=
  h.sorted.imp fun hlt => (Prod.Lex.le_iff'.mp hlt.le).1

theorem Readable.begin_spec (h : Readable b) (l r : α) :
    (RangeIter.makeBegin b.list.blocks l r).Valid ∧
      (RangeIter.makeBegin b.list.blocks l r).ahead = docsIn l r b.elems := by
  refine makeBegin_spec h.inv.ne_nil (byId_elems h.inv) fun n hn => ?_
  obtain ⟨e, he, -, rfl⟩ := mem_docsIn.mp hn
  exact h.docs e he

/-- **Merging several blocks** lists a document once for each block with a value of it in the
range. -/
theorem mergeAllResults_spec (h : ∀ b ∈ blocks, Readable b) :
    (mergeAllResults blocks l r).Perm (blocks.flatMap fun b => (docsIn l r b.elems).sort) ∧
      (mergeAllResults blocks l r).Pairwise (· ≤ ·) := by
  have hdocs : docsLeft ((blocks.map fun b => makeBegin b.list.blocks l r).filter
      fun it => !it.hasReachedEnd) = blocks.flatMap fun b => (docsIn l r b.elems).sort := by
    induction blocks with
    | nil => rfl
    | cons b blocks ih =>
      obtain ⟨hvalid, hahead⟩ := (h b mem_cons_self).begin_spec l r
      have ih := ih fun b' hb' => h b' (mem_cons_of_mem _ hb')
      rw [List.map_cons, List.filter_cons, flatMap_cons, ← ih]
      split
      case isTrue => rw [docsLeft, flatMap_cons, hahead, docsLeft]
      case isFalse hend =>
        have hend' : (makeBegin b.list.blocks l r).hasReachedEnd = true := by simpa using hend
        rw [← hahead, (ahead_eq_empty_iff hvalid).mp hend', sort_empty, nil_append]
  have hok : HeapOk ((blocks.map fun b => makeBegin b.list.blocks l r).filter
      fun it => !it.hasReachedEnd) := by
    intro it hit
    obtain ⟨hmem, hend⟩ := List.mem_filter.mp hit
    obtain ⟨b, hb, rfl⟩ := List.mem_map.mp hmem
    obtain ⟨hvalid, -⟩ := (h b hb).begin_spec l r
    refine ⟨hvalid, fun hempty => ?_⟩
    rw [(ahead_eq_empty_iff hvalid).mpr hempty] at hend
    cases hend
  rw [← hdocs]
  apply mergeHeap_spec hok
  rw [hdocs, length_flatMap]
  apply List.sum_le_sum
  intro b hb
  rw [length_sort]
  exact card_docsIn_le _

/-- The documents of a result, each once. -/
def Lists (result : RangeResult α) (docs : Finset ℕ) : Prop :=
  result.take = docs.sort ∧ result.iterate = docs.sort

/-- No document has values in the range in two of the blocks. -/
def NoneTwice (l r : α) (blocks : List (RangeBlock α)) : Prop :=
  blocks.Pairwise fun b b' => Disjoint (docsIn l r b.elems) (docsIn l r b'.elems)

theorem nodup_flatMap_iff :
    (blocks.flatMap fun b => (docsIn l r b.elems).sort).Nodup ↔ NoneTwice l r blocks := by
  rw [nodup_flatMap]
  constructor
  · rintro ⟨-, hdisjoint⟩
    refine hdisjoint.imp fun {b b'} hbb' => disjoint_left.mpr fun n hn hn' => ?_
    exact hbb' ((mem_sort _).mpr hn) ((mem_sort _).mpr hn')
  · intro hdisjoint
    refine ⟨fun b _ => sort_nodup _ _, hdisjoint.imp fun {b b'} hbb' n hn hn' => ?_⟩
    exact disjoint_left.mp hbb' ((mem_sort _).mp hn) ((mem_sort _).mp hn')

theorem mergeAllResults_eq_iff (h : ∀ b ∈ blocks, Readable b) :
    mergeAllResults blocks l r = (docsOf l r blocks).sort ↔ NoneTwice l r blocks := by
  obtain ⟨hperm, hsorted⟩ := mergeAllResults_spec h (l := l) (r := r)
  rw [← nodup_flatMap_iff, ← hperm.nodup_iff]
  constructor
  · intro heq
    rw [heq]
    exact sort_nodup _ _
  · intro hnodup
    refine eq_sort_of_sortedLT
      (hsorted.imp₂ (fun a b hle hne => lt_of_le_of_ne hle hne) hnodup) fun n => ?_
    rw [hperm.mem_iff, mem_docsOf, mem_flatMap]
    simp

theorem iterate_docs (ids : List ℕ) : (RangeResult.docs ids : RangeResult α).iterate = ids := by
  have hsteps : ∀ rest : List ℕ,
    walkSteps (ResultIter.resultCursor : Cursor (ResultIter α)) rest.length
      (.vector rest) = rest := by
    intro rest
    induction rest with
    | nil => rfl
    | cons n rest ih => exact congrArg (n :: ·) ih
  exact hsteps ids

theorem lists_docs_iff (h : ∀ b ∈ blocks, Readable b) :
    Lists (RangeResult.docs (mergeAllResults blocks l r) : RangeResult α) (docsOf l r blocks) ↔
      NoneTwice l r blocks := by
  simp [Lists, iterate_docs, RangeResult.take, mergeAllResults_eq_iff h]

/-- **Reading a result**: one block or two are always read right, more only if no document is in
two. -/
theorem lists_ofBlocks_iff (h : ∀ b ∈ blocks, Readable b) :
    Lists (.ofBlocks blocks l r) (docsOf l r blocks) ↔ blocks.length ≤ 2 ∨
      NoneTwice l r blocks := by
  rcases blocks with _ | ⟨b, _ | ⟨b', _ | ⟨b'', rest⟩⟩⟩
  · exact ⟨fun _ => .inl (Nat.zero_le 2), fun _ => (lists_docs_iff h).mpr List.Pairwise.nil⟩
  · obtain ⟨hvalid, hahead⟩ := (h b mem_cons_self).begin_spec l r
    have hdocs : docsOf l r [b] = docsIn l r b.elems := by
      rw [docsOf_cons]
      exact union_empty _
    refine ⟨fun _ => .inl (Nat.le_succ 1), fun _ => ?_⟩
    rw [hdocs, ← hahead]
    exact ⟨walk_eq rangeCursor_lawful hvalid, walk_eq ResultIter.resultCursor_lawful hvalid⟩
  · obtain ⟨hvalid, hahead⟩ := (h b mem_cons_self).begin_spec l r
    obtain ⟨hvalid', hahead'⟩ := (h b' (mem_cons_of_mem _ mem_cons_self)).begin_spec l r
    have hdocs : docsOf l r [b, b'] = docsIn l r b.elems ∪ docsIn l r b'.elems := by
      rw [docsOf_cons, docsOf_cons]
      exact congrArg _ (union_empty _)
    obtain ⟨hmerged, hboth⟩ := MergingIter.valid_make hvalid hvalid' (fun n hn => by
      rw [hahead, hahead', ← hdocs] at hn
      obtain ⟨b, hb, hn⟩ := mem_docsOf.mp hn
      obtain ⟨e, he, -, rfl⟩ := mem_docsIn.mp hn
      exact (h b hb).docs e he)
    refine ⟨fun _ => .inl (Nat.le_refl 2), fun _ => ?_⟩
    rw [hdocs, ← hahead, ← hahead', ← hboth]
    exact ⟨walk_eq MergingIter.mergingCursor_lawful hmerged,
      walk_eq ResultIter.resultCursor_lawful hmerged⟩
  · refine (lists_docs_iff h).trans ⟨.inr, fun hor => hor.resolve_left fun hfew => ?_⟩
    simp at hfew

end Results

/-! ## §4 The blocks that a range meets -/

namespace RangeTree

section Meeting

variable {α : Type} [LinearOrder α] {t : RangeTree α} {l r : α}

/-- The blocks whose values may be in the range: they do not begin above it, and do not end below
it. -/
def meeting (t : RangeTree α) (l r : α) : List (RangeBlock α) :=
  (t.entries.filter fun e =>
    decide (e.1 ≤ r) && !t.entries.any fun e' =>
      decide (e.1 < e'.1) && decide (e'.1 ≤ l)).map Prod.snd

theorem before_of_lt {entries : List (α × RangeBlock α)} (h : entries.Pairwise Before)
    {e e' : α × RangeBlock α} (he : e ∈ entries) (he' : e' ∈ entries) (hlt : e.1 < e'.1) :
      Before e e' := by
  obtain ⟨i, hi, rfl⟩ := getElem_of_mem he
  obtain ⟨j, hj, rfl⟩ := getElem_of_mem he'
  rcases Nat.lt_trichotomy i j with hij | rfl | hij
  · exact pairwise_iff_getElem.mp h i j hi hj hij
  · exact absurd hlt (lt_irrefl _)
  · exact absurd hlt (pairwise_iff_getElem.mp h j i hj hi hij).1.not_gt

variable [BoundedOrder α]

/-- **`RangeBlocks`** collects the blocks that the range meets. -/
theorem rangeBlocks_eq (h : Blocks t.entries) (hlr : l ≤ r) :
    t.rangeBlocks l r = t.meeting l r := by
  obtain ⟨before, e, after, hentries, hfind, hle, hafter⟩ := findRangeBlock_spec h l
  obtain ⟨before', e', after', hentries', hfind', hle', hafter'⟩ := findRangeBlock_spec h r
  have hordered := h.ordered
  -- the blocks up to the one of `r` are those that do not begin above it
  have hupto : t.entries.take (findRangeBlock t.entries r + 1) = t.entries.filter fun e =>
    decide (e.1 ≤ r) := by
    rw [hfind', hentries']
    rw [hentries'] at hordered
    have hbelow : ∀ b ∈ before' ++ [e'], b.1 ≤ r := by
      refine forall_mem_append.mpr ⟨fun b hb => ?_, forall_mem_singleton.mpr hle'⟩
      exact ((pairwise_append.mp hordered).2.2 b hb e' mem_cons_self).1.le.trans hle'
    have hlen : before'.length + 1 = (before' ++ [e']).length := by simp
    rw [append_cons, hlen, take_left, filter_append,
      filter_eq_self.mpr fun b hb => decide_eq_true (hbelow b hb),
      filter_eq_nil_iff.mpr fun a ha hle => (hafter' a ha).not_ge (of_decide_eq_true hle),
      append_nil]
  rw [hentries] at hordered
  obtain ⟨-, hrest, hbefore⟩ := pairwise_append.mp hordered
  have hbelow : ∀ b ∈ before, b.1 < e.1 := fun b hb => (hbefore b hb e mem_cons_self).1
  have hleft : before.filter (fun e => decide (e.1 ≤ r)) = before :=
    filter_eq_self.mpr fun b hb => decide_eq_true ((hbelow b hb).le.trans (hle.trans hlr))
  have hrange : t.rangeBlocks l r = ((e :: after).filter fun e => decide (e.1 ≤ r)).map snd := by
    rw [rangeBlocks, hupto, hfind, hentries, filter_append, hleft, drop_left]
  rw [hrange, meeting]
  congr 1
  have hfilter : ∀ p : α × RangeBlock α → Bool,
      t.entries.filter p = before.filter p ++ (e :: after).filter p := fun p => by
    rw [← filter_append, ← hentries]
  have hskipped : (before.filter fun e =>
      decide (e.1 ≤ r) && !t.entries.any fun e' => decide (e.1 < e'.1) && decide (e'.1 ≤ l)) =
        [] := by
    refine filter_eq_nil_iff.mpr fun b hb hmeets => ?_
    rw [Bool.and_eq_true, Bool.not_eq_true', any_eq_false] at hmeets
    have he : e ∈ t.entries := hentries ▸ mem_append_cons_self
    exact hmeets.2 e he (by simp [hbelow b hb, hle])
  rw [hfilter, hskipped, nil_append]
  refine filter_congr fun b hb => ?_
  have hnone : (t.entries.any fun e' => decide (b.1 < e'.1) && decide (e'.1 ≤ l)) = false := by
    rw [any_eq_false]
    intro a ha hbetween
    rw [Bool.and_eq_true, decide_eq_true_eq, decide_eq_true_eq] at hbetween
    have hbot : e.1 ≤ b.1 := by
      rcases mem_cons.mp hb with rfl | hb
      · exact le_refl _
      · exact ((pairwise_cons.mp hrest).1 b hb).1.le
    rw [hentries] at ha
    rcases mem_append.mp ha with ha | ha
    · exact ((hbelow a ha).trans_le hbot).not_gt hbetween.1
    · rcases mem_cons.mp ha with rfl | ha
      · exact hbot.not_gt hbetween.1
      · exact (hafter a ha).not_ge hbetween.2
  rw [hnone, Bool.not_false, Bool.and_true]

theorem docsOf_meeting (h : Blocks t.entries) :
    docsOf l r (t.meeting l r) = docsIn l r (contents t.entries) := by
  ext n
  simp only [mem_docsOf, mem_docsIn, contents, meeting, List.mem_map, List.mem_filter, mem_flatMap]
  constructor
  · rintro ⟨b, ⟨e, ⟨he, -⟩, rfl⟩, x, hx, hin, hid⟩
    exact ⟨x, ⟨e, he, hx⟩, hin, hid⟩
  · rintro ⟨x, ⟨e, he, hx⟩, hin, hid⟩
    refine ⟨e.2, ⟨e, ⟨he, ?_⟩, rfl⟩, x, hx, hin, hid⟩
    obtain ⟨hl, hr⟩ := of_decide_eq_true hin
    have hbelow := (h.ok e he).le x hx
    rw [Bool.and_eq_true, Bool.not_eq_true', any_eq_false]
    refine ⟨decide_eq_true (hbelow.trans hr), fun e' he' hbetween => ?_⟩
    rw [Bool.and_eq_true, decide_eq_true_eq, decide_eq_true_eq] at hbetween
    exact ((before_of_lt h.ordered he he' hbetween.1).2 x hx).not_ge (hbetween.2.trans hl)

end Meeting

/-! ## §5 Runs -/

section Runs

variable {α : Type} [LinearOrder α] [BoundedOrder α]

/-- A call of `Add` or `Remove`. -/
inductive Op (α : Type) where
  | add (id : ℕ) (value : α)
  | remove (id : ℕ) (value : α)

/-- Values are finite and documents have valid numbers. -/
def Op.Ok : Op α → Prop
  | add id value => (⊥ < value ∧ value < ⊤) ∧ id < kInvalidDocId
  | remove _ value => ⊥ < value ∧ value < ⊤

instance Op.decidableOk : (op : Op α) → Decidable op.Ok
  | add id value => inferInstanceAs (Decidable ((⊥ < value ∧ value < ⊤) ∧ id < kInvalidDocId))
  | remove _ value => inferInstanceAs (Decidable (⊥ < value ∧ value < ⊤))

/-- What a call does to the set of the pairs that are held. -/
def Op.holds (held : Finset (ℕ × α)) : Op α → Finset (ℕ × α)
  | add id value => insert (id, value) held
  | remove id value => held.erase (id, value)

/-- The pairs held after some calls. -/
def held (ops : List (Op α)) : Finset (ℕ × α) := ops.foldl Op.holds ∅

/-- The documents that hold a value in a range. -/
def holding (l r : α) (pairs : Finset (ℕ × α)) : Finset ℕ :=
  (pairs.filter fun p => l ≤ p.2 ∧ p.2 ≤ r).image Prod.fst

/-- The tree holds some pairs. -/
structure Represents (t : RangeTree α) (pairs : Finset (ℕ × α)) : Prop where
  blocks : Blocks t.entries
  mem : ∀ x, x ∈ contents t.entries ↔ (x.id, x.value) ∈ pairs
  docs : ∀ p ∈ pairs, p.1 < kInvalidDocId

variable {t : RangeTree α} {pairs : Finset (ℕ × α)}

theorem Represents.readable (h : Represents t pairs)
    {e : α × RangeBlock α} (he : e ∈ t.entries) : Readable e.2 := by
  refine ⟨(h.blocks.ok e he).inv, fun x hx => ?_⟩
  exact h.docs _ ((h.mem x).mp (mem_flatMap.mpr ⟨e, he, hx⟩))

theorem Represents.docsIn_eq (h : Represents t pairs) (l r : α) :
    docsIn l r (contents t.entries) = holding l r pairs := by
  ext n
  simp only [mem_docsIn, holding, mem_image, mem_filter, h.mem]
  constructor
  · rintro ⟨x, hx, hin, rfl⟩
    exact ⟨(x.id, x.value), ⟨hx, of_decide_eq_true hin⟩, rfl⟩
  · rintro ⟨⟨id, value⟩, ⟨hp, hin⟩, rfl⟩
    exact ⟨entry id value, hp, decide_eq_true hin, rfl⟩

variable [SuccOrder α]

def Op.apply (t : RangeTree α) : Op α → RangeTree α
  | add id value => t.add id value
  | remove id value => t.remove id value

def run (maxSize : ℕ) (ops : List (Op α)) : RangeTree α := ops.foldl Op.apply (new maxSize)

theorem Represents.step (h : Represents t pairs) {op : Op α}
    (hop : op.Ok) : Represents (op.apply t) (op.holds pairs) := by
  cases op with
  | add id value =>
    obtain ⟨hblocks, -, hmem⟩ := add_spec h.blocks id hop.1
    refine ⟨hblocks, fun x => ?_, fun p hp => ?_⟩
    · rw [Op.holds, Finset.mem_insert, ← h.mem]
      exact hmem x
    · rcases Finset.mem_insert.mp hp with rfl | hp
      · exact hop.2
      · exact h.docs p hp
  | remove id value =>
    obtain ⟨hblocks, -, hmem⟩ := remove_spec h.blocks id value
    refine ⟨hblocks, fun x => ?_, fun p hp => h.docs p (Finset.mem_of_mem_erase hp)⟩
    rw [Op.holds, Finset.mem_erase, ← h.mem]
    exact hmem x

/-- **A run**: the tree holds what the calls have left. -/
theorem represents_run (maxSize : ℕ) {ops : List (Op α)} (hops : ∀ op ∈ ops, op.Ok) :
    Represents (run maxSize ops) (held ops) := by
  refine foldl_rel ⟨blocks_new maxSize, fun x => ?_, fun p hp => absurd hp (notMem_empty p)⟩
    fun op hop t pairs h => h.step (hops op hop)
  exact iff_of_false not_mem_nil (notMem_empty _)

/-- **Queries**: after any calls of `Add` and `Remove`, reading a range lists the documents that
hold a value in it, in increasing order and each once, if and only if the range meets no more than
two blocks or no document holds values of the range in two of the blocks; the same is true of the
list of all documents. -/
theorem range_lists_iff (maxSize : ℕ) (ops : List (Op α)) (hops : ∀ op ∈ ops, op.Ok) :
    (∀ l r, l ≤ r → (Lists ((run maxSize ops).range l r) (holding l r (held ops)) ↔
        ((run maxSize ops).meeting l r).length ≤ 2 ∨ NoneTwice l r
        ((run maxSize ops).meeting l r))) ∧
      (Lists (run maxSize ops).getAllDocIds ((held ops).image Prod.fst) ↔
        (run maxSize ops).entries.length ≤ 2 ∨ NoneTwice ⊥ ⊤
        ((run maxSize ops).entries.map Prod.snd)) := by
  have h := represents_run maxSize hops
  constructor
  · intro l r hlr
    have hreadable : ∀ b ∈ (run maxSize ops).meeting l r, Readable b := by
      intro b hb
      obtain ⟨e, he, rfl⟩ := List.mem_map.mp hb
      exact h.readable (List.mem_filter.mp he).1
    rw [range, rangeBlocks_eq h.blocks hlr, ← h.docsIn_eq, ← docsOf_meeting h.blocks]
    exact lists_ofBlocks_iff hreadable
  · have hreadable : ∀ b ∈ (run maxSize ops).entries.map snd, Readable b := by
      intro b hb
      obtain ⟨e, he, rfl⟩ := List.mem_map.mp hb
      exact h.readable he
    have hall : docsOf ⊥ ⊤ ((run maxSize ops).entries.map snd) = (held ops).image fst := by
      have hholding : holding ⊥ ⊤ (held ops) = (held ops).image fst := by
        simp [holding]
      rw [← hholding, ← h.docsIn_eq, docsOf, contents, flatMap_map]
    rw [← hall, ← length_map snd]
    exact lists_ofBlocks_iff hreadable

/-- Five pairs in blocks of two; the values lie between the infinities `0` and `6`. -/
def fivePairs : List (Op (Fin 7)) := [.add 1 1, .add 2 2, .add 3 3, .add 4 4, .add 1 3]

/-- A range that meets two of the four blocks. -/
theorem range_lists_two_blocks :
    Lists ((run 2 fivePairs).range 1 2) (holding 1 2 (held fivePairs)) :=
  ((range_lists_iff 2 fivePairs (by decide)).1 1 2 (by decide)).mpr (.inl (by decide +kernel))

/-- A range that meets all four blocks: document 1, with a value in the first block and one in the
third, is listed twice. -/
theorem range_lists_document_twice :
    (∀ op ∈ fivePairs, op.Ok) ∧ ((run 2 fivePairs).range 1 4).take = [1, 1, 2, 3, 4] ∧
      ¬ Lists ((run 2 fivePairs).range 1 4) (holding 1 4 (held fivePairs)) := by
  have htake : ((run 2 fivePairs).range 1 4).take = [1, 1, 2, 3, 4] := by decide +kernel
  refine ⟨by decide, htake, fun h => ?_⟩
  have hnodup : ((run 2 fivePairs).range 1 4).take.Nodup := h.1 ▸ sort_nodup _ _
  exact absurd hnodup (by decide)

end Runs

end RangeTree

end Drakeydb.Search
