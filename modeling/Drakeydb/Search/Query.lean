import Drakeydb.Search.RangeResult

/-!
# Results and boolean queries

`IndexResult` of `core/search/index_result.h`: a set of documents in one of several representations,
read through the iterator that belongs to it. Two results are merged into a vector: their
intersection by leapfrogging, with single steps over small gaps and seeks over large ones, and their
union by `std::set_union`.

The part of `BasicSearch` of `core/search/search.cc` that combines results: `UnifyResults`, and
`Search` of negations, optional parts and logical nodes. Leaves are given by their results and
errors. The operands of a logical node are merged in the order in which `std::sort` puts them by
their approximate sizes, which is a parameter here: any order will do.
-/

namespace Drakeydb.Search

open Lib.SortedCursor List

variable {α : Type} [LinearOrder α]

section

open Finset ResultIter

/-! ## §1 The code -/

/-- `IndexResult`; a compressed set is modelled by the documents in it. -/
inductive IndexResult (α : Type) where
  | owned (ids : List ℕ)
  | borrowed (ids : List ℕ)
  | compressed (list : BlockList ℕ)
  | sorted (list : BlockList ℕ)
  | range (result : RangeResult α)

inductive LogicOp where
  | and
  | or
  deriving DecidableEq

def kFastSeekThreshold : ℕ := 15

/-- The largest `size_t`: no limit. -/
def noLimit : ℕ := 2 ^ 64 - 1

/-- `size()` of a borrowed range result. -/
def RangeResult.size : RangeResult α → ℕ
  | docs ids => ids.length
  | single b _ _ => b.list.size
  | two b b' _ _ => b.list.size + b'.list.size

namespace IndexResult

def approximateSize : IndexResult α → ℕ
  | owned ids => ids.length
  | borrowed ids => ids.length
  | compressed list => list.size
  | sorted list => list.size
  | range result => result.size

/-- `begin()` of the borrowed view. -/
def begin : IndexResult α → ResultIter α
  | owned ids => .vector ids
  | borrowed ids => .vector ids
  | compressed list => .blocks false (.start list.blocks)
  | sorted list => .blocks true (.start list.blocks)
  | range result => result.begin

/-- `Take` of a range: the size is not known before all documents are counted. -/
def takeCounting (limit : ℕ) (result : IndexResult α) : List ℕ × ℕ :=
  let all := walk ResultIter.resultCursor result.begin
  (all.take limit, all.length)

/-- `Take` of other borrowed results. -/
def takeBorrowed (limit : ℕ) (result : IndexResult α) : List ℕ × ℕ :=
  ((walk ResultIter.resultCursor result.begin).take limit, result.approximateSize)

/-- `Take`: up to `limit` documents, and the size; what is owned is moved out as it is. -/
def take (limit : ℕ) : IndexResult α → List ℕ × ℕ
  | owned ids => (ids, ids.length)
  | range result => takeCounting limit (range result)
  | borrowed ids => takeBorrowed limit (borrowed ids : IndexResult α)
  | compressed list => takeBorrowed limit (compressed list : IndexResult α)
  | sorted list => takeBorrowed limit (sorted list : IndexResult α)

end IndexResult

def mergeIndexResults (left right : IndexResult α) : LogicOp → List ℕ
  | .and =>
    intersect ResultIter.resultCursor ResultIter.resultCursor kFastSeekThreshold
    left.begin right.begin
  | .or => union ResultIter.resultCursor ResultIter.resultCursor left.begin right.begin

/-! ## §2 The documents of a result -/

namespace IndexResult

def docs : IndexResult α → Finset ℕ
  | owned ids => ids.toFinset
  | borrowed ids => ids.toFinset
  | compressed list => list.elems.toFinset
  | sorted list => list.elems.toFinset
  | range (.docs ids) => ids.toFinset
  | range (.single b l r) => docsIn l r b.elems
  | range (.two b b' l r) => docsIn l r b.elems ∪ docsIn l r b'.elems

/-- The containers keep their invariants: vectors increase, and so do the elements of all blocks. -/
def Wf : IndexResult α → Prop
  | owned ids => ids.Pairwise (· < ·)
  | borrowed ids => ids.Pairwise (· < ·)
  | compressed list => list.Inv
  | sorted list => list.Inv
  | range (.docs ids) => ids.Pairwise (· < ·)
  | range (.single b _ _) => b.list.Inv
  | range (.two b b' _ _) => b.list.Inv ∧ b'.list.Inv

variable {result : IndexResult α}

/-- **Every representation** is read through a valid iterator over its documents. -/
theorem begin_spec (h : result.Wf) (hdocs : ∀ n ∈ result.docs, n < kInvalidDocId) :
    result.begin.Valid ∧ result.begin.ahead = result.docs := by
  have hblocks : ∀ {list : BlockList ℕ} (randomAccess : Bool), list.Inv →
      (blocks randomAccess (.start list.blocks) : ResultIter α).Valid ∧
        (blocks randomAccess (.start list.blocks) : ResultIter α).ahead = list.elems.toFinset := by
    intro list randomAccess hinv
    obtain ⟨hvalid, hentries⟩ := BlockIter.valid_start hinv.ne_nil (byId_of_increasing hinv.sorted)
    exact ⟨⟨hvalid, hentries ▸ hinv.sorted⟩, congrArg toFinset hentries⟩
  match result, h, hdocs with
  | owned _, h, _ => exact ⟨h, rfl⟩
  | borrowed _, h, _ => exact ⟨h, rfl⟩
  | compressed _, h, _ => exact hblocks false h
  | sorted _, h, _ => exact hblocks true h
  | range (.docs _), h, _ => exact ⟨h, rfl⟩
  | range (.single b l r), h, hdocs => exact RangeIter.makeBegin_spec h.ne_nil (byId_elems h) hdocs
  | range (.two b b' l r), h, hdocs =>
    obtain ⟨hl, hahead⟩ := RangeIter.makeBegin_spec h.1.ne_nil (byId_elems h.1) (l := l) (r := r)
      fun n hn => hdocs n (mem_union_left _ hn)
    obtain ⟨hr, hahead'⟩ := RangeIter.makeBegin_spec h.2.ne_nil (byId_elems h.2) (l := l) (r := r)
      fun n hn => hdocs n (Finset.mem_union_right _ hn)
    have hunion := congrArg₂ (· ∪ ·) hahead hahead'
    obtain ⟨hvalid, hboth⟩ := MergingIter.valid_make hl hr fun n hn =>
      hdocs n ((Finset.ext_iff.mp hunion n).mp hn)
    exact ⟨hvalid, hboth.trans hunion⟩

/-- **Iterating** over a result. -/
theorem walk_begin (h : result.Wf) (hdocs : ∀ n ∈ result.docs, n < kInvalidDocId) :
    walk resultCursor result.begin = result.docs.sort := by
  obtain ⟨hvalid, hahead⟩ := begin_spec h hdocs
  rw [walk_eq resultCursor_lawful hvalid, hahead]

/-- **`Take`** without a limit hands out all documents and their number. -/
theorem take_spec (h : result.Wf) (hdocs : ∀ n ∈ result.docs, n < kInvalidDocId) :
    result.take noLimit = (result.docs.sort, result.docs.card) := by
  have hwalk := walk_begin h hdocs
  have hcard : result.docs.card ≤ noLimit := by
    have hsub : result.docs ⊆ Finset.range kInvalidDocId :=
      fun n hn => Finset.mem_range.mpr (hdocs n hn)
    refine (card_le_card hsub).trans ?_
    rw [card_range]
    decide
  have htake : result.docs.sort.take noLimit = result.docs.sort :=
    take_of_length_le (by rwa [length_sort])
  have hsize : ∀ {list : BlockList ℕ}, list.Inv → list.size = list.elems.toFinset.card := by
    intro list hinv
    rw [hinv.size_eq, toFinset_card_of_nodup (hinv.sorted.imp fun hlt => hlt.ne)]
  match result, h, hwalk, htake with
  | owned ids, h, _, _ =>
    have hsort : ids = ids.toFinset.sort := eq_sort_of_sortedLT h fun n => mem_toFinset.symm
    rw [take, ← length_sort (· ≤ ·)]
    exact Prod.ext hsort (congrArg length hsort)
  | borrowed ids, h, hwalk, htake =>
    rw [take, takeBorrowed, hwalk, htake]
    exact Prod.ext rfl (toFinset_card_of_nodup (h.imp fun hlt => Nat.ne_of_lt hlt)).symm
  | compressed list, h, hwalk, htake =>
    rw [take, takeBorrowed, hwalk, htake]
    exact Prod.ext rfl (hsize h)
  | sorted list, h, hwalk, htake =>
    rw [take, takeBorrowed, hwalk, htake]
    exact Prod.ext rfl (hsize h)
  | range r, h, hwalk, htake =>
    simp [take, takeCounting, hwalk, htake]

end IndexResult

/-- The set operation of a logical operator. -/
def LogicOp.apply (s t : Finset ℕ) : LogicOp → Finset ℕ
  | .and => s ∩ t
  | .or => s ∪ t

/-- **Merging** two results, in whatever representations. -/
theorem mergeIndexResults_eq {left right : IndexResult α} (hl : left.Wf) (hr : right.Wf)
    (hldocs : ∀ n ∈ left.docs, n < kInvalidDocId) (hrdocs : ∀ n ∈ right.docs, n < kInvalidDocId)
    (op : LogicOp) : mergeIndexResults left right op = (op.apply left.docs right.docs).sort := by
  obtain ⟨hlvalid, hlahead⟩ := left.begin_spec hl hldocs
  obtain ⟨hrvalid, hrahead⟩ := right.begin_spec hr hrdocs
  have hlawful := resultCursor_lawful (α := α)
  cases op with
  | and =>
    rw [mergeIndexResults, intersect_eq hlawful hlawful _ hlvalid hrvalid, hlahead, hrahead,
    LogicOp.apply]
  | or =>
    rw [mergeIndexResults, union_eq hlawful hlawful hlvalid hrvalid, hlahead, hrahead,
    LogicOp.apply]

end

open SortedVector

/-! ## §3 The code -/

/-- `GetAllDocs`: the indexed documents, in increasing order. -/
structure AllDocs where
  ids : List ℕ
  increasing : ids.Pairwise (· < ·)
  valid : ∀ n ∈ ids, n < kInvalidDocId

/-- The set of the indexed documents. -/
def AllDocs.set (docs : AllDocs) : Finset ℕ := docs.ids.toFinset

/-- An order in which results are merged. -/
structure Arrangement (α : Type) where
  order : List (IndexResult α) → List (IndexResult α)
  perm : ∀ results, (order results).Perm results

/-- One by approximate sizes. -/
def Arrangement.bySize : Arrangement α where
  order := List.insertionSort fun l r => l.approximateSize ≤ r.approximateSize
  perm := List.perm_insertionSort _

/-- `AstNode`, as far as results are combined: `scoped` is a field or an attribute node, which only
sets what the leaves below it read. A leaf comes with its result and its error, which is empty if
there is none. -/
inductive Node (α : Type) where
  | leaf (stopWord : Bool) (result : IndexResult α) (error : String)
  | scoped (node : Node α)
  | negate (node : Node α)
  | optional (node : Node α)
  | logical (op : LogicOp) (nodes : List (Node α))

/-- A term that is a stop word. -/
def Node.isStopWord : Node α → Bool
  | .leaf stopWord _ _ => stopWord
  | _ => false

def unifyResults (arrangement : Arrangement α) (results : List (IndexResult α)) (op : LogicOp) :
    IndexResult α :=
  match arrangement.order results with
  | [] => .owned []
  | result :: results =>
    results.foldl (fun current matched => .owned (mergeIndexResults matched current op)) result

def binarySearch (ids : List ℕ) (doc : ℕ) : Bool :=
  ids[SortedVector.lowerBound ids doc]?.any fun found => decide (¬ doc < found)

/-- The complement of some documents. -/
def complement (all matched : List ℕ) : List ℕ := all.filter fun doc => !binarySearch matched doc

mutual

/-- `SearchGeneric`; the second component is `error_`. -/
def searchGeneric (docs : AllDocs) (arrangement : Arrangement α) (node : Node α) (error : String) :
    IndexResult α × String :=
  if error ≠ "" then (.owned [], error) else
  match node with
  | .leaf _ result error => (result, error)
  | .scoped node => searchGeneric docs arrangement node error
  | .negate node =>
    match searchGeneric docs arrangement node error with
    | (result, error) =>
      if error ≠ "" then (.owned [], error)
      else (.owned (complement docs.ids (result.take noLimit).1), error)
  | .optional node =>
    -- the error is saved and restored, whatever happens below
    match searchGeneric docs arrangement node "" with
    | (_, _) => (.borrowed docs.ids, error)
  | .logical op nodes =>
    match searchOperands docs arrangement nodes error with
    | (results, error) => (unifyResults arrangement results op, error)

/-- The loop over the operands: bare stop words are left out. -/
def searchOperands (docs : AllDocs) (arrangement : Arrangement α) (nodes : List (Node α))
    (error : String) :
    List (IndexResult α) × String :=
  match nodes with
  | [] => ([], error)
  | node :: nodes =>
    if node.isStopWord then searchOperands docs arrangement nodes error
    else
      match searchGeneric docs arrangement node error with
      | (result, error) =>
        match searchOperands docs arrangement nodes error with
        | (results, error) => (result :: results, error)

end

/-! ## §4 What a query denotes -/

/-- The operands of a logical node combined; no operands give no documents. -/
def combine (all : Finset ℕ) (sets : List (Finset ℕ)) : LogicOp → Finset ℕ
  | .and => if sets = [] then ∅ else all.filter fun n => ∀ s ∈ sets, n ∈ s
  | .or => all.filter fun n => ∃ s ∈ sets, n ∈ s

mutual

/-- The documents that a query denotes. -/
def denote (all : Finset ℕ) : Node α → Finset ℕ
  | .leaf _ result _ => result.docs
  | .scoped node => denote all node
  | .negate node => all \ denote all node
  | .optional _ => all
  | .logical op nodes => combine all (denoteOperands all nodes) op

/-- The sets of the operands that are left. -/
def denoteOperands (all : Finset ℕ) : List (Node α) → List (Finset ℕ)
  | [] => []
  | node :: nodes =>
    if node.isStopWord then denoteOperands all nodes
      else denote all node :: denoteOperands all nodes

end

mutual

/-- The leaves have results drawn from the indexed documents, and no errors; what is optional may
have. -/
def LeavesOk (all : Finset ℕ) : Node α → Prop
  | .leaf _ result error => result.Wf ∧ result.docs ⊆ all ∧ error = ""
  | .scoped node => LeavesOk all node
  | .negate node => LeavesOk all node
  | .optional _ => True
  | .logical _ nodes => OperandsOk all nodes

/-- The same for all operands. -/
def OperandsOk (all : Finset ℕ) : List (Node α) → Prop
  | [] => True
  | node :: nodes => LeavesOk all node ∧ OperandsOk all nodes

end

/-! ## §5 Combining results -/

/-- A result that can be merged with others. -/
def Mergeable (all : Finset ℕ) (result : IndexResult α) : Prop := result.Wf ∧ result.docs ⊆ all

section Unify

variable {all : Finset ℕ} (hall : ∀ n ∈ all, n < kInvalidDocId) {s : Finset ℕ}

theorem mergeable_owned_sort (hs : s ⊆ all) :
    Mergeable all (.owned s.sort : IndexResult α) ∧
      (IndexResult.owned s.sort : IndexResult α).docs = s :=
  ⟨⟨(Finset.sortedLT_sort s).pairwise, by rwa [IndexResult.docs, Finset.sort_toFinset]⟩,
    Finset.sort_toFinset s _⟩

include hall

variable {results : List (IndexResult α)} (op : LogicOp)

theorem foldl_merge_spec {current : IndexResult α} (hresults : ∀ r ∈ results, Mergeable all r)
    (hcurrent : Mergeable all current) :
    Mergeable all
      (results.foldl
      (fun current matched => .owned (mergeIndexResults matched current op)) current) ∧
      (results.foldl (fun current matched => .owned (mergeIndexResults matched current op))
        current).docs = results.foldl (fun s r => op.apply r.docs s) current.docs := by
  induction results generalizing current with
  | nil => exact ⟨hcurrent, rfl⟩
  | cons matched results ih =>
    have hmatched := hresults matched mem_cons_self
    have hmerge := mergeIndexResults_eq hmatched.1 hcurrent.1 (fun n hn => hall n (hmatched.2 hn))
      (fun n hn => hall n (hcurrent.2 hn)) op
    have hsub : op.apply matched.docs current.docs ⊆ all := by
      cases op with
      | and => exact Finset.inter_subset_left.trans hmatched.2
      | or => exact Finset.union_subset hmatched.2 hcurrent.2
    obtain ⟨hnext, hdocs⟩ := mergeable_owned_sort (α := α) hsub
    have hrest := ih (fun r hr => hresults r (mem_cons_of_mem _ hr)) hnext
    rw [hdocs] at hrest
    rw [foldl_cons, hmerge, foldl_cons]
    exact hrest

omit hall in
theorem mem_foldl_apply {n : ℕ} :
    n ∈ results.foldl (fun s r => op.apply r.docs s) s ↔
      match op with
      | .and => n ∈ s ∧ ∀ r ∈ results, n ∈ r.docs
      | .or => n ∈ s ∨ ∃ r ∈ results, n ∈ r.docs := by
  induction results generalizing s with
  | nil => cases op <;> simp
  | cons r results ih =>
    rw [foldl_cons, ih]
    cases op with
    | and =>
      simp only [LogicOp.apply, Finset.mem_inter, forall_mem_cons]
      tauto
    | or =>
      simp only [LogicOp.apply, Finset.mem_union, exists_mem_cons_iff]
      tauto

/-- **`UnifyResults`** combines the operands, in whatever order they are merged. -/
theorem unifyResults_spec (arrangement : Arrangement α) (op : LogicOp)
    (hresults : ∀ r ∈ results, Mergeable all r) :
    Mergeable all (unifyResults arrangement results op) ∧
      (unifyResults arrangement results op).docs = combine all
      (results.map IndexResult.docs) op := by
  have hperm := arrangement.perm results
  rw [unifyResults]
  cases horder : arrangement.order results with
  | nil =>
    rw [horder] at hperm
    rw [hperm.symm.eq_nil]
    refine ⟨⟨List.Pairwise.nil, Finset.empty_subset _⟩, ?_⟩
    cases op with
    | and => rfl
    | or => simp [combine, IndexResult.docs]
  | cons first rest =>
    rw [horder] at hperm
    have hfirst := hresults first (hperm.subset mem_cons_self)
    obtain ⟨hmerged, hdocs⟩ := foldl_merge_spec hall op
      (fun r hr => hresults r (hperm.subset (mem_cons_of_mem _ hr))) hfirst
    refine ⟨hmerged, hdocs.trans ?_⟩
    have hmem : ∀ r, r ∈ results ↔ r = first ∨ r ∈ rest := fun r =>
      hperm.symm.mem_iff.trans mem_cons
    have hne : results.map IndexResult.docs ≠ [] := by
      intro hnil
      rw [map_eq_nil_iff.mp hnil] at hperm
      exact cons_ne_nil _ _ hperm.eq_nil
    ext n
    rw [mem_foldl_apply]
    cases op with
    | and =>
      simp only [combine, if_neg hne, Finset.mem_filter, forall_mem_map, hmem, forall_eq_or_imp]
      exact ⟨fun h => ⟨hfirst.2 h.1, h⟩, fun h => h.2⟩
    | or =>
      have hor : (∃ s ∈ results.map IndexResult.docs, n ∈ s) ↔ n ∈ first.docs ∨
        ∃ r ∈ rest, n ∈ r.docs := by
        simp [hmem]
      simp only [combine, Finset.mem_filter, hor]
      refine ⟨fun h => ⟨?_, h⟩, fun h => h.2⟩
      rcases h with hn | ⟨r, hr, hn⟩
      · exact hfirst.2 hn
      · exact (hresults r ((hmem r).mpr (.inr hr))).2 hn

end Unify

/-! ## §6 Negation -/

theorem binarySearch_sort (s : Finset ℕ) (doc : ℕ) :
    binarySearch s.sort doc = decide (doc ∈ s) := by
  have hsorted : Sorted s.sort := (Finset.sortedLT_sort s).pairwise
  rw [binarySearch]
  cases hget : s.sort[lowerBound s.sort doc]? with
  | none =>
    refine (decide_eq_false fun hmem => ?_).symm
    rw [(getElem?_lowerBound_eq_some_iff hsorted doc).mpr ((Finset.mem_sort _).mpr hmem)] at hget
    cases hget
  | some found =>
    have hle : doc ≤ found := by
      rw [getElem?_lowerBound] at hget
      exact le_of_mem_dropWhile hsorted (mem_of_mem_head? hget)
    rw [Option.any_some, decide_eq_decide]
    constructor
    · intro hnot
      rw [Nat.le_antisymm hle (Nat.le_of_not_lt hnot)]
      exact (Finset.mem_sort _).mp (mem_of_getElem? hget)
    · intro hmem
      rw [(getElem?_lowerBound_eq_some_iff hsorted doc).mpr ((Finset.mem_sort _).mpr hmem)] at hget
      exact Option.some.inj hget ▸ Nat.lt_irrefl doc

theorem complement_eq (docs : AllDocs) (s : Finset ℕ) :
    complement docs.ids s.sort = (docs.set \ s).sort := by
  apply eq_sort_of_sortedLT (docs.increasing.sublist filter_sublist)
  intro n
  simp only [mem_filter, binarySearch_sort, Bool.not_eq_true', decide_eq_false_iff_not,
    Finset.mem_sdiff, AllDocs.set, mem_toFinset]

/-! ## §7 Evaluation -/

section Evaluation

variable (docs : AllDocs) (arrangement : Arrangement α)

theorem AllDocs.lt_invalid {n : ℕ} (hn : n ∈ docs.set) : n < kInvalidDocId :=
  docs.valid n (mem_toFinset.mp hn)

mutual

theorem searchGeneric_spec (node : Node α) (hok : LeavesOk docs.set node) :
    (searchGeneric docs arrangement node "").2 = "" ∧
      Mergeable docs.set (searchGeneric docs arrangement node "").1 ∧
      (searchGeneric docs arrangement node "").1.docs = denote docs.set node := by
  match node, hok with
  | .leaf _ result error, hok =>
    rw [LeavesOk] at hok
    rw [searchGeneric, if_neg (fun h => h rfl), denote]
    exact ⟨hok.2.2, ⟨hok.1, hok.2.1⟩, rfl⟩
  | .scoped node, hok =>
    rw [LeavesOk] at hok
    rw [searchGeneric, if_neg (fun h => h rfl), denote]
    exact searchGeneric_spec node hok
  | .negate node, hok =>
    rw [LeavesOk] at hok
    obtain ⟨herror, hmergeable, hdocs⟩ := searchGeneric_spec node hok
    rw [searchGeneric, if_neg (fun h => h rfl), denote]
    generalize searchGeneric docs arrangement node "" = inner at herror hmergeable hdocs
    obtain ⟨result, error⟩ := inner
    dsimp only at herror hmergeable hdocs
    subst herror
    have htake := IndexResult.take_spec hmergeable.1 fun n hn => docs.lt_invalid (hmergeable.2 hn)
    dsimp only
    rw [if_neg (fun h => h rfl), htake, complement_eq, hdocs]
    exact ⟨rfl, mergeable_owned_sort Finset.sdiff_subset⟩
  | .optional node, _ =>
    rw [searchGeneric, if_neg (fun h => h rfl), denote]
    exact ⟨rfl, ⟨docs.increasing, Finset.Subset.refl _⟩, rfl⟩
  | .logical op nodes, hok =>
    rw [LeavesOk] at hok
    obtain ⟨herror, hmergeable, hdocs⟩ := searchOperands_spec nodes hok
    rw [searchGeneric, if_neg (fun h => h rfl), denote, ← hdocs]
    exact ⟨herror, unifyResults_spec (fun n hn => docs.lt_invalid hn) arrangement op hmergeable⟩

theorem searchOperands_spec (nodes : List (Node α)) (hok : OperandsOk docs.set nodes) :
    (searchOperands docs arrangement nodes "").2 = "" ∧
      (∀ r ∈ (searchOperands docs arrangement nodes "").1, Mergeable docs.set r) ∧
      (searchOperands docs arrangement nodes "").1.map IndexResult.docs =
        denoteOperands docs.set nodes := by
  match nodes, hok with
  | [], _ =>
    rw [searchOperands, denoteOperands]
    exact ⟨rfl, forall_mem_nil _, rfl⟩
  | node :: nodes, hok =>
    rw [OperandsOk] at hok
    obtain ⟨herrors, hmergeables, hsets⟩ := searchOperands_spec nodes hok.2
    rw [searchOperands, denoteOperands]
    split
    case isTrue => exact ⟨herrors, hmergeables, hsets⟩
    case isFalse =>
      obtain ⟨herror, hmergeable, hdocs⟩ := searchGeneric_spec node hok.1
      generalize searchGeneric docs arrangement node "" = inner at herror hmergeable hdocs
      obtain ⟨result, error⟩ := inner
      dsimp only at herror hmergeable hdocs ⊢
      subst herror
      refine ⟨herrors, forall_mem_cons.mpr ⟨hmergeable, hmergeables⟩, ?_⟩
      rw [map_cons, hdocs, hsets]

end

/-- **Boolean queries compute set algebra**: if the leaves have results drawn from the indexed
documents and no errors, evaluation yields the increasing list of the documents that the query
denotes, by `Take` as well as by iteration, whatever the representations of the results and the
order of merging. -/
theorem search_denotes (query : Node α) (hok : LeavesOk docs.set query) :
    (searchGeneric docs arrangement query "").2 = "" ∧
      (searchGeneric docs arrangement query "").1.take noLimit =
        ((denote docs.set query).sort, (denote docs.set query).card) ∧
      walk ResultIter.resultCursor (searchGeneric docs arrangement query "").1.begin =
        (denote docs.set query).sort := by
  obtain ⟨herror, hmergeable, hdocs⟩ := searchGeneric_spec docs arrangement query hok
  have hvalid : ∀ n ∈ (searchGeneric docs arrangement query "").1.docs,
    n < kInvalidDocId := fun n hn =>
    docs.lt_invalid (hmergeable.2 hn)
  rw [← hdocs]
  exact ⟨herror, IndexResult.take_spec hmergeable.1 hvalid,
    IndexResult.walk_begin hmergeable.1 hvalid⟩

def fiveDocs : AllDocs := ⟨[1, 2, 3, 4, 6], by decide, by decide⟩

/-- Some of them in blocks. -/
def inBlocks : BlockList ℕ := ⟨2, 3, [[1, 2], [6]]⟩

theorem inv_inBlocks : inBlocks.Inv where
  ne_nil := by decide
  sorted := by
    decide
  size_eq := rfl

/-- A document that is in the vector or in the blocks, but not the one in the compressed set, next
to a stop word. -/
def mixedQuery : Node ℕ :=
  .logical .and [.logical .or [.leaf false (.owned [3]) "", .leaf false (.sorted inBlocks) ""],
    .negate (.leaf false (.compressed ⟨2, 1, [[2]]⟩) ""), .leaf true (.owned []) "",
      .optional (.leaf true (.owned []) "")]

/-- Evaluation of the query. -/
theorem search_denotes_mixedQuery :
    ((searchGeneric fiveDocs .bySize mixedQuery "").1.take noLimit).1 = [1, 3, 6] := by
  have hok : LeavesOk fiveDocs.set mixedQuery := by
    have hlist : (⟨2, 1, [[2]]⟩ : BlockList ℕ).Inv :=
      ⟨by decide, pairwise_singleton _ _, rfl⟩
    refine ⟨⟨⟨?_, ?_, rfl⟩, ⟨inv_inBlocks, ?_, rfl⟩, trivial⟩, ⟨hlist, ?_, rfl⟩,
      ⟨List.Pairwise.nil, ?_, rfl⟩, trivial, trivial⟩
    · exact pairwise_singleton _ _
    all_goals decide
  have hset : denote fiveDocs.set mixedQuery = [1, 3, 6].toFinset := by decide +kernel
  rw [(search_denotes fiveDocs .bySize mixedQuery hok).2.1, hset]
  exact (eq_sort_of_sortedLT (by decide) fun n => mem_toFinset.symm).symm

end Evaluation

end Drakeydb.Search
