import Drakeydb.Search.Query
import Drakeydb.Search.StringIndex

/-!
# Results from postings

How the postings of tokens become the result of a search: `IndexResult` borrows a posting list, and
`CollectMatches` of `core/search/search.cc` merges as many as match. Text indices keep their
postings in compressed blocks, tag indices in blocks of plain vectors.
-/

namespace Drakeydb.Search

open Lib List SortedMap Prod

/-! ## §1 The code -/

/-- What the blocks of posting lists are: `CompressedSortedSet` or `SortedVector<DocId>`. -/
inductive Container where
  | compressed
  | sorted

namespace Container

/-- The result that borrows a posting list. -/
def borrow (k : Container) (list : BlockList ℕ) : IndexResult ℕ :=
  match k with
  | compressed => .compressed list
  | sorted => .sorted list

/-- The result that borrows a posting list, if there is one. -/
def ofPostings (k : Container) : Option (SortedMap ℕ TermInfo) → IndexResult ℕ
  | none => .owned []
  | some docs => k.borrow ⟨1000, docs.list.length, [docs.list.map Prod.fst]⟩

/-- `CollectMatches`: what the callback gets is merged, one after the other. -/
def collectMatches (k : Container) (matched : List (Option (SortedMap ℕ TermInfo))) :
    IndexResult ℕ :=
  matched.foldl (fun result c => .owned (mergeIndexResults (k.ofPostings c) result .or)) (.owned [])

end Container

/-! ## §2 Documents with a property -/

/-- The documents that have a property. -/
def docsWith {δ : Type} (P : δ → Prop) [DecidablePred P] (docs : SortedMap ℕ δ) : Finset ℕ :=
  ((docs.list.filter fun d => decide (P d.2)).map Prod.fst).toFinset

theorem mem_docsWith {δ : Type} {P : δ → Prop} [DecidablePred P] {docs : SortedMap ℕ δ} {id : ℕ} :
    id ∈ docsWith P docs ↔ ∃ doc, docs.find? id = some doc ∧ P doc := by
  simp only [docsWith, mem_toFinset, mem_map, mem_filter, decide_eq_true_eq, find?_eq_some_iff]
  constructor
  · rintro ⟨⟨id', doc⟩, ⟨hmem, hP⟩, rfl⟩
    exact ⟨doc, hmem, hP⟩
  · rintro ⟨doc, hmem, hP⟩
    exact ⟨(id, doc), ⟨hmem, hP⟩, rfl⟩

theorem sort_inj {s s' : Finset ℕ} : s.sort = s'.sort ↔ s = s' :=
  ⟨fun heq =>
    by rw [← Finset.sort_toFinset s (· ≤ ·), heq, Finset.sort_toFinset], fun heq => by rw [heq]⟩

section Postings

variable {p : IndexParams} {δ : Type} {tokenize : δ → Tokens} {idx : StringIndex}
    {docs : SortedMap ℕ δ}
  {k : Container}

/-- A document with a token. -/
def HasToken (tokenize : δ → Tokens) (token : Bytes) (doc : δ) : Prop :=
  ((tokenize doc).find? token).isSome = true

instance (token : Bytes) : DecidablePred (HasToken tokenize token) :=
  fun _ => instDecidableEqBool _ _

abbrev allDocs (docs : SortedMap ℕ δ) : Finset ℕ := docsWith (fun _ => True) docs

variable {P : δ → Prop}

theorem docsWith_subset [DecidablePred P] : docsWith P docs ⊆ allDocs docs := by
  intro id hid
  obtain ⟨doc, hfind, -⟩ := mem_docsWith.mp hid
  exact mem_docsWith.mpr ⟨doc, hfind, trivial⟩

/-- A map of postings has the documents under the keys that they are related to. -/
structure Holds (m : Postings) (docs : SortedMap ℕ δ) (R : Bytes → δ → Prop) : Prop where
  lookup : ∀ key id, (Inverted.lookup m key id).isSome = true ↔
    ∃ doc, docs.find? id = some doc ∧ R key doc
  noneEmpty : Inverted.NoneEmpty m

section

variable (h : StringIndex.Represents p idx fun id => (docs.find? id).map tokenize)
include h

theorem holds_entries : Holds idx.entries docs (HasToken tokenize) where
  lookup := by
    intro token id
    rw [h.entries]
    cases docs.find? id with
    | none => simp
    | some doc => simp [StringIndex.posting, HasToken]
  noneEmpty := h.entries_ne

theorem holds_trie {trie : Postings} (htrie : trie ∈ idx.suffixTrie) :
    Holds trie docs fun suffix doc => suffix ∈ allSuffixes (tokenize doc) where
  lookup := by
    intro suffix id
    rw [h.trie trie htrie]
    cases docs.find? id with
    | none => simp
    | some doc =>
      rw [Option.map_some, Option.bind_some, StringIndex.trieEntry]
      split <;> simp [*]
  noneEmpty := h.trie_ne trie htrie

end

/-! ## §3 Collecting -/

/-- Some posting lists have, together, the documents with a property. -/
structure Yields (matched : List (Option (SortedMap ℕ TermInfo))) (docs : SortedMap ℕ δ)
    (P : δ → Prop) : Prop where
  noneEmpty : ∀ c ∈ matched, c ≠ some .empty
  mem : ∀ id, (∃ c ∈ matched, ∃ postings ∈ c, (postings.find? id).isSome = true) ↔
    ∃ doc, docs.find? id = some doc ∧ P doc

variable {R : Bytes → δ → Prop} {m : Postings}

theorem Holds.yields_find (h : Holds m docs R) (key : Bytes) :
    Yields [m.find? key] docs (R key) where
  noneEmpty := forall_mem_singleton.mpr (h.noneEmpty key)
  mem := by
    intro id
    rw [← h.lookup, Inverted.lookup]
    cases m.find? key with
    | none => simp
    | some postings => simp

theorem Holds.yields_filter (h : Holds m docs R) (f : Bytes → Bool) :
    Yields ((m.list.filter fun e => f e.1).map fun e => some e.2) docs fun doc => ∃ key,
      f key = true ∧ R key doc where
  noneEmpty := by
    intro c hc
    obtain ⟨e, he, rfl⟩ := mem_map.mp hc
    have hfind : m.find? e.1 = some e.2 := find?_eq_some_iff.mpr (mem_filter.mp he).1
    exact hfind ▸ h.noneEmpty e.1
  mem := by
    intro id
    constructor
    · rintro ⟨c, hc, postings, hpostings, hid⟩
      obtain ⟨e, he, rfl⟩ := mem_map.mp hc
      cases hpostings
      obtain ⟨hmem, hf⟩ := mem_filter.mp he
      have hfind : m.find? e.1 = some e.2 := find?_eq_some_iff.mpr hmem
      have hlookup : (Inverted.lookup m e.1 id).isSome = true := by rwa [Inverted.lookup, hfind]
      obtain ⟨doc, hdoc, hR⟩ := (h.lookup e.1 id).mp hlookup
      exact ⟨doc, hdoc, e.1, hf, hR⟩
    · rintro ⟨doc, hdoc, key, hf, hR⟩
      have hlookup := (h.lookup key id).mpr ⟨doc, hdoc, hR⟩
      rw [Inverted.lookup] at hlookup
      cases hfind : m.find? key with
      | none =>
        rw [hfind] at hlookup
        cases hlookup
      | some postings =>
        rw [hfind] at hlookup
        have hmem := find?_eq_some_iff.mp hfind
        exact ⟨some postings, mem_map.mpr ⟨(key, postings), mem_filter.mpr ⟨hmem, hf⟩, rfl⟩,
          postings, rfl, hlookup⟩

theorem yields_nil (h : ∀ id doc, docs.find? id = some doc → ¬ P doc) : Yields [] docs P where
  noneEmpty := forall_mem_nil _
  mem := by
    intro id
    refine iff_of_false (fun ⟨c, hc, _⟩ => absurd hc not_mem_nil) ?_
    rintro ⟨doc, hdoc, hP⟩
    exact h id doc hdoc hP

variable {matched : List (Option (SortedMap ℕ TermInfo))}

theorem Yields.congr {Q : δ → Prop} (h : Yields matched docs P)
    (hPQ : ∀ id doc, docs.find? id = some doc → (P doc ↔ Q doc)) : Yields matched docs Q where
  noneEmpty := h.noneEmpty
  mem := fun id =>
    (h.mem id).trans (exists_congr fun doc => and_congr_right fun hdoc => hPQ id doc hdoc)

theorem ofPostings_wf {postings : Option (SortedMap ℕ TermInfo)} (h : postings ≠ some .empty) :
    (k.ofPostings postings).Wf ∧
      ∀ id, id ∈ (k.ofPostings postings).docs ↔
        ∃ found ∈ postings, (found.find? id).isSome = true := by
  cases postings with
  | none => exact ⟨List.Pairwise.nil, fun id => by simp [Container.ofPostings, IndexResult.docs]⟩
  | some found =>
    have hinv : BlockList.Inv (⟨1000, found.list.length, [found.list.map fst]⟩ : BlockList ℕ) := by
      refine ⟨?_, ?_, ?_⟩
      · intro block hblock hnil
        rw [mem_singleton.mp hblock, map_eq_nil_iff] at hnil
        exact h (congrArg some (list_eq_nil_iff.mp hnil))
      · change List.Pairwise (· < ·) ([found.list.map fst].flatten)
        rw [flatten_singleton, pairwise_map]
        exact found.sorted
      · change found.list.length = ([found.list.map fst].flatten).length
        simp
    have hmem : ∀ id, id ∈ ([found.list.map fst].flatten).toFinset ↔
        ∃ found' ∈ some found, (found'.find? id).isSome = true := by
      simp [Option.isSome_iff_exists, find?_eq_some_iff]
    cases k with
    | compressed => exact ⟨hinv, hmem⟩
    | sorted => exact ⟨hinv, hmem⟩

/-- The posting list of a token has the documents with the token. -/
theorem ofPostings_spec (h : StringIndex.Represents p idx fun id => (docs.find? id).map tokenize)
    (token : Bytes) :
    (k.ofPostings (idx.entries.find? token)).Wf ∧
      (k.ofPostings (idx.entries.find? token)).docs = docsWith (HasToken tokenize token) docs := by
  obtain ⟨hwf, hdocs⟩ := ofPostings_wf (k := k) (h.entries_ne token)
  refine ⟨hwf, Finset.ext fun id => ?_⟩
  rw [hdocs, mem_docsWith, ← ((holds_entries h).yields_find token).mem]
  simp

/-- **The union of posting lists.** -/
theorem collectMatches_spec [DecidablePred P] (h : Yields matched docs P)
    (hall : ∀ n ∈ allDocs docs, n < kInvalidDocId) :
    Mergeable (allDocs docs) (k.collectMatches matched) ∧
      (k.collectMatches matched).docs = docsWith P docs := by
  have hcontainer : ∀ r ∈ matched.map k.ofPostings, Mergeable (allDocs docs) r := by
    intro r hr
    obtain ⟨c, hc, rfl⟩ := mem_map.mp hr
    obtain ⟨hwf, hdocs⟩ := ofPostings_wf (k := k) (h.noneEmpty c hc)
    refine ⟨hwf, fun id hid => ?_⟩
    obtain ⟨doc, hdoc, -⟩ := (h.mem id).mp ⟨c, hc, (hdocs id).mp hid⟩
    exact mem_docsWith.mpr ⟨doc, hdoc, trivial⟩
  have hempty : Mergeable (allDocs docs) (.owned [] : IndexResult ℕ) :=
    ⟨List.Pairwise.nil, Finset.empty_subset _⟩
  have hfold : k.collectMatches matched = (matched.map k.ofPostings).foldl
      (fun current matched => .owned (mergeIndexResults matched current .or)) (.owned []) := by
    rw [Container.collectMatches, foldl_map]
  obtain ⟨hmerge, hdocs⟩ := foldl_merge_spec hall .or hcontainer hempty
  rw [hfold]
  refine ⟨hmerge, Finset.ext fun id => ?_⟩
  rw [hdocs, mem_foldl_apply, mem_docsWith, ← h.mem]
  constructor
  · rintro (hno | ⟨r, hr, hid⟩)
    · exact absurd hno (Finset.notMem_empty id)
    · obtain ⟨c, hc, rfl⟩ := mem_map.mp hr
      exact ⟨c, hc, ((ofPostings_wf (h.noneEmpty c hc)).2 id).mp hid⟩
  · rintro ⟨c, hc, hid⟩
    exact .inr ⟨_, mem_map_of_mem hc, ((ofPostings_wf (h.noneEmpty c hc)).2 id).mpr hid⟩

end Postings

end Drakeydb.Search
