import Drakeydb.Lib.Run
import Drakeydb.Search.SynonymSearch

/-!
# Updating synonym groups

`ShardDocIndex::RebuildForGroup` of `server/search/doc_index.cc`, with `Synonyms::UpdateGroup` and
`TextIndex::ResolveStemmer`. What is stored for a document depends on the synonym groups, and a
document is removed by what would be stored for it now. So an update first takes out the documents
that it finds by its terms, and puts them in again when the groups are changed. The order in which
the groups are visited may be another one after a group came; of two groups with a term in common
the first one counts.
-/

namespace Drakeydb.Search

open Lib List Function SortedMap StringIndex

/-! ## §1 Groups -/

namespace Synonyms

/-- How the groups are visited after one came. -/
structure Reorder where
  order : List (Bytes × List Bytes) → List (Bytes × List Bytes)
  perm : ∀ groups, (order groups).Perm groups

/-- The order does not change. -/
def Reorder.same : Reorder := ⟨id, fun _ => List.Perm.refl _⟩

/-- The terms of a group with more terms. -/
def insertTerms (cm : CaseMapping) (group terms : List Bytes) : List Bytes :=
  terms.foldl (fun group term => group.insert (cm.lower term)) group

variable {groups : List (Bytes × List Bytes)}

theorem nodup_map_update (h : (groups.map Prod.fst).Nodup) (id : Bytes)
    (f : List Bytes → List Bytes) :
    ((groups.map fun g => if g.1 = id then (g.1, f g.2) else g).map Prod.fst).Nodup := by
  have hkeys : ∀ g : Bytes × List Bytes, (if g.1 = id then (g.1, f g.2) else g).1 = g.1 := by
    intro g
    split <;> rfl
  rw [map_map]
  exact (map_congr_left fun g _ => hkeys g) ▸ h

theorem nodup_order (h : (groups.map Prod.fst).Nodup) (reorder : Reorder) {id : Bytes}
    (hid : id ∉ groups.map Prod.fst) (terms : List Bytes) :
    ((reorder.order (groups ++ [(id, terms)])).map Prod.fst).Nodup := by
  refine ((reorder.perm _).map Prod.fst).nodup_iff.mpr ?_
  rw [map_append]
  refine nodup_append.mpr ⟨h, nodup_singleton id, fun a ha b hb hab => hid ?_⟩
  rw [map_singleton, mem_singleton] at hb
  exact (hab.trans hb : a = id) ▸ ha

def updateGroup (cm : CaseMapping) (reorder : Reorder) (id : Bytes) (terms : List Bytes)
    (s : Synonyms) : Synonyms :=
  if h : id ∈ s.groups.map Prod.fst then
    ⟨s.groups.map fun g => if g.1 = id then (g.1, insertTerms cm g.2 terms)
      else g, nodup_map_update s.nodup id fun group => insertTerms cm group terms⟩
  else ⟨reorder.order (s.groups ++ [(id, insertTerms cm [] terms)]),
    nodup_order s.nodup reorder h _⟩

end Synonyms

/-! ## §2 Text fields -/

/-- The options of an index: `stem` stems a word in a language, if there is a stemmer for it. -/
structure TextOptions where
  cm : CaseMapping
  stopWords : List Bytes
  withOffsets : Bool
  language : Bytes
  languageField : Bool
  stem : Bytes → Bytes → Bytes
  known : Bytes → Bool

/-- The options of a field. -/
structure TextField where
  noStem : Bool
  withSuffix : Bool

/-- A document: the value of the language field, and the texts of each text field. -/
structure TextDoc (n : ℕ) where
  language : Option Bytes
  texts : Fin n → List Bytes

namespace TextOptions

variable (o : TextOptions)

/-- What the indices store. -/
def params : IndexParams := ⟨true, o.withOffsets⟩

/-- The stemmer of the index. -/
def defaultStemmer (f : TextField) : Option (Bytes → Bytes) := if f.noStem then none
    else some (o.stem o.language)

def resolveStemmer (f : TextField) (language : Option Bytes) : Option (Bytes → Bytes) :=
  if f.noStem || !o.languageField then o.defaultStemmer f
  else
    match language with
    | none => o.defaultStemmer f
    | some lang =>
      if o.known (lang.map asciiLower) then some (o.stem (lang.map asciiLower))
      else o.defaultStemmer f

/-- What looks up terms. -/
def queryTokenizer (f : TextField) : Tokenizer := ⟨o.cm, o.stopWords, o.defaultStemmer f⟩

/-- The tokens of a document in a field. -/
def docTokens {n : ℕ} (fields : Fin n → TextField) (synonyms : Synonyms) (i : Fin n)
    (doc : TextDoc n) : Tokens :=
  Tokenizer.tokenize ⟨o.cm, o.stopWords, o.resolveStemmer (fields i) doc.language⟩ synonyms
    (doc.texts i)

end TextOptions

/-! ## §3 Updates -/

/-- The text indices of a shard, the documents in them and the synonym groups. -/
structure TextIndices (n : ℕ) where
  indices : Fin n → StringIndex
  docs : SortedMap ℕ (TextDoc n)
  synonyms : Synonyms

/-- What happens to them. -/
inductive SynOp (n : ℕ) where
  | add (id : ℕ) (doc : TextDoc n)
  | remove (id : ℕ)
  | synUpdate (reorder : Synonyms.Reorder) (group : Bytes) (terms : List Bytes)

namespace TextIndices

variable (o : TextOptions) {n : ℕ} (fields : Fin n → TextField)

def new : TextIndices n := ⟨fun i => .new (fields i).withSuffix, .empty, .none⟩

/-- The documents that some terms are looked up in. -/
def docsToRebuild (terms : List Bytes) (s : TextIndices n) : List ℕ :=
  (List.finRange n).flatMap fun i => terms.flatMap fun term =>
    ((s.indices i).matching (o.queryTokenizer (fields i)) term true).elim [] fun postings =>
      postings.list.map Prod.fst

/-- Documents taken out of an index, with what is stored for them now. -/
def removeAll (synonyms : Synonyms) (i : Fin n) (docs : SortedMap ℕ (TextDoc n))
    (idx : StringIndex) : StringIndex :=
  docs.list.foldl (fun idx d => idx.remove o.params d.1 (o.docTokens fields synonyms i d.2)) idx

def addAll (synonyms : Synonyms) (i : Fin n) (docs : SortedMap ℕ (TextDoc n)) (idx : StringIndex) :
    StringIndex :=
  docs.list.foldl (fun idx d => idx.add o.params d.1 (o.docTokens fields synonyms i d.2)) idx

def rebuildForGroup (reorder : Synonyms.Reorder) (group : Bytes) (terms : List Bytes)
    (s : TextIndices n) :
    TextIndices n :=
  let selected := s.docs.filterKeys fun id => decide (id ∈ s.docsToRebuild o fields terms)
  let synonyms := s.synonyms.updateGroup o.cm reorder group terms
  { s with
    synonyms := synonyms
    indices := fun i =>
      addAll o fields synonyms i selected (removeAll o fields s.synonyms i selected (s.indices i)) }

section

variable (s : TextIndices n)

def apply : SynOp n → TextIndices n
  | .add id doc =>
    match s.docs.find? id with
    | some _ => s
    | none =>
      { s with
        indices := fun i => (s.indices i).add o.params id (o.docTokens fields s.synonyms i doc)
        docs := s.docs.alter id fun _ => some doc }
  | .remove id =>
    match s.docs.find? id with
    | none => s
    | some doc =>
      { s with
        indices := fun i => (s.indices i).remove o.params id (o.docTokens fields s.synonyms i doc)
        docs := s.docs.alter id fun _ => none }
  | .synUpdate reorder group terms => s.rebuildForGroup o fields reorder group terms

/-- The index of a field, if the documents were added now. -/
def fresh (i : Fin n) : StringIndex :=
  addAll o fields s.synonyms i s.docs (.new (fields i).withSuffix)

/-- All is as if the documents had been added with the groups there are now. -/
def UpToDate : Prop :=
  ∀ i, StringIndex.SameContents (s.indices i) (s.fresh o fields i)

/-- A step that finds all that it changes: if something else is to be stored about a document in
some field, one of the terms of the update is looked up in it. -/
def FindsAll : SynOp n → Prop
  | .synUpdate reorder group terms =>
    ∀ d ∈ s.docs.list,
      (∃ i, StringIndex.storedTokens o.params (o.docTokens fields s.synonyms i d.2) ≠
        StringIndex.storedTokens o.params
          (o.docTokens fields (s.synonyms.updateGroup o.cm reorder group terms) i d.2)) →
      ∃ i, ∃ term ∈ terms, HasToken (o.docTokens fields s.synonyms i)
        ((o.queryTokenizer (fields i)).normalizeForExactQuery (stripAsciiWhitespace term)) d.2
  | _ => True

/-! ## §4 One step -/

/-- The indices have the documents with what is to be stored for them. -/
def Represented : Prop :=
  ∀ i, StringIndex.Represents o.params (s.indices i) fun id =>
    (s.docs.find? id).map (o.docTokens fields s.synonyms i)

/-- Each index has a trie if it should. -/
def TriesOk : Prop :=
  ∀ i, (s.indices i).suffixTrie.isSome = (fields i).withSuffix

end

section All

variable {o} (synonyms : Synonyms) (i : Fin n) (docs : SortedMap ℕ (TextDoc n)) {idx : StringIndex}
  {old : ℕ → Option Tokens}

section

variable (h : StringIndex.Represents o.params idx old)
include h

theorem represents_addAll (hnew : ∀ id, (docs.find? id).isSome = true → old id = none) :
    StringIndex.Represents o.params (addAll o fields synonyms i docs idx)
      fun id => ((docs.find? id).map (o.docTokens fields synonyms i)).or (old id) := by
  have hfold :=
    h.foldl_change (f := fun idx d => idx.add o.params d.1 (o.docTokens fields synonyms i d.2))
    (u := fun _ => none) (v := fun doc => some (o.docTokens fields synonyms i doc))
    (fun _ _ _ h hid => h.add hid _) docs.nodup_keys fun d hd =>
      hnew d.1 (Option.isSome_iff_exists.mpr ⟨d.2, find?_eq_some_iff.mpr hd⟩)
  refine (congrArg (StringIndex.Represents o.params _) (funext fun id => ?_)).mp hfold
  rw [← SortedMap.find?]
  cases docs.find? id <;> rfl

theorem represents_removeAll
    (hold : ∀ id doc, docs.find? id = some doc →
      old id = some (o.docTokens fields synonyms i doc)) :
    StringIndex.Represents o.params (removeAll o fields synonyms i docs idx)
      fun id => if (docs.find? id).isSome then none else old id := by
  have hfold :=
    h.foldl_change (f := fun idx d => idx.remove o.params d.1 (o.docTokens fields synonyms i d.2))
    (u := fun doc => some (o.docTokens fields synonyms i doc)) (v := fun _ => none)
    (fun _ _ _ h hid => h.remove hid) docs.nodup_keys fun d hd =>
      hold d.1 d.2 (find?_eq_some_iff.mpr hd)
  refine (congrArg (StringIndex.Represents o.params _) (funext fun id => ?_)).mp hfold
  rw [← SortedMap.find?]
  cases docs.find? id <;> rfl

end

end All

variable {o fields} {s : TextIndices n} {i : Fin n} {synonyms : Synonyms} {idx : StringIndex}
  {docs : SortedMap ℕ (TextDoc n)}

theorem represents_fresh (s : TextIndices n) (i : Fin n) :
    StringIndex.Represents o.params (s.fresh o fields i)
      fun id => (s.docs.find? id).map (o.docTokens fields s.synonyms i) := by
  have hadd := represents_addAll fields s.synonyms i s.docs
    (represents_new o.params (fields i).withSuffix) fun _ _ => rfl
  simp only [Option.or_none] at hadd
  exact hadd

/-! ### Tries -/

theorem isSome_addAll :
    (addAll o fields synonyms i docs idx).suffixTrie.isSome = idx.suffixTrie.isSome :=
  foldlRecOn (motive := fun idx' : StringIndex => idx'.suffixTrie.isSome = idx.suffixTrie.isSome)
    docs.list _ rfl fun idx' h d _ => by rw [isSome_add, h]

theorem isSome_removeAll :
    (removeAll o fields synonyms i docs idx).suffixTrie.isSome = idx.suffixTrie.isSome :=
  foldlRecOn (motive := fun idx' : StringIndex => idx'.suffixTrie.isSome = idx.suffixTrie.isSome)
    docs.list _ rfl fun idx' h d _ => by rw [isSome_remove, h]

theorem triesOk_apply (h : s.TriesOk fields) (op : SynOp n) :
    (s.apply o fields op).TriesOk fields := by
  intro i
  cases op with
  | add id doc =>
    rw [apply]
    split
    · exact h i
    · exact (isSome_add _ _).trans (h i)
  | remove id =>
    rw [apply]
    split
    · exact h i
    · exact (isSome_remove _ _).trans (h i)
  | synUpdate reorder group terms => exact isSome_addAll.trans (isSome_removeAll.trans (h i))

theorem isSome_fresh : (s.fresh o fields i).suffixTrie.isSome = (fields i).withSuffix := by
  rw [fresh, isSome_addAll, StringIndex.new]
  cases (fields i).withSuffix <;> rfl

/-- To be up to date is to have the documents with what is to be stored for them. -/
theorem upToDate_iff (h : s.TriesOk fields) : s.UpToDate o fields ↔ s.Represented o fields :=
  forall_congr' fun i => sameContents_iff (represents_fresh s i) ((h i).trans isSome_fresh.symm)

/-! ### Additions and removals -/

theorem map_find?_alter (docs : SortedMap ℕ (TextDoc n)) (f : TextDoc n → Tokens) (id : ℕ)
    (doc : Option (TextDoc n)) :
    (fun id' => ((docs.alter id fun _ => doc).find? id').map f) =
      Function.update (fun id' => (docs.find? id').map f) id (doc.map f) := by
  funext id'
  rw [find?_alter, update_apply]
  split <;> rfl

section

variable (h : s.Represented o fields)
include h

theorem represented_add (id : ℕ) (doc : TextDoc n) :
    (s.apply o fields (.add id doc)).Represented o fields := by
  intro i
  rw [apply]
  cases hfind : s.docs.find? id with
  | some _ => exact h i
  | none =>
    rw [map_find?_alter]
    exact (h i).add (by rw [hfind]; rfl) _

theorem represented_remove (id : ℕ) : (s.apply o fields (.remove id)).Represented o fields := by
  intro i
  rw [apply]
  cases hfind : s.docs.find? id with
  | none => exact h i
  | some doc =>
    rw [map_find?_alter]
    exact (h i).remove (by rw [hfind]; rfl)

/-! ### Updates -/

theorem mem_docsToRebuild {terms : List Bytes} {id : ℕ} {doc : TextDoc n}
    (hdoc : s.docs.find? id = some doc) :
    id ∈ s.docsToRebuild o fields terms ↔
      ∃ i, ∃ term ∈ terms, HasToken (o.docTokens fields s.synonyms i)
        ((o.queryTokenizer (fields i)).normalizeForExactQuery (stripAsciiWhitespace term)) doc := by
  have hlookup : ∀ i token,
    (∃ postings ∈ (s.indices i).entries.find? token, id ∈ postings.list.map Prod.fst) ↔
      HasToken (o.docTokens fields s.synonyms i) token doc := by
    intro i token
    have hfound := (holds_entries (h i)).lookup token id
    simp only [hdoc, Option.some.injEq, exists_eq_left'] at hfound
    rw [← hfound, Inverted.lookup]
    cases (s.indices i).entries.find? token with
    | none => simp
    | some postings => simp [Option.isSome_iff_exists, find?_eq_some_iff]
  simp only [docsToRebuild, mem_flatMap, mem_finRange, true_and]
  refine exists_congr fun i => exists_congr fun term => and_congr_right fun _ => ?_
  rw [matching, if_pos rfl, ← hlookup]
  cases (s.indices i).entries.find? _ with
  | none => simp
  | some postings => simp

variable (reorder : Synonyms.Reorder) (group : Bytes) (terms : List Bytes)

/-- After an update an index has what was looked up as it is to be stored now, and all else as
before. -/
theorem represents_rebuildForGroup (i : Fin n) :
    StringIndex.Represents o.params
      ((s.rebuildForGroup o fields reorder group terms).indices i) fun id =>
      (s.docs.find? id).map fun doc =>
        if id ∈ s.docsToRebuild o fields terms
        then o.docTokens fields (s.synonyms.updateGroup o.cm reorder group terms) i doc
        else o.docTokens fields s.synonyms i doc := by
  have hremove := represents_removeAll fields s.synonyms i
    (s.docs.filterKeys fun id => decide (id ∈ s.docsToRebuild o fields terms)) (h i) (by
      intro id doc hdoc
      rw [find?_filterKeys] at hdoc
      split at hdoc
      · rw [hdoc]
        rfl
      · cases hdoc)
  have hadd := represents_addAll fields (s.synonyms.updateGroup o.cm reorder group terms) i
    (s.docs.filterKeys fun id => decide (id ∈ s.docsToRebuild o fields terms)) hremove
    fun id hid => if_pos hid
  refine (congrArg (StringIndex.Represents o.params _) (funext fun id => ?_)).mp hadd
  rw [find?_filterKeys]
  by_cases hmem : id ∈ s.docsToRebuild o fields terms
  · simp only [hmem, decide_true, if_true]
    cases s.docs.find? id <;> rfl
  · simp [hmem]

/-- **One update** leaves all up to date if and only if it finds all that it changes. -/
theorem rebuildForGroup_represented_iff :
    (s.rebuildForGroup o fields reorder group terms).Represented o fields ↔
      s.FindsAll o fields (.synUpdate reorder group terms) := by
  constructor
  · intro hafter d hd hdiff
    by_contra hnot
    have hdoc : s.docs.find? d.1 = some d.2 := find?_eq_some_iff.mpr hd
    rw [← mem_docsToRebuild h hdoc] at hnot
    obtain ⟨i, hdiff⟩ := hdiff
    -- the index still has the document as before
    refine hdiff (storedTokens_eq_iff.mpr fun token => ?_)
    have hbefore := (represents_rebuildForGroup h reorder group terms i).entries token d.1
    have hnow := (hafter i).entries token d.1
    have hdoc' : (s.rebuildForGroup o fields reorder group terms).docs.find? d.1 = some d.2 := hdoc
    rw [hdoc', hbefore, hdoc, Option.map_some, Option.map_some, Option.bind_some, Option.bind_some,
      if_neg hnot] at hnow
    exact hnow
  · intro hfinds i
    refine (represents_rebuildForGroup h reorder group terms i).congr rfl fun id => ?_
    change _ = ((s.docs.find? id).map _).map _
    cases hdoc : s.docs.find? id with
    | none => rfl
    | some doc =>
      rw [Option.map_some, Option.map_some, Option.map_some, Option.map_some]
      refine congrArg some ?_
      by_cases hmem : id ∈ s.docsToRebuild o fields terms
      · rw [if_pos hmem]
        rfl
      · rw [if_neg hmem]
        by_contra hdiff
        exact hmem ((mem_docsToRebuild h hdoc).mpr
          (hfinds (id, doc) (find?_eq_some_iff.mp hdoc) ⟨i, hdiff⟩))

end

/-! ## §5 Runs -/

theorem apply_upToDate_iff (s : TextIndices n) (op : SynOp n)
    (h : s.TriesOk fields ∧ s.UpToDate o fields) :
    ((s.apply o fields op).TriesOk fields ∧ (s.apply o fields op).UpToDate o fields) ↔
      s.FindsAll o fields op := by
  have htries := triesOk_apply (o := o) h.1 op
  have hrep := (upToDate_iff h.1).mp h.2
  rw [and_iff_right htries, upToDate_iff htries]
  cases op with
  | add id doc => exact iff_of_true (represented_add hrep id doc) trivial
  | remove id => exact iff_of_true (represented_remove hrep id) trivial
  | synUpdate reorder group terms => exact rebuildForGroup_represented_iff hrep reorder group terms

theorem triesOk_new : (new fields).TriesOk fields := by
  intro i
  change (StringIndex.new (fields i).withSuffix).suffixTrie.isSome = _
  cases (fields i).withSuffix <;> rfl

theorem upToDate_new : (new fields).UpToDate o fields :=
  (upToDate_iff triesOk_new).mpr fun i => represents_new o.params (fields i).withSuffix

/-- **Synonym updates leave no stale entries** in a run of additions, removals and updates if and
only if every update finds all documents that it changes. -/
theorem upToDate_everywhere_iff (o : TextOptions) (fields : Fin n → TextField)
    (ops : List (SynOp n)) :
    (∀ before, before <+: ops → (before.foldl (apply o fields) (new fields)).UpToDate o fields) ↔
      RunAll (fun s op => some (apply o fields s op)) (FindsAll o fields) (new fields) ops := by
  rw [← inv_everywhere_iff apply_upToDate_iff ⟨triesOk_new, upToDate_new⟩]
  refine forall_congr' fun before => imp_congr_right fun _ => (and_iff_right ?_).symm
  exact foldlRecOn (motive := fun s : TextIndices n => s.TriesOk fields) before _ triesOk_new
    fun s h op _ => triesOk_apply h op

/-- Stems are first letters, but in the language `x` words are their own stems. -/
def twoLanguages : TextOptions where
  cm := asciiCase
  stopWords := []
  withOffsets := true
  language := []
  languageField := true
  stem := fun lang word => if lang = [120] then word else word.take 1
  known := fun lang => decide (lang = [120])

def oneField : Fin 1 → TextField := fun _ => ⟨false, false⟩

/-- A document in the language `x` with the word `run`, which then comes into the group `g`. -/
def groupForRun : List (SynOp 1) :=
  [.add 1 ⟨some [120], fun _ => [[114, 117, 110]]⟩, .synUpdate .same [103] [[114, 117, 110]]]

/-- The update looks for `r`, and the document is not stored under the marker of the group. -/
theorem stale_after_synUpdate :
    ¬ (groupForRun.foldl (apply twoLanguages oneField) (new oneField)).UpToDate twoLanguages
      oneField := by
  intro h
  have hmarker := congrArg (fun e => Inverted.lookup e [32, 103] 1) (h 0).entries
  revert hmarker
  decide +kernel

end TextIndices

end Drakeydb.Search
