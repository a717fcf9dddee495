import Mathlib.Algebra.Ring.Nat
import Drakeydb.Search.Text

/-!
# Indices of words

`BaseStringIndex` of `core/search/indices.{h,cc}`, below text and tag indices: the postings of each
token, the optional trie of all suffixes of tokens, and the lengths of the documents. Posting lists
are modelled without their cuts into blocks. A document is added and removed with the tokens that it
has at that time.
-/

namespace Drakeydb.Search

open Lib List Function SortedMap

/-- What an index stores: text indices keep frequencies and lengths, and positions if they have
offsets. -/
structure IndexParams where
  scored : Bool
  withOffsets : Bool

/-- What is stored about a document under a token. -/
def IndexParams.store (p : IndexParams) (info : TermInfo) : TermInfo :=
  ⟨if p.scored then info.freq else 1, if p.scored && p.withOffsets then info.positions else []⟩

/-- The postings of tokens. -/
abbrev Postings := Inverted Bytes ℕ TermInfo

/-- `BaseStringIndex`. -/
structure StringIndex where
  entries : Postings
  suffixTrie : Option Postings
  docLengths : List ℕ
  totalDocsLen : ℕ
  numDocs : ℕ

/-- The suffixes of a word that are not empty. -/
def suffixes (word : Bytes) : List Bytes := (List.range word.length).map word.drop

/-- `IterateAllSuffixes`. -/
def allSuffixes (tokens : Tokens) : List Bytes := (tokens.list.map Prod.fst).flatMap suffixes

/-- The number of tokens of a document, with repetitions. -/
def totalFreq (tokens : Tokens) : ℕ := (tokens.list.map fun t => t.2.freq).sum

/-- What the trie says about a document. -/
def inTrie : TermInfo := ⟨1, []⟩

namespace StringIndex

variable (p : IndexParams)

def new (withSuffix : Bool) : StringIndex :=
  ⟨.empty, if withSuffix then some .empty else none, [], 0, 0⟩

/-- The lengths with room for a document. -/
def growTo (lengths : List ℕ) (id : ℕ) : List ℕ :=
  lengths ++ List.replicate (id + 1 - lengths.length) 0

def getFieldDocLength (idx : StringIndex) (id : ℕ) : ℕ := idx.docLengths.getD id 0

/-- `Add`: the lengths. -/
def addLength (id len : ℕ) (idx : StringIndex) : StringIndex :=
  if p.scored && decide (0 < len) then
    let lengths := growTo idx.docLengths id
    { idx with
      numDocs := if lengths.getD id 0 = 0 then idx.numDocs + 1 else idx.numDocs
      docLengths := lengths.set id len
      totalDocsLen := idx.totalDocsLen + len }
  else idx

/-- `Add`, for a document with the given tokens. -/
def add (id : ℕ) (tokens : Tokens) (idx : StringIndex) : StringIndex :=
  let idx := idx.addLength p id (totalFreq tokens)
  { idx with
    entries := tokens.list.foldl (fun e t => Inverted.insert id t.1 (p.store t.2) e) idx.entries
    suffixTrie := idx.suffixTrie.map fun trie =>
      (allSuffixes tokens).foldl (fun e s => Inverted.insert id s inTrie e) trie }

/-- `Remove`: the lengths. -/
def removeLength (id : ℕ) (idx : StringIndex) : StringIndex :=
  if p.scored && decide (0 < idx.docLengths.getD id 0) then
    { idx with
      totalDocsLen := idx.totalDocsLen - idx.docLengths.getD id 0
      docLengths := idx.docLengths.set id 0
      numDocs := idx.numDocs - 1 }
  else idx

/-- `Remove`, for a document that has the given tokens now. -/
def remove (id : ℕ) (tokens : Tokens) (idx : StringIndex) : StringIndex :=
  let idx := idx.removeLength p id
  { idx with
    entries := (tokens.list.map Prod.fst).foldl (fun e t => Inverted.remove id t e) idx.entries
    suffixTrie := idx.suffixTrie.map fun trie =>
      (allSuffixes tokens).foldl (fun e s => Inverted.remove id s e) trie }

/-! ## §1 The index of some documents -/

/-- What a document contributes to the postings of a token. -/
def posting (token : Bytes) (tokens : Tokens) : Option TermInfo := (tokens.find? token).map p.store

/-- What a document contributes to a suffix. -/
def trieEntry (suffix : Bytes) (tokens : Tokens) : Option TermInfo :=
  if suffix ∈ allSuffixes tokens then some inTrie else none

def docLength (tokens : Option Tokens) : ℕ := if p.scored then tokens.elim 0 totalFreq else 0

/-- The index holds the documents that have tokens. -/
structure Represents (idx : StringIndex) (docs : ℕ → Option Tokens) : Prop where
  entries : ∀ token id, Inverted.lookup idx.entries token id = (docs id).bind (posting p token)
  entries_ne : Inverted.NoneEmpty idx.entries
  trie : ∀ trie ∈ idx.suffixTrie, ∀ suffix id, Inverted.lookup trie suffix id =
    (docs id).bind (trieEntry suffix)
  trie_ne : ∀ trie ∈ idx.suffixTrie, Inverted.NoneEmpty trie
  lengths : ∀ id, idx.getFieldDocLength id = docLength p (docs id)

theorem represents_new (withSuffix : Bool) : Represents p (new withSuffix) fun _ => none where
  entries := fun _ _ => rfl
  entries_ne := Inverted.noneEmpty_empty
  trie := by
    rintro trie htrie
    cases withSuffix <;> cases htrie
    exact fun _ _ => rfl
  trie_ne := by
    rintro trie htrie
    cases withSuffix <;> cases htrie
    exact Inverted.noneEmpty_empty
  lengths := by
    intro id
    exact (ite_self 0).symm

variable {p} {idx idx' : StringIndex} {docs : ℕ → Option Tokens}

/-- **The documents determine the index**: its postings, its trie and the lengths. -/
theorem Represents.unique (h : Represents p idx docs) (h' : Represents p idx' docs) :
    idx.entries = idx'.entries ∧
      (∀ trie ∈ idx.suffixTrie, ∀ trie' ∈ idx'.suffixTrie, trie = trie') ∧
      ∀ id, idx.getFieldDocLength id = idx'.getFieldDocLength id := by
  refine ⟨?_, fun trie htrie trie' htrie' => ?_, fun id => ?_⟩
  · apply Inverted.ext_lookup h.entries_ne h'.entries_ne
    intro token id
    rw [h.entries, h'.entries]
  · apply Inverted.ext_lookup (h.trie_ne trie htrie) (h'.trie_ne trie' htrie')
    intro suffix id
    rw [h.trie trie htrie, h'.trie trie' htrie']
  · rw [h.lengths, h'.lengths]

/-! ## §2 Adding a document -/

theorem getD_growTo (lengths : List ℕ) (id i : ℕ) :
    (growTo lengths id).getD i 0 = lengths.getD i 0 := by
  rw [growTo, getD_eq_getElem?_getD, getD_eq_getElem?_getD, getElem?_append]
  split
  case isTrue => rfl
  case isFalse hge =>
    rw [getElem?_eq_none (Nat.le_of_not_lt hge), getElem?_replicate]
    split
    case isTrue => rfl
    case isFalse => rfl

theorem getD_set_length {lengths : List ℕ} {id : ℕ} (hid : id < lengths.length) (len i : ℕ) :
    (lengths.set id len).getD i 0 = if i = id then len else lengths.getD i 0 := by
  rw [getD_eq_getElem?_getD, getD_eq_getElem?_getD, getElem?_set]
  by_cases heq : id = i
  · simp [if_pos heq, if_pos heq.symm, if_pos hid]
  · rw [if_neg heq, if_neg (Ne.symm heq)]

theorem getFieldDocLength_addLength (h : Represents p idx docs) {id : ℕ} (hid : docs id = none)
    (len i : ℕ) :
    (idx.addLength p id len).getFieldDocLength i =
      if i = id then (if p.scored then len else 0) else idx.getFieldDocLength i := by
  have hzero : idx.getFieldDocLength id = 0 := by
    rw [h.lengths, hid, docLength]
    exact ite_self 0
  rw [addLength]
  split
  case isTrue hadd =>
    rw [Bool.and_eq_true, decide_eq_true_eq] at hadd
    have hlt : id < (growTo idx.docLengths id).length := by
      rw [growTo, length_append, length_replicate]
      omega
    change ((growTo idx.docLengths id).set id len).getD i 0 = _
    rw [getD_set_length hlt, getD_growTo, hadd.1]
    rfl
  case isFalse hno =>
    split
    case isTrue heq =>
      rw [heq, hzero]
      cases hscored : p.scored with
      | false => rfl
      | true =>
        rw [hscored] at hno
        have hlen : len = 0 := by simpa using hno
        rw [hlen]
        rfl
    case isFalse => rfl

@[simp] theorem addLength_entries (id len : ℕ) :
    (idx.addLength p id len).entries = idx.entries := by
  rw [addLength]
  split <;> rfl

@[simp] theorem addLength_suffixTrie (id len : ℕ) :
    (idx.addLength p id len).suffixTrie = idx.suffixTrie := by
  rw [addLength]
  split <;> rfl

theorem update_bind {γ : Type} (id : ℕ) (tokens : Option Tokens) (f : Tokens → Option γ) (i : ℕ) :
    (update docs id tokens i).bind f = if i = id then tokens.bind f else (docs i).bind f := by
  rw [update_apply]
  split <;> rfl

/-- **Adding a document** that is not there. -/
theorem Represents.add (h : Represents p idx docs) {id : ℕ} (hid : docs id = none)
    (tokens : Tokens) :
    Represents p (idx.add p id tokens) (Function.update docs id (some tokens)) := by
  have hentries : (idx.add p id tokens).entries =
      (tokens.list.map fun t => (t.1, p.store t.2)).foldl
        (fun e t => Inverted.insert id t.1 t.2 e) idx.entries := by
    simp only [StringIndex.add, addLength_entries, foldl_map]
  have htrie : ∀ trie' ∈ (idx.add p id tokens).suffixTrie, ∃ trie ∈ idx.suffixTrie, trie' =
      ((allSuffixes tokens).map fun s => (s, inTrie)).foldl
        (fun e t => Inverted.insert id t.1 t.2 e) trie := by
    intro trie' htrie'
    obtain ⟨trie, htrie, rfl⟩ := Option.map_eq_some_iff.mp htrie'
    rw [addLength_suffixTrie] at htrie
    refine ⟨trie, htrie, ?_⟩
    rw [foldl_map]
  refine ⟨fun token i => ?_, ?_, fun trie' htrie' suffix i => ?_, fun trie' htrie' => ?_,
    fun i => ?_⟩
  · have hnew : Inverted.lookup idx.entries token id = none := by
      rw [h.entries, hid, Option.bind_none]
    rw [hentries, Inverted.lookup_foldl_insert id _ token i hnew, assoc_map, h.entries, update_bind]
    rfl
  · rw [hentries]
    exact Inverted.noneEmpty_foldl_insert h.entries_ne id _
  · obtain ⟨trie, htrie, rfl⟩ := htrie trie' htrie'
    have hnew : Inverted.lookup trie suffix id = none := by
      rw [h.trie trie htrie, hid, Option.bind_none]
    rw [Inverted.lookup_foldl_insert id _ suffix i hnew, assoc_const, h.trie trie htrie,
      update_bind]
    rfl
  · obtain ⟨trie, htrie, rfl⟩ := htrie trie' htrie'
    exact Inverted.noneEmpty_foldl_insert (h.trie_ne trie htrie) id _
  · change (idx.addLength p id (totalFreq tokens)).getFieldDocLength i = _
    rw [getFieldDocLength_addLength h hid, update_apply, h.lengths]
    split <;> rfl

/-! ## §3 Removing a document -/

@[simp] theorem removeLength_entries (id : ℕ) : (idx.removeLength p id).entries = idx.entries := by
  rw [removeLength]
  split <;> rfl

@[simp] theorem removeLength_suffixTrie (id : ℕ) :
    (idx.removeLength p id).suffixTrie = idx.suffixTrie := by
  rw [removeLength]
  split <;> rfl

theorem getFieldDocLength_removeLength (h : Represents p idx docs) (id i : ℕ) :
    (idx.removeLength p id).getFieldDocLength i = if i = id then 0
      else idx.getFieldDocLength i := by
  rw [removeLength]
  split
  case isTrue hremove =>
    rw [Bool.and_eq_true, decide_eq_true_eq] at hremove
    have hlt : id < idx.docLengths.length := by
      by_contra hge
      rw [getD_eq_getElem?_getD, getElem?_eq_none (Nat.le_of_not_lt hge)] at hremove
      exact Nat.lt_irrefl 0 hremove.2
    exact getD_set_length hlt 0 i
  case isFalse hno =>
    split
    case isTrue heq =>
      subst heq
      cases hscored : p.scored with
      | false => rw [h.lengths, docLength, hscored]; rfl
      | true =>
        rw [hscored] at hno
        simpa [getFieldDocLength] using hno
    case isFalse => rfl

variable {tokens : Tokens}

theorem posting_eq_none_of_not_mem {token : Bytes}
    (h : token ∉ tokens.list.map Prod.fst) : posting p token tokens = none := by
  rw [posting, Option.map_eq_none_iff, find?_eq_none_iff]
  exact fun v hv => h (mem_map_of_mem hv)

/-- **Removing a document** with the tokens that it was added with. -/
theorem Represents.remove (h : Represents p idx docs) {id : ℕ} (hid : docs id = some tokens) :
    Represents p (idx.remove p id tokens) (Function.update docs id none) := by
  -- of a document that is gone, the other tokens had nothing
  have hgone {γ : Type} (f : Tokens → Option γ) (i : ℕ) {P : Prop} {_ : Decidable P} (hf : ¬P →
    f tokens = none) :
      (if i = id ∧ P then none else (docs i).bind f) = (update docs id none i).bind f := by
    rw [update_bind, ite_and]
    split
    case isTrue hi =>
      rw [hi, hid]
      split
      · rfl
      · exact hf ‹_›
    case isFalse => rfl
  have hentries : (idx.remove p id tokens).entries =
      (tokens.list.map Prod.fst).foldl (fun e t => Inverted.remove id t e) idx.entries := by
    simp [StringIndex.remove]
  have htrie : ∀ trie' ∈ (idx.remove p id tokens).suffixTrie, ∃ trie ∈ idx.suffixTrie, trie' =
      (allSuffixes tokens).foldl (fun e s => Inverted.remove id s e) trie := by
    intro trie' htrie'
    obtain ⟨trie, htrie, rfl⟩ := Option.map_eq_some_iff.mp htrie'
    rw [removeLength_suffixTrie] at htrie
    exact ⟨trie, htrie, rfl⟩
  refine ⟨fun token i => ?_, ?_, fun trie' htrie' suffix i => ?_, fun trie' htrie' => ?_,
    fun i => ?_⟩
  · rw [hentries, Inverted.lookup_foldl_remove, h.entries]
    exact hgone _ i posting_eq_none_of_not_mem
  · rw [hentries]
    exact Inverted.noneEmpty_foldl_remove h.entries_ne id _
  · obtain ⟨trie, htrie, rfl⟩ := htrie trie' htrie'
    rw [Inverted.lookup_foldl_remove, h.trie trie htrie]
    exact hgone _ i fun hnot => if_neg hnot
  · obtain ⟨trie, htrie, rfl⟩ := htrie trie' htrie'
    exact Inverted.noneEmpty_foldl_remove (h.trie_ne trie htrie) id _
  · change (idx.removeLength p id).getFieldDocLength i = _
    rw [getFieldDocLength_removeLength h, update_apply, h.lengths]
    split
    case isTrue => rw [docLength]; exact (ite_self 0).symm
    case isFalse => rfl

theorem isSome_add (id : ℕ) (tokens : Tokens) :
    (idx.add p id tokens).suffixTrie.isSome = idx.suffixTrie.isSome := by
  simp [StringIndex.add]

theorem isSome_remove (id : ℕ) (tokens : Tokens) :
    (idx.remove p id tokens).suffixTrie.isSome = idx.suffixTrie.isSome := by
  simp [StringIndex.remove]

/-! ## §4 Many documents -/

/-- Documents are added or removed one after another, where `f` takes one from the tokens `u` to the
tokens `v`. -/
theorem Represents.foldl_change {δ : Type} {f : StringIndex → ℕ × δ → StringIndex}
    {u v : δ → Option Tokens}
    (hf : ∀ idx docs d, Represents p idx docs → docs d.1 = u d.2 →
      Represents p (f idx d) (update docs d.1 (v d.2)))
    {l : List (ℕ × δ)} (h : Represents p idx docs) (hnodup : (l.map Prod.fst).Nodup)
    (hold : ∀ d ∈ l, docs d.1 = u d.2) : Represents p (l.foldl f idx) fun id => (assoc l id).elim
    (docs id) v := by
  induction l generalizing idx docs with
  | nil => exact h
  | cons d l ih =>
    rw [map_cons, nodup_cons] at hnodup
    rw [forall_mem_cons] at hold
    have hne : ∀ d' ∈ l, d'.1 ≠ d.1 := fun d' hd' heq => hnodup.1 (heq ▸ mem_map_of_mem hd')
    have hrest := ih (hf idx docs d h hold.1) hnodup.2 fun d' hd' => by
      rw [update_of_ne (hne d' hd')]
      exact hold.2 d' hd'
    refine (congrArg (Represents p _) (funext fun id => ?_)).mp hrest
    rw [assoc_cons, update_apply]
    by_cases heq : d.1 = id
    · rw [if_pos heq, if_pos heq.symm, assoc_eq_none (heq ▸ hne)]
      rfl
    · rw [if_neg heq, if_neg (Ne.symm heq)]

/-! ## §5 What is stored about a document -/

variable (p) in
/-- What an index stores about a document. -/
def storedTokens (tokens : Tokens) : List (Bytes × TermInfo) :=
  tokens.list.map fun t => (t.1, p.store t.2)

theorem assoc_storedTokens (token : Bytes) (tokens : Tokens) :
    assoc (storedTokens p tokens) token = posting p token tokens :=
  assoc_map p.store tokens.list token

variable {tokens' : Tokens}

theorem storedTokens_eq_iff :
    storedTokens p tokens = storedTokens p tokens' ↔
      ∀ token, posting p token tokens = posting p token tokens' := by
  constructor
  · intro h token
    rw [← assoc_storedTokens, ← assoc_storedTokens, h]
  · intro h
    have hsorted : ∀ tokens : Tokens, (storedTokens p tokens).Pairwise fun a b => a.1 < b.1 :=
      fun tokens =>
      pairwise_map.mpr tokens.sorted
    have heq : (⟨_, hsorted tokens⟩ : Tokens) = ⟨_, hsorted tokens'⟩ := ext_find? fun token =>
      (assoc_storedTokens token tokens).trans
        ((h token).trans (assoc_storedTokens token tokens').symm)
    exact congrArg list heq

theorem allSuffixes_congr (h : storedTokens p tokens = storedTokens p tokens') :
    allSuffixes tokens = allSuffixes tokens' := by
  have hkeys := congrArg (map Prod.fst) h
  rw [storedTokens, storedTokens, map_map, map_map] at hkeys
  exact congrArg (flatMap suffixes) hkeys

theorem totalFreq_congr (hscored : p.scored = true)
    (h : storedTokens p tokens = storedTokens p tokens') :
      totalFreq tokens = totalFreq tokens' := by
  have hfreq := congrArg (map fun t => t.2.freq) h
  simp only [storedTokens, map_map, comp_def, IndexParams.store, hscored, if_true] at hfreq
  exact congrArg sum hfreq

theorem Represents.congr (hscored : p.scored = true) (h : Represents p idx docs)
    {docs' : ℕ → Option Tokens}
    (hdocs : ∀ id, (docs id).map (storedTokens p) = (docs' id).map (storedTokens p)) :
      Represents p idx docs' := by
  have hcongr {γ : Type} (f : Option Tokens → γ)
      (hf : ∀ tokens tokens', storedTokens p tokens = storedTokens p tokens' →
        f (some tokens) = f (some tokens'))
      (id : ℕ) : f (docs id) = f (docs' id) := by
    have hid := hdocs id
    cases hold : docs id with
    | none =>
      rw [hold, Option.map_none, eq_comm, Option.map_eq_none_iff] at hid
      rw [hid]
    | some tokens =>
      rw [hold, Option.map_some, eq_comm, Option.map_eq_some_iff] at hid
      obtain ⟨tokens', hnew, heq⟩ := hid
      rw [hnew, hf _ _ heq.symm]
  refine ⟨fun token id => ?_, h.entries_ne, fun trie htrie suffix id => ?_, h.trie_ne, fun id => ?_⟩
  · rw [h.entries]
    exact hcongr (·.bind (posting p token)) (fun _ _ heq => storedTokens_eq_iff.mp heq token) id
  · rw [h.trie trie htrie]
    exact hcongr (·.bind (trieEntry suffix))
      (fun _ _ heq => by simp [trieEntry, allSuffixes_congr heq]) id
  · rw [h.lengths]
    exact hcongr (docLength p) (fun _ _ heq => by simp [docLength, totalFreq_congr hscored heq]) id

/-- Indices with the same postings, the same trie and the same lengths of documents. -/
structure SameContents (idx idx' : StringIndex) : Prop where
  entries : idx.entries = idx'.entries
  suffixTrie : idx.suffixTrie = idx'.suffixTrie
  lengths : ∀ id, idx.getFieldDocLength id = idx'.getFieldDocLength id

/-- **An index has the contents that some documents give** if it represents them. -/
theorem sameContents_iff (h' : Represents p idx' docs)
    (htrie : idx.suffixTrie.isSome = idx'.suffixTrie.isSome) :
    SameContents idx idx' ↔ Represents p idx docs := by
  constructor
  · intro hsame
    refine ⟨?_, ?_, ?_, ?_, ?_⟩
    · exact hsame.entries ▸ h'.entries
    · exact hsame.entries ▸ h'.entries_ne
    · exact hsame.suffixTrie ▸ h'.trie
    · exact hsame.suffixTrie ▸ h'.trie_ne
    · exact fun id => (hsame.lengths id).trans (h'.lengths id)
  · intro h
    obtain ⟨hentries, htries, hlengths⟩ := h.unique h'
    refine ⟨hentries, ?_, hlengths⟩
    cases hold : idx.suffixTrie with
    | none =>
      rw [hold] at htrie
      exact (Option.isSome_eq_false_iff.mp htrie.symm |> Option.isNone_iff_eq_none.mp).symm
    | some trie =>
      rw [hold] at htrie
      obtain ⟨trie', hnew⟩ := Option.isSome_iff_exists.mp htrie.symm
      rw [hnew, htries trie hold trie' hnew]

/-! ## §6 Runs -/

section Runs

variable {δ : Type} (p) (tokenize : δ → Tokens)

/-- A document comes or goes. -/
inductive DocOp (δ : Type) where
  | add (id : ℕ) (doc : δ)
  | remove (id : ℕ)

def DocOp.id : DocOp δ → ℕ
  | add id _ => id
  | remove id => id

/-- A document is added if its id is free, and removed with the content that it has. -/
def applyOp (state : StringIndex × SortedMap ℕ δ) : DocOp δ → StringIndex × SortedMap ℕ δ
  | .add id doc =>
    match state.2.find? id with
    | some _ => state
    | none => (state.1.add p id (tokenize doc), state.2.alter id fun _ => some doc)
  | .remove id =>
    match state.2.find? id with
    | none => state
    | some doc => (state.1.remove p id (tokenize doc), state.2.alter id fun _ => none)

/-- The index and the documents after some operations. -/
def run (withSuffix : Bool) (ops : List (DocOp δ)) : StringIndex × SortedMap ℕ δ :=
  ops.foldl (applyOp p tokenize) (new withSuffix, .empty)

variable {p tokenize}

theorem update_find?_alter {docs : SortedMap ℕ δ} (id : ℕ) (doc : Option δ) :
    (fun i => ((docs.alter id fun _ => doc).find? i).map tokenize) =
      Function.update (fun i => (docs.find? i).map tokenize) id (doc.map tokenize) := by
  funext i
  rw [find?_alter, update_apply]
  split <;> rfl

theorem represents_applyOp {state : StringIndex × SortedMap ℕ δ}
    (h : Represents p state.1 fun id => (state.2.find? id).map tokenize) (op : DocOp δ) :
    Represents p (applyOp p tokenize state op).1
      fun id => ((applyOp p tokenize state op).2.find? id).map tokenize := by
  cases op with
  | add id doc =>
    rw [applyOp]
    cases hfind : state.2.find? id with
    | some _ => exact h
    | none =>
      rw [update_find?_alter]
      exact h.add (by rw [hfind]; rfl) (tokenize doc)
  | remove id =>
    rw [applyOp]
    cases hfind : state.2.find? id with
    | none => exact h
    | some doc =>
      rw [update_find?_alter]
      exact h.remove (by rw [hfind]; rfl)

variable (withSuffix : Bool)

/-- **A run**: the index is that of the documents that are there. -/
theorem represents_run (ops : List (DocOp δ)) :
    Represents p (run p tokenize withSuffix ops).1
      fun id => ((run p tokenize withSuffix ops).2.find? id).map tokenize := by
  exact foldlRecOn (motive := fun state : StringIndex × SortedMap ℕ δ =>
      Represents p state.1 fun id => (state.2.find? id).map tokenize)
    ops _ (represents_new p withSuffix) fun state h op _ => represents_applyOp h op

variable {ops : List (DocOp δ)}

theorem run_docs : (run p tokenize false ops).2 = (run p tokenize withSuffix ops).2 := by
  refine foldl_rel (r := fun s s' : StringIndex × SortedMap ℕ δ => s.2 = s'.2) rfl
    fun op _ s s' heq => ?_
  cases op with
  | add id doc =>
    rw [applyOp, applyOp, heq]
    cases s'.2.find? id with
    | some _ => exact heq
    | none => rfl
  | remove id =>
    rw [applyOp, applyOp, heq]
    cases s'.2.find? id with
    | none => exact heq
    | some _ => rfl

theorem find?_run (P : ℕ → Prop) {withSuffix : Bool} (hops : ∀ op ∈ ops, P op.id) {id : ℕ} {doc : δ}
    (hfind : (run p tokenize withSuffix ops).2.find? id = some doc) : P id := by
  have hall : ∀ id doc, (run p tokenize withSuffix ops).2.find? id = some doc → P id := by
    refine foldlRecOn (motive := fun state : StringIndex × SortedMap ℕ δ =>
        ∀ id doc, state.2.find? id = some doc → P id)
      ops _ (fun id doc h => by cases h) fun state h op hop id doc hfind => ?_
    cases op with
    | add id' doc' =>
      rw [applyOp] at hfind
      split at hfind
      · exact h id doc hfind
      · rw [find?_alter] at hfind
        split at hfind
        case isTrue heq => exact heq ▸ hops _ hop
        case isFalse => exact h id doc hfind
    | remove id' =>
      rw [applyOp] at hfind
      split at hfind
      · exact h id doc hfind
      · rw [find?_alter] at hfind
        split at hfind
        case isTrue => cases hfind
        case isFalse => exact h id doc hfind
  exact hall id doc hfind

end Runs

end StringIndex

end Drakeydb.Search
