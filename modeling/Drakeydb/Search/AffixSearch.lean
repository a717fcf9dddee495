import Drakeydb.Search.GlobMatch
import Drakeydb.Search.SynonymSearch

/-!
# Searching parts of words

`BasicSearch::Search` of affixes and wildcard patterns on text and tag fields, with `MatchPrefix`,
`MatchSuffix`, `MatchInfix` and `MatchWildcard` of `core/search/indices.cc`. Text indices use the
variants that tell the terms, in which the trie of suffixes only serves to stop early; tag indices
take documents from the trie. Either way a search returns the documents that have a token of the
kind that is sought. The tokens include the markers of synonym groups.
-/

namespace Drakeydb.Search

open Lib List SortedMap StringIndex

/-! ## §1 The code -/

/-- `TagType`, without that of whole terms. -/
inductive TagType where
  | prefixOf
  | suffixOf
  | infixOf
  | wildcard

def normalizeQueryWord (cm : CaseMapping) (caseSensitive : Bool) (query : Bytes) : Bytes :=
  if caseSensitive then query else cm.toLower query

/-- The entries from `lower_bound` on that begin with a word. -/
def startingWith (m : Postings) (word : Bytes) : List (Bytes × SortedMap ℕ TermInfo) :=
  (m.lowerBound word).takeWhile fun e => decide (word <+: e.1)

/-- There is such an entry. -/
def startsAny (m : Postings) (word : Bytes) : Bool :=
  (m.lowerBound word).head?.any fun e => decide (word <+: e.1)

namespace StringIndex

variable (word : Bytes) (idx : StringIndex)

/-- The loop over all entries. -/
def scan (f : Bytes → Bool) : List (Bytes × SortedMap ℕ TermInfo) :=
  idx.entries.list.filter fun e => f e.1

/-- `MatchPrefixWithTerm`, `MatchSuffixWithTerm`, `MatchInfixWithTerm` and `MatchWildcardWithTerm`,
of a normalized word: the entries that the callback gets. -/
def matchWithTerm : TagType → List (Bytes × SortedMap ℕ TermInfo)
  | .prefixOf => startingWith idx.entries word
  | .suffixOf =>
    if idx.suffixTrie.any fun trie => (trie.find? word).isNone then []
    else idx.scan fun key => decide (word <:+ key)
  | .infixOf =>
    if idx.suffixTrie.any fun trie => !startsAny trie word then []
    else idx.scan fun key => decide (word <:+: key)
  | .wildcard =>
    let segment := globLongestLiteralSegment word
    if idx.suffixTrie.any fun trie => decide (segment ≠ []) && !startsAny trie segment then []
    else (startingWith idx.entries (globLiteralPrefix word)).filter fun e => globMatch e.1 word

/-- `MatchPrefix`, `MatchSuffix`, `MatchInfix` and `MatchWildcard`: the posting lists that the
callback gets. -/
def matchAffix : TagType → List (Option (SortedMap ℕ TermInfo))
  | .prefixOf => (startingWith idx.entries word).map fun e => some e.2
  | .suffixOf =>
    match idx.suffixTrie with
    | some trie => [trie.find? word]
    | none => (idx.scan fun key => decide (word <:+ key)).map fun e => some e.2
  | .infixOf =>
    match idx.suffixTrie with
    | some trie => (startingWith trie word).map fun e => some e.2
    | none => (idx.scan fun key => decide (word <:+: key)).map fun e => some e.2
  | .wildcard => (idx.matchWithTerm word .wildcard).map fun e => some e.2

end StringIndex

/-- What `NormalizeTags` reads. -/
structure TagTokenizer where
  cm : CaseMapping
  caseSensitive : Bool
  separator : UInt8

namespace TagTokenizer

variable (T : TagTokenizer)

/-- The tags of a list, normalized. -/
def tags (taglist : Bytes) : List Bytes :=
  ((taglist.splitOn T.separator).filter fun tag => decide (tag ≠ [])).map fun tag =>
    normalizeQueryWord T.cm T.caseSensitive (stripAsciiWhitespace tag)

/-- A tag counts once. -/
def emitTag (out : Tokens) (tag : Bytes) : Tokens :=
  out.alter tag fun info => some (info.getD ⟨1, []⟩)

/-- `NormalizeTags`, for all values of a field. -/
def tokenize (texts : List Bytes) : Tokens := (texts.flatMap T.tags).foldl emitTag .empty

end TagTokenizer

/-- A field with a text index or a tag index. -/
inductive FieldIndex where
  | text (T : Tokenizer) (synonyms : Synonyms) (withOffsets : Bool)
  | tag (T : TagTokenizer)

namespace FieldIndex

/-- What the index stores. -/
def params : FieldIndex → IndexParams
  | text _ _ withOffsets => ⟨true, withOffsets⟩
  | tag _ => ⟨false, false⟩

/-- The containers of postings. -/
def container : FieldIndex → Container
  | text _ _ _ => .compressed
  | tag _ => .sorted

/-- The tokens of a document. -/
def tokenize : FieldIndex → List Bytes → Tokens
  | text T synonyms _ => T.tokenize synonyms
  | tag T => T.tokenize

/-- `NormalizeQueryWord`; text indices are not case sensitive. -/
def normalize : FieldIndex → Bytes → Bytes
  | text T _ _ => normalizeQueryWord T.cm false
  | tag T => normalizeQueryWord T.cm T.caseSensitive

/-- What the callback gets. -/
def matched (F : FieldIndex) (kind : TagType) (word : Bytes) (idx : StringIndex) :
    List (Option (SortedMap ℕ TermInfo)) :=
  match F with
  | text _ _ _ => (idx.matchWithTerm word kind).map fun e => some e.2
  | tag _ => idx.matchAffix word kind

/-- `Search` of an affix or a pattern on one field. -/
def searchAffix (arrangement : Arrangement ℕ) (F : FieldIndex) (idx : StringIndex) (kind : TagType)
    (pattern : Bytes) : IndexResult ℕ :=
  unifyResults arrangement
    [F.container.collectMatches (F.matched kind (F.normalize pattern) idx)] .or

/-- The stored words of a document: its words in lower case and their stems, or its tags. -/
def stored : FieldIndex → List Bytes → List Bytes
  | text T _ _, texts =>
    (Tokenizer.words texts).flatMap fun word => (T.keep word).elim
    [] fun lower => [lower, T.stem lower]
  | tag T, texts => texts.flatMap T.tags

/-- The markers of the synonym groups of its words. -/
def markers : FieldIndex → List Bytes → List Bytes
  | text T synonyms _, texts =>
    (Tokenizer.words texts).filterMap fun word => (T.keep word).bind (synonyms.getGroupToken T.cm)
  | tag _, _ => []

end FieldIndex

/-- A word begins with, ends with, contains or matches a pattern. -/
def Fits (kind : TagType) (pattern word : Bytes) : Prop :=
  match kind with
  | .prefixOf => pattern <+: word
  | .suffixOf => pattern <:+ word
  | .infixOf => pattern <:+: word
  | .wildcard => Glob.Matches (globTokens (chars pattern)) (chars word)

instance decidableFits (kind : TagType) (pattern : Bytes) :
    DecidablePred (Fits kind pattern) := fun word =>
  match kind with
  | .prefixOf => inferInstanceAs (Decidable (pattern <+: word))
  | .suffixOf => inferInstanceAs (Decidable (pattern <:+ word))
  | .infixOf => inferInstanceAs (Decidable (pattern <:+: word))
  | .wildcard =>
    inferInstanceAs (Decidable (Glob.Matches (globTokens (chars pattern)) (chars word)))

/-! ## §2 What is found -/

theorem startingWith_eq (m : Postings) (word : Bytes) :
    startingWith m word = m.list.filter fun e => decide (word <+: e.1) :=
  takeWhile_lowerBound m word (fun key => decide (word <+: key))
    (fun _ h => (of_decide_eq_true h).le)
    fun _ _ hi hlt h => decide_eq_true (isPrefix_of_between hi hlt (of_decide_eq_true h))

theorem startsAny_eq_true {m : Postings} {word : Bytes} :
    startsAny m word = true ↔ ∃ e ∈ m.list, word <+: e.1 := by
  have hhead : startsAny m word = true ↔ startingWith m word ≠ [] := by
    rw [startsAny, startingWith]
    cases m.lowerBound word with
    | nil => simp
    | cons e l =>
      rw [takeWhile_cons]
      split <;> simp_all
  rw [hhead, startingWith_eq, Ne, filter_eq_nil_iff]
  simp

variable {kind : TagType} {id : ℕ}

section Found

variable {p : IndexParams} {δ : Type} {tokenize : δ → Tokens} {idx : StringIndex}
    {docs : SortedMap ℕ δ} {word : Bytes}

theorem mem_suffixes {suffix token : Bytes} : suffix ∈ suffixes token ↔ suffix ≠ [] ∧
    suffix <:+ token := by
  rw [suffixes, mem_map]
  constructor
  · rintro ⟨i, hi, rfl⟩
    refine ⟨fun hnil => ?_, drop_suffix i token⟩
    rw [drop_eq_nil_iff] at hnil
    exact absurd (mem_range.mp hi) (Nat.not_lt.mpr hnil)
  · rintro ⟨hne, front, rfl⟩
    have hpos := length_pos_iff.mpr hne
    refine ⟨front.length, mem_range.mpr ?_, drop_left⟩
    rw [length_append]
    omega

variable {doc : δ}

theorem mem_allSuffixes {suffix : Bytes} :
    suffix ∈ allSuffixes (tokenize doc) ↔ suffix ≠ [] ∧ ∃ token, HasToken tokenize token doc ∧
      suffix <:+ token := by
  simp only [allSuffixes, mem_flatMap, mem_suffixes, HasToken, Option.isSome_iff_exists,
    find?_eq_some_iff, mem_map, Prod.exists, exists_and_right, exists_eq_right]
  constructor
  · rintro ⟨token, htoken, hne, hsuffix⟩
    exact ⟨hne, token, htoken, hsuffix⟩
  · rintro ⟨hne, token, htoken, hsuffix⟩
    exact ⟨token, htoken, hne, hsuffix⟩

/-- Suffixes of tokens that begin with a word are there if a token contains the word. -/
theorem exists_suffix_iff (hword : word ≠ []) :
    (∃ suffix, word <+: suffix ∧ suffix ∈ allSuffixes (tokenize doc)) ↔
      ∃ token, HasToken tokenize token doc ∧ word <:+: token := by
  simp only [mem_allSuffixes, infix_iff_prefix_suffix]
  constructor
  · rintro ⟨suffix, hpre, -, token, htoken, hsuffix⟩
    exact ⟨token, htoken, suffix, hpre, hsuffix⟩
  · rintro ⟨token, htoken, suffix, hpre, hsuffix⟩
    refine ⟨suffix, hpre, ?_, token, htoken, hsuffix⟩
    rintro rfl
    exact hword (prefix_nil.mp hpre)

theorem Holds.not_of_find {m : Postings} {R : Bytes → δ → Prop} (h : Holds m docs R) {key : Bytes}
    (hfind : m.find? key = none) (hdoc : docs.find? id = some doc) : ¬ R key doc := by
  intro hR
  have hlookup := (h.lookup key id).mpr ⟨doc, hdoc, hR⟩
  rw [Inverted.lookup, hfind] at hlookup
  cases hlookup

theorem not_infix_of_startsAny
    (h : StringIndex.Represents p idx fun id => (docs.find? id).map tokenize)
    {trie : Postings} (htrie : trie ∈ idx.suffixTrie) (hword : word ≠ [])
    (hno : startsAny trie word = false)
    (hdoc : docs.find? id = some doc) {token : Bytes} (htoken : HasToken tokenize token doc) :
    ¬ word <:+: token := by
  intro hinfix
  obtain ⟨suffix, hpre, hsuffix⟩ := (exists_suffix_iff hword).mpr ⟨token, htoken, hinfix⟩
  cases hfind : trie.find? suffix with
  | none => exact (holds_trie h htrie).not_of_find hfind hdoc hsuffix
  | some postings =>
    have hsome := startsAny_eq_true.mpr ⟨_, find?_eq_some_iff.mp hfind, hpre⟩
    rw [hno] at hsome
    cases hsome

variable (tokenize) in
/-- A document with a token that fits. -/
def HasFit (kind : TagType) (word : Bytes) (doc : δ) : Prop :=
  ∃ token, HasToken tokenize token doc ∧ Fits kind word token

theorem matches_iff_and (hutf8 : IsUtf8 word) (key : Bytes) :
    (decide (globLiteralPrefix word <+: key) && globMatch key word) = true ↔
      Fits .wildcard word key := by
  rw [Bool.and_eq_true, decide_eq_true_eq, globMatch_iff hutf8]
  refine and_iff_right_of_imp fun hmatch => ?_
  have hpre := globLiteralPrefix_isPrefix hutf8 hmatch
  rwa [flatten_chars, flatten_chars] at hpre

section

variable (h : StringIndex.Represents p idx fun id => (docs.find? id).map tokenize)
include h

theorem yields_of_test (f : Bytes → Bool) (hf : ∀ key, f key = true ↔ Fits kind word key) :
    Yields ((idx.entries.list.filter fun e => f e.1).map fun e => some e.2) docs
      (HasFit tokenize kind word) := by
  refine ((holds_entries h).yields_filter f).congr fun id doc _ => exists_congr fun key => ?_
  rw [hf, and_comm]

/-- **What a text index finds.** -/
theorem yields_matchWithTerm (hutf8 : IsUtf8 word) (hword : word ≠ []) (kind : TagType) :
    Yields ((idx.matchWithTerm word kind).map fun e => some e.2) docs
      (HasFit tokenize kind word) := by
  cases kind with
  | prefixOf =>
    rw [matchWithTerm, startingWith_eq]
    exact yields_of_test h (fun key => decide (word <+: key)) fun key => decide_eq_true_iff
  | suffixOf =>
    rw [matchWithTerm]
    split
    case isTrue hstop =>
      -- the word is no suffix of any token
      obtain ⟨trie, htrie, hnone⟩ := (Option.any_eq_true _ _).mp hstop
      refine yields_nil fun id doc hdoc hfit => ?_
      obtain ⟨token, htoken, hsuffix⟩ := hfit
      exact (holds_trie h htrie).not_of_find (Option.isNone_iff_eq_none.mp hnone) hdoc
        (mem_allSuffixes.mpr ⟨hword, token, htoken, hsuffix⟩)
    case isFalse =>
      exact yields_of_test h (fun key => decide (word <:+ key)) fun key => decide_eq_true_iff
  | infixOf =>
    rw [matchWithTerm]
    split
    case isTrue hstop =>
      obtain ⟨trie, htrie, hno⟩ := (Option.any_eq_true _ _).mp hstop
      refine yields_nil fun id doc hdoc hfit => ?_
      obtain ⟨token, htoken, hinfix⟩ := hfit
      exact not_infix_of_startsAny h htrie hword (Bool.not_eq_true' _ ▸ hno) hdoc htoken hinfix
    case isFalse =>
      exact yields_of_test h (fun key => decide (word <:+: key)) fun key => decide_eq_true_iff
  | wildcard =>
    rw [matchWithTerm]
    split
    case isTrue hstop =>
      obtain ⟨trie, htrie, hno⟩ := (Option.any_eq_true _ _).mp hstop
      rw [Bool.and_eq_true, decide_eq_true_eq, Bool.not_eq_true'] at hno
      refine yields_nil fun id doc hdoc hfit => ?_
      obtain ⟨token, htoken, hmatch⟩ := hfit
      have hinfix := globLongestLiteralSegment_isInfix hutf8 hmatch
      rw [flatten_chars, flatten_chars] at hinfix
      exact not_infix_of_startsAny h htrie hno.1 hno.2 hdoc htoken hinfix
    case isFalse =>
      rw [startingWith_eq, filter_filter]
      refine yields_of_test h
        (fun key => globMatch key word && decide (globLiteralPrefix word <+: key)) fun key => ?_
      rw [Bool.and_comm, matches_iff_and hutf8]

/-- **What a tag index finds.** -/
theorem yields_matchAffix (hutf8 : IsUtf8 word) (hword : word ≠ []) (kind : TagType) :
    Yields (idx.matchAffix word kind) docs (HasFit tokenize kind word) := by
  cases kind with
  | prefixOf =>
    exact yields_matchWithTerm h hutf8 hword .prefixOf
  | wildcard =>
    rw [matchAffix]
    exact yields_matchWithTerm h hutf8 hword .wildcard
  | suffixOf =>
    cases htrie : idx.suffixTrie with
    | none =>
      rw [matchAffix, htrie]
      exact yields_of_test h (fun key => decide (word <:+ key)) fun key => decide_eq_true_iff
    | some trie =>
      rw [matchAffix, htrie]
      refine ((holds_trie h htrie).yields_find word).congr fun id doc _ => ?_
      rw [mem_allSuffixes]
      exact and_iff_right hword
  | infixOf =>
    cases htrie : idx.suffixTrie with
    | none =>
      rw [matchAffix, htrie]
      exact yields_of_test h (fun key => decide (word <:+: key)) fun key => decide_eq_true_iff
    | some trie =>
      rw [matchAffix, htrie]
      dsimp only
      rw [startingWith_eq]
      refine ((holds_trie h htrie).yields_filter fun key => decide (word <+: key)).congr
        fun id doc _ => ?_
      simp only [decide_eq_true_eq]
      exact exists_suffix_iff hword

end

end Found

/-! ## §3 Words and markers -/

namespace FieldIndex

variable {F : FieldIndex} {texts : List Bytes} {token : Bytes}

theorem isSome_foldl_emitTag (tags : List Bytes) (out : Tokens) :
    ((tags.foldl TagTokenizer.emitTag out).find? token).isSome = true ↔
      token ∈ tags ∨ (out.find? token).isSome = true := by
  induction tags generalizing out with
  | nil => simp
  | cons tag tags ih =>
    rw [foldl_cons, ih, mem_cons, TagTokenizer.emitTag, find?_alter]
    split
    case isTrue heq => simp [heq]
    case isFalse hne => simp [hne]

/-- **The tokens of a document** are its words and the markers of their groups. -/
theorem hasToken_iff : HasToken F.tokenize token texts ↔ token ∈ F.stored texts ∨
    token ∈ F.markers texts := by
  cases F with
  | text T synonyms withOffsets =>
    change ((T.tokenize synonyms texts).find? token).isSome = true ↔ _
    rw [Tokenizer.mem_tokenize, stored, markers, mem_flatMap, mem_filterMap, ← exists_or]
    refine exists_congr fun word => ?_
    rw [← and_or_left]
    refine and_congr_right fun _ => ?_
    cases T.keep word with
    | none => simp
    | some lower =>
      simp only [Option.some.injEq, exists_eq_left', Option.elim_some, Option.bind_some,
        mem_wordTokens, mem_cons, not_mem_nil, or_false, eq_comm]
      tauto
  | tag T =>
    change ((T.tokenize texts).find? token).isSome = true ↔ _
    rw [TagTokenizer.tokenize, isSome_foldl_emitTag, stored, markers]
    simp

/-- Some of these words fit. -/
def SomeFit (kind : TagType) (word : Bytes) (words : List Bytes) : Prop :=
  ∃ w ∈ words, Fits kind word w

instance (kind : TagType) (word : Bytes) : DecidablePred (SomeFit kind word) := fun words =>
  inferInstanceAs (Decidable (∃ w ∈ words, Fits kind word w))

theorem hasFit_iff {word : Bytes} :
    HasFit F.tokenize kind word texts ↔
      SomeFit kind word (F.stored texts) ∨ SomeFit kind word (F.markers texts) := by
  simp [HasFit, hasToken_iff, SomeFit, or_and_right, exists_or]

/-! ## §4 Searching -/

variable {docs : SortedMap ℕ (List Bytes)} {idx : StringIndex} {p : IndexParams}

theorem yields_matched {word : Bytes}
    (h : StringIndex.Represents p idx fun id => (docs.find? id).map F.tokenize)
    (hutf8 : IsUtf8 word) (hword : word ≠ []) (kind : TagType) :
    Yields (F.matched kind word idx) docs (HasFit F.tokenize kind word) := by
  cases F with
  | text T synonyms withOffsets => exact yields_matchWithTerm h hutf8 hword kind
  | tag T => exact yields_matchAffix h hutf8 hword kind

/-- The case mapping of a field. -/
def cm : FieldIndex → CaseMapping
  | text T _ _ => T.cm
  | tag T => T.cm

variable {pattern : Bytes}

theorem normalize_utf8 (hcm : F.cm.KeepsUtf8) (hutf8 : IsUtf8 pattern) (hne : pattern ≠ []) :
    IsUtf8 (F.normalize pattern) ∧ F.normalize pattern ≠ [] := by
  have hlower : ∀ (cm : CaseMapping) (caseSensitive : Bool), cm.KeepsUtf8 →
      IsUtf8 (normalizeQueryWord cm caseSensitive pattern) ∧
        normalizeQueryWord cm caseSensitive pattern ≠ [] := by
    intro cm caseSensitive hcm
    rw [normalizeQueryWord, cm.toLower_eq]
    cases caseSensitive with
    | false => exact hcm pattern hutf8 hne
    | true => exact ⟨hutf8, hne⟩
  cases F with
  | text T synonyms withOffsets => exact hlower T.cm false hcm
  | tag T => exact hlower T.cm T.caseSensitive hcm

instance (kind : TagType) (word : Bytes) : DecidablePred (HasFit F.tokenize kind word) := fun _ =>
  decidable_of_iff _ hasFit_iff.symm

/-- **What a search returns**: the documents with a token that fits. -/
theorem searchAffix_take (arrangement : Arrangement ℕ)
    (h : StringIndex.Represents p idx fun id => (docs.find? id).map F.tokenize)
    (hids : ∀ id doc, docs.find? id = some doc → id < kInvalidDocId) (hcm : F.cm.KeepsUtf8)
    (hutf8 : IsUtf8 pattern) (hne : pattern ≠ []) (kind : TagType) :
    ((F.searchAffix arrangement idx kind pattern).take noLimit).1 =
      (docsWith (HasFit F.tokenize kind (F.normalize pattern)) docs).sort := by
  have hall : ∀ n ∈ allDocs docs, n < kInvalidDocId := by
    intro id hid
    obtain ⟨doc, hfind, -⟩ := mem_docsWith.mp hid
    exact hids id doc hfind
  obtain ⟨hutf8', hne'⟩ := normalize_utf8 hcm hutf8 hne
  obtain ⟨hmerge, hdocs⟩ :=
    collectMatches_spec (k := F.container) (yields_matched h hutf8' hne' kind) hall
  obtain ⟨⟨hwf, hsub⟩, hunion⟩ :=
    unifyResults_spec hall arrangement .or (forall_mem_singleton.mpr hmerge)
  rw [searchAffix, IndexResult.take_spec hwf fun n hn => hall n (hsub hn), hunion]
  dsimp only
  refine congrArg (fun s : Finset ℕ => s.sort) (Finset.ext fun id => ?_)
  simp only [combine, map_cons, map_nil, hdocs, exists_mem_cons_iff, not_mem_nil, false_and,
    exists_false, or_false, Finset.mem_filter]
  exact and_iff_right_of_imp fun hid => docsWith_subset hid

/-- The documents after some additions and removals. -/
def current (F : FieldIndex) (ops : List (StringIndex.DocOp (List Bytes))) :
    SortedMap ℕ (List Bytes) :=
  (StringIndex.run F.params F.tokenize false ops).2

/-- What a search returns then, if the index keeps a trie of suffixes or not. -/
def found (F : FieldIndex) (arrangement : Arrangement ℕ) (withSuffix : Bool)
    (ops : List (StringIndex.DocOp (List Bytes))) (kind : TagType) (pattern : Bytes) : List ℕ :=
  ((F.searchAffix arrangement (StringIndex.run F.params F.tokenize withSuffix ops).1 kind
    pattern).take noLimit).1

/-- **Affix and wildcard searches** give the same with and without a trie, and they are exact if and
only if every document with a fitting marker of a synonym group also has a fitting word. -/
theorem searchAffix_right_iff (F : FieldIndex) (hcm : F.cm.KeepsUtf8) (arrangement : Arrangement ℕ)
    (withSuffix : Bool) (ops : List (StringIndex.DocOp (List Bytes)))
    (hops : ∀ op ∈ ops, op.id < kInvalidDocId)
    (kind : TagType) (pattern : Bytes) (hutf8 : IsUtf8 pattern) (hne : pattern ≠ []) :
    (F.found arrangement withSuffix ops kind pattern =
        (docsWith (fun texts => SomeFit kind (F.normalize pattern) (F.stored texts))
          (F.current ops)).sort ↔
      ∀ d ∈ (F.current ops).list, SomeFit kind (F.normalize pattern) (F.markers d.2) →
        SomeFit kind (F.normalize pattern) (F.stored d.2)) ∧
    F.found arrangement withSuffix ops kind pattern =
      F.found arrangement false ops kind pattern := by
  have hfound : ∀ withSuffix, F.found arrangement withSuffix ops kind pattern =
      (docsWith (HasFit F.tokenize kind (F.normalize pattern)) (F.current ops)).sort := by
    intro withSuffix
    rw [current, run_docs withSuffix]
    exact searchAffix_take arrangement (represents_run withSuffix ops)
      (fun id doc hfind => find?_run (· < kInvalidDocId) hops hfind) hcm hutf8 hne kind
  rw [hfound, hfound]
  refine ⟨?_, rfl⟩
  generalize F.current ops = docs
  rw [sort_inj]
  constructor
  · intro heq d hd hmarker
    have hfind : docs.find? d.1 = some d.2 := find?_eq_some_iff.mpr hd
    have hmem : d.1 ∈ docsWith (HasFit F.tokenize kind (F.normalize pattern)) docs :=
      mem_docsWith.mpr ⟨d.2, hfind, hasFit_iff.mpr (.inr hmarker)⟩
    rw [heq, mem_docsWith] at hmem
    obtain ⟨texts, htexts, hfit⟩ := hmem
    rw [hfind] at htexts
    cases htexts
    exact hfit
  · intro hcond
    ext id
    rw [mem_docsWith, mem_docsWith]
    refine exists_congr fun texts => and_congr_right fun hfind => ?_
    rw [hasFit_iff]
    exact or_iff_left_of_imp (hcond (id, texts) (find?_eq_some_iff.mp hfind))

/-- A text field with the words `a` and `b` in the group `1`. -/
def groupedField : FieldIndex := .text plainWords (groupOfTwo 49) true

/-- A search for words that end with `a` finds the document with `a`. -/
theorem searchAffix_suffix_a :
    groupedField.found .bySize true oneDocument .suffixOf [97] =
      (docsWith
        (fun texts => SomeFit .suffixOf (groupedField.normalize [97]) (groupedField.stored texts))
        (groupedField.current oneDocument)).sort :=
  (searchAffix_right_iff groupedField keepsUtf8_asciiCase .bySize true oneDocument
    (by decide) .suffixOf [97]
    (by decide +kernel) (cons_ne_nil _ _)).1.mpr (by decide +kernel)

/-- A search for words that end with `1` finds it as well, by the marker of the group. -/
theorem searchAffix_marker :
    groupedField.found .bySize true oneDocument .suffixOf [49] = [1] ∧
      docsWith
        (fun texts => SomeFit .suffixOf (groupedField.normalize [49]) (groupedField.stored texts))
        (groupedField.current oneDocument) = ∅ := by
  decide +kernel

end FieldIndex

end Drakeydb.Search
