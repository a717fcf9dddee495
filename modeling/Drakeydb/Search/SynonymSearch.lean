import Mathlib.Data.List.DropRight
import Drakeydb.Search.Postings

/-!
# Searching a term

`BasicSearch::Search` of a term on a text field, with `Matching` and `NormalizeForExactQuery` of
`core/search/indices.cc`. A term is looked up by its stem, and if it belongs to a synonym group, so
is the marker of the group. Documents are indexed under the marker as it is, but a query brings it
to lower case.
-/

namespace Drakeydb.Search

open Lib List Option StringIndex

/-! ## §1 The code -/

/-- `absl::ascii_isspace`. -/
def isAsciiSpace (c : UInt8) : Bool := decide (c = 32 ∨ (9 ≤ c ∧ c ≤ 13))

def stripAsciiWhitespace (word : Bytes) : Bytes :=
  (word.dropWhile isAsciiSpace).rdropWhile isAsciiSpace

/-- `NormalizeForExactQuery` of a text index: markers of groups are not stemmed. -/
def Tokenizer.normalizeForExactQuery (T : Tokenizer) (query : Bytes) : Bytes :=
  let lower := T.cm.toLower query
  if lower ≠ [] ∧ lower.head? ≠ some blank then T.stem lower else lower

def StringIndex.matching (T : Tokenizer) (word : Bytes) (strip : Bool) (idx : StringIndex) :
    Option (SortedMap ℕ TermInfo) :=
  idx.entries.find? (T.normalizeForExactQuery (if strip then stripAsciiWhitespace word else word))

/-- `Search` of a term on one field. -/
def searchTerm (arrangement : Arrangement ℕ) (T : Tokenizer) (synonyms : Synonyms)
    (idx : StringIndex) (term : Bytes) : IndexResult ℕ :=
  let result := Container.compressed.ofPostings (idx.matching T term true)
  match synonyms.getGroupToken T.cm term with
  | none => result
  | some group =>
    unifyResults arrangement
    [result, Container.compressed.ofPostings (idx.matching T group false)] .or

/-! ## §2 Words that are sought and words that are found -/

variable {word : Bytes}

section Words

variable (T : Tokenizer) (synonyms : Synonyms) (term : Bytes)

/-- The stem of the term. -/
def sought : Bytes := T.stem (T.cm.lower term)

/-- The word is the stem of the term, or has it for a stem. -/
def Direct (word : Bytes) : Prop := T.cm.lower word = sought T term ∨
    T.stem (T.cm.lower word) = sought T term

/-- **What a search is for**: words, not stop words, with the stem or in the synonym group of the
term. -/
def Sought (word : Bytes) : Prop :=
  T.cm.lower word ∉ T.stopWords ∧
    (Direct T term word ∨ ∃ g ∈ synonyms.groups, T.cm.lower word ∈ g.2 ∧ T.cm.lower term ∈ g.2)

/-- Such a word is not found by itself: it begins with a blank, or only the group leads to it, and
the id of the group is not in lower case. -/
def Lost (word : Bytes) : Prop :=
  (T.cm.lower word = [] ∨ (T.cm.lower word).head? = some blank) ∨
    ¬ Direct T term word ∧ ∃ g ∈ synonyms.groups, T.cm.lower term ∈ g.2 ∧ T.cm.lower g.1 ≠ g.1

/-- The word is indexed. -/
def Kept (word : Bytes) : Prop :=
  (T.cm.lower word ≠ [] ∧ (T.cm.lower word).head? ≠ some blank) ∧ T.cm.lower word ∉ T.stopWords

/-- A word is found by the marker of a group that it should not be found by: the marker is the stem
of the term, or the stem of the word, or the id of another group is that of the term's group in
lower case. -/
def Stray (word : Bytes) : Prop :=
  Kept T word ∧
    ((∃ g ∈ synonyms.groups, T.cm.lower word ∈ g.2 ∧ groupToken g.1 = sought T term) ∨
      ∃ g ∈ synonyms.groups, T.cm.lower term ∈ g.2 ∧
        (T.stem (T.cm.lower word) = groupToken (T.cm.lower g.1) ∨
          ∃ g' ∈ synonyms.groups, T.cm.lower word ∈ g'.2 ∧ g'.1 ≠ g.1 ∧ g'.1 = T.cm.lower g.1))

/-- The word is stored under one of the tokens that the search looks up. -/
def Hits (word : Bytes) : Prop :=
  ∃ lower, T.keep word = some lower ∧
    (sought T term ∈ T.wordTokens synonyms lower ∨
      ∃ g, synonyms.getGroupToken T.cm term = some g ∧ T.cm.lower g ∈ T.wordTokens synonyms lower)

instance : DecidablePred (Direct T term) := fun _ => inferInstanceAs (Decidable (_ ∨ _))

instance : DecidablePred (Sought T synonyms term) := fun _ => inferInstanceAs (Decidable (_ ∧ _))

instance : DecidablePred (Lost T synonyms term) := fun _ => inferInstanceAs (Decidable (_ ∨ _))

instance : DecidablePred (Kept T) := fun _ => inferInstanceAs (Decidable (_ ∧ _))

instance : DecidablePred (Stray T synonyms term) := fun _ => inferInstanceAs (Decidable (_ ∧ _))

variable {T synonyms term}

theorem exists_keep_iff {P : Bytes → Prop} :
    (∃ lower, T.keep word = some lower ∧ P lower) ↔ Kept T word ∧ P (T.cm.lower word) := by
  rw [Tokenizer.keep]
  split
  case isTrue h =>
    refine iff_of_false (fun ⟨_, hnone, _⟩ => by cases hnone) fun hkept => ?_
    exact h.elim hkept.1.1.1 hkept.1.1.2
  case isFalse h =>
    rw [not_or] at h
    split
    case isTrue hstop =>
      refine iff_of_false (fun ⟨_, hnone, _⟩ => by cases hnone) fun hkept => ?_
      exact hkept.1.2 (contains_iff_mem.mp hstop)
    case isFalse hstop =>
      have hkept : Kept T word := ⟨h, fun hmem => hstop (contains_iff_mem.mpr hmem)⟩
      simp only [some.injEq, exists_eq_left', hkept, true_and]

theorem getGroupToken_eq_some_iff
    (hdisjoint : synonyms.groups.Pairwise fun g g' => g.2.Disjoint g'.2) {word token : Bytes} :
    synonyms.getGroupToken T.cm word = some token ↔
      ∃ g ∈ synonyms.groups, T.cm.lower word ∈ g.2 ∧ groupToken g.1 = token := by
  rw [Synonyms.getGroupToken, map_eq_some_iff]
  constructor
  · rintro ⟨g, hfind, rfl⟩
    have hcontains : g.2.contains (T.cm.lower word) = true := by simpa using find?_some hfind
    exact ⟨g, mem_of_find?_eq_some hfind, contains_iff_mem.mp hcontains, rfl⟩
  · rintro ⟨g, hg, hmem, rfl⟩
    refine ⟨g, ?_, rfl⟩
    generalize synonyms.groups = groups at hdisjoint hg
    induction groups with
    | nil => cases hg
    | cons g' groups ih =>
      obtain ⟨hhead, htail⟩ := pairwise_cons.mp hdisjoint
      rw [find?_cons]
      cases hcontains : g'.2.contains (T.cm.lower word) with
      | true =>
        rcases mem_cons.mp hg with rfl | hg
        · rfl
        · exact absurd hmem (hhead g hg (contains_iff_mem.mp hcontains))
      | false =>
        rcases mem_cons.mp hg with rfl | hg
        · rw [contains_iff_mem.mpr hmem] at hcontains
          cases hcontains
        · exact ih htail hg

theorem mem_wordTokens {lower token : Bytes} :
    token ∈ T.wordTokens synonyms lower ↔
      synonyms.getGroupToken T.cm lower = some token ∨ T.stem lower = token ∨ lower = token := by
  rw [Tokenizer.wordTokens, mem_append, mem_append, mem_toList, mem_singleton]
  apply or_congr_right
  split
  case isTrue =>
    rw [mem_singleton]
    exact or_congr eq_comm eq_comm
  case isFalse hsame =>
    rw [not_not] at hsame
    rw [hsame]
    simp [eq_comm]

/-- **The words that are found**: those that are sought and not lost, and the stray ones. -/
theorem hits_iff (hdisjoint : synonyms.groups.Pairwise fun g g' => g.2.Disjoint g'.2) :
    Hits T synonyms term word ↔
      (Sought T synonyms term word ∧ ¬ Lost T synonyms term word) ∨ Stray T synonyms term word := by
  have hunique : ∀ {g g' : Bytes × List Bytes} {w : Bytes}, g ∈ synonyms.groups →
    g' ∈ synonyms.groups →
      w ∈ g.2 → w ∈ g'.2 → g = g' := by
    intro g g' w hg hg' hw hw'
    by_contra hne
    have hsymm : Std.Symm fun g g' : Bytes × List Bytes => g.2.Disjoint g'.2 :=
      ⟨fun _ _ h => h.symm⟩
    exact hdisjoint.forall hg hg' hne hw hw'
  have hlookup : ∀ token, token ∈ T.wordTokens synonyms (T.cm.lower word) ↔
      (∃ g ∈ synonyms.groups, T.cm.lower word ∈ g.2 ∧ groupToken g.1 = token) ∨
        T.stem (T.cm.lower word) = token ∨ T.cm.lower word = token := by
    intro token
    rw [mem_wordTokens, getGroupToken_eq_some_iff hdisjoint, T.cm.idem]
  rw [Hits, exists_keep_iff]
  simp only [hlookup, getGroupToken_eq_some_iff hdisjoint]
  constructor
  · rintro ⟨hkept, h⟩
    have hfound : Direct T term word → Sought T synonyms term word ∧ ¬ Lost T synonyms term word :=
      fun hdirect =>
      ⟨⟨hkept.2, .inl hdirect⟩, fun hlost => hlost.elim (fun hbad => hbad.elim hkept.1.1 hkept.1.2)
        fun hnot => hnot.1 hdirect⟩
    rcases h with (hmarker | hstem | hword) | ⟨_, ⟨g, hg, hterm, rfl⟩, h⟩
    · exact .inr ⟨hkept, .inl hmarker⟩
    · exact .inl (hfound (.inr hstem))
    · exact .inl (hfound (.inl hword))
    · have hlower : T.cm.lower (groupToken g.1) = groupToken (T.cm.lower g.1) := T.cm.blank_cons g.1
      rw [hlower] at h
      rcases h with ⟨g', hg', hmem, heq⟩ | hstem | hword
      · have hid : g'.1 = T.cm.lower g.1 := (cons.inj heq).2
        by_cases hsame : g'.1 = g.1
        · have hgg' : g' = g := inj_on_of_nodup_map synonyms.nodup hg' hg hsame
          subst hgg'
          by_cases hdirect : Direct T term word
          · exact .inl (hfound hdirect)
          · refine .inl ⟨⟨hkept.2, .inr ⟨g', hg, hmem, hterm⟩⟩, ?_⟩
            rintro (hbad | ⟨-, g2, hg2, hterm2, hupper⟩)
            · exact hbad.elim hkept.1.1 hkept.1.2
            · exact hupper (hunique hg hg2 hterm hterm2 ▸ hid.symm)
        · exact .inr ⟨hkept, .inr ⟨g, hg, hterm, .inr ⟨g', hg', hmem, hsame, hid⟩⟩⟩
      · exact .inr ⟨hkept, .inr ⟨g, hg, hterm, .inl hstem⟩⟩
      · exact absurd (congrArg head? hword) hkept.1.2
  · rintro (⟨⟨hstop, h⟩, hlost⟩ | ⟨hkept, h⟩)
    · rw [Lost, not_or, not_or] at hlost
      refine ⟨⟨hlost.1, hstop⟩, ?_⟩
      by_cases hdirect : Direct T term word
      · exact .inl (.inr hdirect.symm)
      · obtain ⟨g, hg, hmem, hterm⟩ := h.resolve_left hdirect
        have hid : T.cm.lower g.1 = g.1 := by
          by_contra hupper
          exact hlost.2 ⟨hdirect, g, hg, hterm, hupper⟩
        refine .inr ⟨_, ⟨g, hg, hterm, rfl⟩, .inl ⟨g, hg, hmem, ?_⟩⟩
        rw [groupToken, T.cm.blank_cons, hid]
    · refine ⟨hkept, ?_⟩
      rcases h with hmarker | ⟨g, hg, hterm, hstem | ⟨g', hg', hmem, -, hid⟩⟩
      · exact .inl (.inl hmarker)
      · refine .inr ⟨_, ⟨g, hg, hterm, rfl⟩, .inr (.inl ?_)⟩
        rw [hstem, groupToken, groupToken, T.cm.blank_cons]
      · refine .inr ⟨_, ⟨g, hg, hterm, rfl⟩, .inl ⟨g', hg', hmem, ?_⟩⟩
        rw [groupToken, groupToken, T.cm.blank_cons, hid]

end Words

/-! ## §3 Searching -/

section Search

variable {T : Tokenizer} {synonyms : Synonyms} {term : Bytes} {p : IndexParams} {idx : StringIndex}
  {docs : SortedMap ℕ (List Bytes)}

theorem dropWhile_eq_self (h : ∀ c ∈ word, isAsciiSpace c = false) :
    word.dropWhile isAsciiSpace = word := by
  cases word with
  | nil => rfl
  | cons c word => exact dropWhile_cons_of_neg (by rw [h c mem_cons_self]; exact Bool.false_ne_true)

theorem strip_eq_self (h : ∀ c ∈ word, isAsciiSpace c = false) :
    stripAsciiWhitespace word = word := by
  have hreverse : word.reverse.dropWhile isAsciiSpace = word.reverse :=
    dropWhile_eq_self fun c hc => h c (mem_reverse.mp hc)
  simp [stripAsciiWhitespace, dropWhile_eq_self h, rdropWhile, hreverse]

theorem normalize_term (h : ∀ c ∈ term, isAsciiSpace c = false) :
    T.normalizeForExactQuery (stripAsciiWhitespace term) = sought T term := by
  rw [strip_eq_self h, Tokenizer.normalizeForExactQuery, T.cm.toLower_eq, sought]
  split
  case isTrue => rfl
  case isFalse hnot =>
    have hnil : T.cm.lower term = [] := by
      by_contra hne
      have hblank : (T.cm.lower term).head? = some blank := by
        by_contra hhead
        exact hnot ⟨hne, hhead⟩
      have hmem := mem_of_mem_head? (T.cm.head_blank term hblank)
      have hspace : isAsciiSpace blank = true := by decide
      rw [h blank hmem] at hspace
      cases hspace
    rw [hnil, Tokenizer.stem]
    cases T.stemmer with
    | none => rfl
    | some stem => rfl

theorem normalize_marker (id : Bytes) :
    T.normalizeForExactQuery (groupToken id) = T.cm.lower (groupToken id) := by
  rw [Tokenizer.normalizeForExactQuery, T.cm.toLower_eq]
  refine if_neg fun h => h.2 ?_
  rw [groupToken, T.cm.blank_cons]
  rfl

theorem kept_and_iff_hits :
    (Kept T word ∧ (sought T term ∈ T.wordTokens synonyms (T.cm.lower word) ∨
      ∃ g ∈ synonyms.getGroupToken T.cm term,
        T.cm.lower g ∈ T.wordTokens synonyms (T.cm.lower word))) ↔
      Hits T synonyms term word := by
  rw [Hits, exists_keep_iff]
  rfl

instance : DecidablePred (Hits T synonyms term) := fun _ => decidable_of_iff _ kept_and_iff_hits

/-- A document with a word that has a property. -/
def HasWord (P : Bytes → Prop) (texts : List Bytes) : Prop := ∃ word ∈ Tokenizer.words texts, P word

instance (P : Bytes → Prop) [DecidablePred P] : DecidablePred (HasWord P) := fun _ =>
  inferInstanceAs (Decidable (∃ word ∈ _, P word))

/-- **The documents that a search returns**: those with a word that is found. -/
theorem searchTerm_take (arrangement : Arrangement ℕ)
    (h : StringIndex.Represents p idx fun id => (docs.find? id).map (T.tokenize synonyms))
    (hids : ∀ id doc, docs.find? id = some doc → id < kInvalidDocId)
    (hterm : ∀ c ∈ term, isAsciiSpace c = false) :
    ((searchTerm arrangement T synonyms idx term).take noLimit).1 =
      (docsWith (HasWord (Hits T synonyms term)) docs).sort := by
  have hall : ∀ {P : List Bytes → Prop} [DecidablePred P], ∀ id ∈ docsWith P docs,
    id < kInvalidDocId := by
    intro P _ id hid
    obtain ⟨doc, hfind, -⟩ := mem_docsWith.mp hid
    exact hids id doc hfind
  have hmatching : idx.matching T term true = idx.entries.find? (sought T term) := by
    rw [matching, if_pos rfl, normalize_term hterm]
  obtain ⟨hwf, hdocs⟩ := ofPostings_spec (k := .compressed) h (sought T term)
  rw [searchTerm, hmatching]
  cases hgroup : synonyms.getGroupToken T.cm term with
  | none =>
    rw [IndexResult.take_spec hwf (hdocs ▸ hall), hdocs]
    dsimp only
    refine congrArg (fun s : Finset ℕ => s.sort) (Finset.ext fun id => ?_)
    simp [mem_docsWith, HasToken, Tokenizer.mem_tokenize, HasWord, Hits, hgroup, reduceCtorEq]
  | some g =>
    obtain ⟨hwf', hdocs'⟩ := ofPostings_spec (k := .compressed) h (T.cm.lower g)
    have hmarker : idx.matching T g false = idx.entries.find? (T.cm.lower g) := by
      obtain ⟨group, -, rfl⟩ := map_eq_some_iff.mp hgroup
      rw [matching, if_neg Bool.false_ne_true, normalize_marker]
    obtain ⟨⟨hwf'', hsub''⟩, hunion⟩ := unifyResults_spec (fun n hn => hall n hn) arrangement .or
      (forall_mem_cons.mpr ⟨⟨hwf, hdocs ▸ docsWith_subset⟩,
        forall_mem_singleton.mpr ⟨hwf', hdocs' ▸ docsWith_subset⟩⟩)
    dsimp only
    rw [hmarker, IndexResult.take_spec hwf'' fun n hn => hall n (hsub'' hn), hunion]
    dsimp only
    refine congrArg (fun s : Finset ℕ => s.sort) (Finset.ext fun id => ?_)
    have hsplit : ∀ {P : List Bytes → Prop} [DecidablePred P],
        id ∈ docsWith P docs ↔ id ∈ docsWith (fun _ => True) docs ∧ id ∈ docsWith P docs :=
          fun {P _} =>
      (and_iff_right_of_imp fun hid => docsWith_subset hid).symm
    rw [hsplit]
    simp only [combine, Finset.mem_filter, map_cons, map_nil, hdocs, hdocs', exists_mem_cons_iff,
      not_mem_nil, false_and, exists_false, or_false]
    refine and_congr_right fun _ => ?_
    simp [mem_docsWith, HasToken, Tokenizer.mem_tokenize, HasWord, Hits, hgroup, ← exists_or,
      ← and_or_left]

/-- **Searching a term finds its synonyms**: whatever documents came and went, a search returns
those with a word that is sought, if and only if in every document in which all words that are
sought are lost, there is such a word exactly if there is a stray one. -/
theorem searchTerm_right_iff (T : Tokenizer) (synonyms : Synonyms)
    (hdisjoint : synonyms.groups.Pairwise fun g g' => g.2.Disjoint g'.2)
    (arrangement : Arrangement ℕ)
    (p : IndexParams) (withSuffix : Bool) (ops : List (StringIndex.DocOp (List Bytes)))
    (hops : ∀ op ∈ ops, op.id < kInvalidDocId) (term : Bytes)
    (hterm : ∀ c ∈ term, isAsciiSpace c = false) :
    ((searchTerm arrangement T synonyms
      (StringIndex.run p (T.tokenize synonyms) withSuffix ops).1 term).take
        noLimit).1 =
      (docsWith (HasWord (Sought T synonyms term))
        (StringIndex.run p (T.tokenize synonyms) withSuffix ops).2).sort ↔
      ∀ d ∈ (StringIndex.run p (T.tokenize synonyms) withSuffix ops).2.list,
        (∀ word ∈ Tokenizer.words d.2, Sought T synonyms term word → Lost T synonyms term word) →
          (HasWord (Sought T synonyms term) d.2 ↔ HasWord (Stray T synonyms term) d.2) := by
  rw [searchTerm_take arrangement (represents_run withSuffix ops)
    (fun id doc hfind => find?_run (· < kInvalidDocId) hops hfind) hterm]
  generalize (run p (T.tokenize synonyms) withSuffix ops).2 = docs
  have hwords : ∀ texts, HasWord (Hits T synonyms term) texts ↔
      (∃ word ∈ Tokenizer.words texts, Sought T synonyms term word ∧ ¬ Lost T synonyms term word) ∨
        HasWord (Stray T synonyms term) texts := by
    simp [HasWord, hits_iff hdisjoint, and_or_left, exists_or]
  rw [sort_inj]
  constructor
  · intro heq d hd hlost
    have hfound := Finset.ext_iff.mp heq d.1
    have hfind : docs.find? d.1 = some d.2 := SortedMap.find?_eq_some_iff.mpr hd
    simp only [mem_docsWith, hfind, some.injEq, exists_eq_left', hwords] at hfound
    rw [← hfound]
    exact or_iff_right fun ⟨word, hword, hsought, hnot⟩ => hnot (hlost word hword hsought)
  · intro hcond
    ext id
    simp only [mem_docsWith, hwords]
    refine exists_congr fun texts => and_congr_right fun hfind => ?_
    by_cases hlost : ∀ word ∈ Tokenizer.words texts, Sought T synonyms term word →
      Lost T synonyms term word
    · rw [hcond (id, texts) (SortedMap.find?_eq_some_iff.mp hfind) hlost]
      exact or_iff_right fun ⟨word, hword, hsought, hnot⟩ => hnot (hlost word hword hsought)
    · push Not at hlost
      obtain ⟨word, hword, hsought, hnot⟩ := hlost
      exact iff_of_true (.inl ⟨word, hword, hsought, hnot⟩) ⟨word, hword, hsought⟩

/-- ASCII words without stop words and stems. -/
def plainWords : Tokenizer := ⟨asciiCase, [], none⟩

/-- The words `a` and `b` in a group with a given id of one letter. -/
def groupOfTwo (id : UInt8) : Synonyms := ⟨[([id], [[97], [98]])], List.nodup_singleton _⟩

def oneDocument : List (StringIndex.DocOp (List Bytes)) := [.add 1 [[97]]]

/-- With the group `g`, a search for `b` finds the document. -/
theorem searchTerm_lower_case_group :
    ((searchTerm .bySize plainWords (groupOfTwo 103)
        (StringIndex.run ⟨true, true⟩ (plainWords.tokenize (groupOfTwo 103)) false oneDocument).1
        [98]).take noLimit).1 =
      (docsWith (HasWord (Sought plainWords (groupOfTwo 103) [98]))
        (StringIndex.run ⟨true, true⟩
          (plainWords.tokenize (groupOfTwo 103)) false oneDocument).2).sort :=
  (searchTerm_right_iff plainWords (groupOfTwo 103) (pairwise_singleton _ _) .bySize
    ⟨true, true⟩ false
    oneDocument (by decide) [98] (by decide +kernel)).mpr (by decide +kernel)

/-- With the group `G` it does not. -/
theorem searchTerm_upper_case_group :
    ((searchTerm .bySize plainWords (groupOfTwo 71)
        (StringIndex.run ⟨true, true⟩ (plainWords.tokenize (groupOfTwo 71)) false oneDocument).1
        [98]).take noLimit).1 =
      [] ∧
      docsWith (HasWord (Sought plainWords (groupOfTwo 71) [98]))
        (StringIndex.run ⟨true, true⟩ (plainWords.tokenize (groupOfTwo 71)) false oneDocument).2 =
          {1} := by
  decide +kernel

end Search

end Drakeydb.Search
