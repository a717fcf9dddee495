import Drakeydb.Search.Iterators
import Mathlib.Algebra.Order.BigOperators.Group.List
import Mathlib.Algebra.Order.Group.Nat

/-!
# Phrases

Matching a phrase in `core/search/search.cc`: `IntersectAdjacentDocs` looks for the documents that
are in the posting lists of all terms, by seeking each iterator to the greatest document that one of
them stands at, and `HasPhraseRun` asks whether such a document has the terms in order, with no more
than `slop` words between two of them. An iterator is the part of the posting list that lies ahead
of it.

The end of the window for the next position is computed with 32 bits. If it wraps around, the window
is empty.
-/

namespace Drakeydb.Search.Phrase

open List Lib

/-! ## §1 The code -/

def canExtendPhrase (slop : ℕ) : List (List ℕ) → ℕ → Bool
  | [], _ => true
  | p :: positions, cur =>
    let upper := (cur + slop + 1) % 2 ^ 32
    ((p.dropWhile fun q => !decide (cur < q)).takeWhile (· ≤ upper)).any
      (canExtendPhrase slop positions)

def hasPhraseRun (slop : ℕ) : List (List ℕ) → Bool
  | [] => false
  | first :: positions => first.any (canExtendPhrase slop positions)

/-- A posting list: documents with the positions of a term. -/
abbrev Postings := List (ℕ × List ℕ)

/-- The document that an iterator stands at. -/
def docId (it : Postings) : ℕ := (it.head?.map Prod.fst).getD 0

def positions (it : Postings) : List ℕ := (it.head?.map Prod.snd).getD []

def seekGE (minDocId : ℕ) (it : Postings) : Postings := it.dropWhile (·.1 < minDocId)

/-- What lies ahead of an iterator over the blocks of a posting list, after `SeekGE` and after `++`.
-/
theorem entries_seekGE_next {it : BlockIter (ℕ × List ℕ)} (h : it.Valid Prod.fst)
    (randomAccess : Bool) (minDocId : ℕ) :
    (it.seekGE Prod.fst randomAccess minDocId).entries = seekGE minDocId it.entries ∧
      it.next.entries = it.entries.tail :=
  ⟨(BlockIter.seekGE_spec randomAccess minDocId h).2, (BlockIter.next_spec h).2⟩

/-- The loop of `IntersectAdjacentDocs`, of so many rounds at most. -/
def intersectFrom (slop : ℕ) : ℕ → List Postings → Option (List ℕ)
  | 0, _ => none
  | rounds + 1, iters =>
    if [] ∈ iters then some []
    else
      let maxId := ((iters.map docId).max?).getD 0
      let iters := iters.map (seekGE maxId)
      if [] ∈ iters then some []
      else
        let d := docId (iters.headD [])
        if ∀ it ∈ iters, docId it = d then
          (intersectFrom slop rounds (iters.map tail)).map fun docs =>
            if hasPhraseRun slop (iters.map positions) then d :: docs else docs
        else intersectFrom slop rounds iters

/-- `IntersectAdjacentDocs`: each round leaves at least one posting behind. -/
def intersectAdjacentDocs (lists : List Postings) (slop : ℕ) : Option (List ℕ) :=
  intersectFrom slop (lists.flatten.length + 1) lists

/-! ## §2 Runs -/

/-- Two positions with at most so many words in between. -/
def Follows (slop p q : ℕ) : Prop := p < q ∧ q - p - 1 ≤ slop

/-- A run: one position of each term, related one to the next. -/
def Run (R : ℕ → ℕ → Prop) (terms : List (List ℕ)) : Prop := ∃ run, Forall₂ (· ∈ ·) run terms ∧
    run.IsChain R

/-- The window of a position does not wrap around. -/
def Fits (slop p q : ℕ) : Prop := Follows slop p q ∧ p + slop + 1 < 2 ^ 32

variable {slop cur : ℕ} {p : List ℕ}

theorem mem_window {q : ℕ} (hslop : slop < 2 ^ 32) (hcur : cur < 2 ^ 32) (hp : p.Pairwise (· < ·)) :
    q ∈ (p.dropWhile fun q => !decide (cur < q)).takeWhile (· ≤ (cur + slop + 1) % 2 ^ 32) ↔
      q ∈ p ∧ Fits slop cur q := by
  have hlo : FromSome (fun q => decide (cur < q)) p := hp.imp fun hlt h => by simp at h ⊢; omega
  have hhi : UpToSome (· ≤ (cur + slop + 1) % 2 ^ 32) p := hp.imp fun hlt h => by simp at h ⊢; omega
  rw [(hhi.dropWhile _).takeWhile_eq_filter, hlo.dropWhile_eq_filter, mem_filter,
    mem_filter, and_assoc]
  refine and_congr_right fun _ => ?_
  simp only [decide_eq_true_eq, Fits, Follows]
  omega

variable {terms : List (List ℕ)}

theorem exists_run_cons {P : List ℕ → Prop} :
    (∃ run, Forall₂ (· ∈ ·) run (p :: terms) ∧ P run) ↔
      ∃ q ∈ p, ∃ run, Forall₂ (· ∈ ·) run terms ∧ P (q :: run) := by
  constructor
  · rintro ⟨_, hrun, h⟩
    obtain _ | ⟨hq, hrun⟩ := hrun
    exact ⟨_, hq, _, hrun, h⟩
  · rintro ⟨q, hq, run, hrun, h⟩
    exact ⟨q :: run, .cons hq hrun, h⟩

theorem canExtendPhrase_iff (hslop : slop < 2 ^ 32) (hcur : cur < 2 ^ 32)
    (hterms : ∀ p ∈ terms, p.Pairwise (· < ·) ∧ ∀ q ∈ p, q < 2 ^ 32) :
    canExtendPhrase slop terms cur = true ↔
      ∃ run, Forall₂ (· ∈ ·) run terms ∧ (cur :: run).IsChain (Fits slop) := by
  induction terms generalizing cur with
  | nil => simp [canExtendPhrase]
  | cons p terms ih =>
    obtain ⟨⟨hp, hlt⟩, hterms⟩ := forall_mem_cons.mp hterms
    rw [canExtendPhrase, any_eq_true, exists_run_cons]
    refine exists_congr fun q => ?_
    rw [mem_window hslop hcur hp, and_assoc]
    refine and_congr_right fun hq => ?_
    rw [ih (hlt q hq) hterms]
    simp only [isChain_cons_cons, exists_and_left, and_left_comm]

/-- **The runs that are found**: those with windows that do not wrap around. -/
theorem hasPhraseRun_iff (hslop : slop < 2 ^ 32) (hne : terms ≠ [])
    (hterms : ∀ p ∈ terms, p.Pairwise (· < ·) ∧ ∀ q ∈ p, q < 2 ^ 32) :
    hasPhraseRun slop terms = true ↔ Run (Fits slop) terms := by
  cases terms with
  | nil => exact absurd rfl hne
  | cons first terms =>
    obtain ⟨⟨-, hlt⟩, hterms⟩ := forall_mem_cons.mp hterms
    rw [hasPhraseRun, any_eq_true, Run, exists_run_cons]
    exact exists_congr fun q => and_congr_right fun hq =>
      canExtendPhrase_iff hslop (hlt q hq) hterms

/-! ## §3 Documents -/

/-- The positions of a term in a document. -/
def positionsAt (d : ℕ) (it : Postings) : List ℕ := (it.lookup d).getD []

def Common (lists : List Postings) (d : ℕ) : Prop := ∀ it ∈ lists, (it.lookup d).isSome = true

theorem lookup_seekGE {m d : ℕ} (hm : m ≤ d) (it : Postings) :
    (seekGE m it).lookup d = it.lookup d := by
  induction it with
  | nil => rfl
  | cons e it ih =>
    rw [seekGE, dropWhile_cons]
    split
    case isTrue hlt =>
      have hne : (d == e.1) = false := beq_false_of_ne ((of_decide_eq_true hlt).trans_le hm).ne'
      rw [lookup_cons, hne]
      exact ih
    case isFalse => rfl

variable {it : Postings} {iters : List Postings} {d : ℕ}

theorem mem_of_lookup {ps : List ℕ} (h : it.lookup d = some ps) : (d, ps) ∈ it := by
  obtain ⟨_, _, rfl, -⟩ := lookup_eq_some_iff.mp h
  exact mem_append_right _ mem_cons_self

/-- The documents that are found from the iterators on. -/
def Finds (slop : ℕ) (iters : List Postings) (docs : List ℕ) : Prop :=
  docs.Pairwise (· < ·) ∧ ∀ d, d ∈ docs ↔ Common iters d ∧
    hasPhraseRun slop (iters.map (positionsAt d)) = true

theorem finds_nil (h : [] ∈ iters) : Finds slop iters [] :=
  ⟨.nil, fun _ => iff_of_false not_mem_nil fun hd => nomatch hd.1 [] h⟩

theorem docId_le (h : it.Pairwise (·.1 < ·.1)) (hd : (it.lookup d).isSome = true) :
    docId it ≤ d := by
  obtain ⟨ps, hlookup⟩ := Option.isSome_iff_exists.mp hd
  cases it with
  | nil => cases hd
  | cons e it =>
    rcases mem_cons.mp (mem_of_lookup hlookup) with rfl | hmem
    · exact le_rfl
    · exact ((pairwise_cons.mp h).1 _ hmem).le

theorem length_seekGE_le (m : ℕ) (it : Postings) : (seekGE m it).length ≤ it.length :=
  (dropWhile_sublist _).length_le

theorem length_seekGE_lt {m : ℕ} (hne : it ≠ []) (hlt : docId it < m) :
    (seekGE m it).length < it.length := by
  cases it with
  | nil => exact absurd rfl hne
  | cons e it =>
    have htrue : decide (e.1 < m) = true := decide_eq_true hlt
    rw [seekGE, dropWhile_cons, if_pos htrue]
    exact Nat.lt_succ_of_le (length_seekGE_le m it)

theorem seekGE_eq_self {m : ℕ} (hle : m ≤ docId it) : seekGE m it = it := by
  cases it with
  | nil => rfl
  | cons e it =>
    rw [seekGE, dropWhile_cons, if_neg]
    exact fun hlt => (of_decide_eq_true hlt).not_ge hle

variable {m : ℕ} {docs : List ℕ}

/-- Seeking the greatest document leaves none behind that is in all lists. -/
theorem Finds.of_seekGE (hsorted : ∀ it ∈ iters, it.Pairwise (·.1 < ·.1))
    (hm : ∃ it ∈ iters, docId it = m) (h : Finds slop (iters.map (seekGE m)) docs) :
      Finds slop iters docs := by
  obtain ⟨it, hit, rfl⟩ := hm
  refine ⟨h.1, fun d => (h.2 d).trans ?_⟩
  by_cases hle : docId it ≤ d
  · simp only [Common, forall_mem_map, map_map, Function.comp_def, positionsAt, lookup_seekGE hle]
    rfl
  · refine iff_of_false (fun hd => hle ?_) fun hd => hle (docId_le (hsorted it hit) (hd.1 it hit))
    have hin := hd.1 _ (mem_map_of_mem hit)
    rw [seekGE_eq_self le_rfl] at hin
    exact docId_le (hsorted it hit) hin

/-- All iterators stand at one document: it is decided, and the others come later. -/
theorem Finds.of_tail (hne : iters ≠ []) (hin : [] ∉ iters)
    (hsorted : ∀ it ∈ iters, it.Pairwise (·.1 < ·.1)) (hall : ∀ it ∈ iters, docId it = d)
    (h : Finds slop (iters.map tail) docs) :
    Finds slop iters (if hasPhraseRun slop (iters.map positions) then d :: docs else docs) := by
  have hcons (it) (hit : it ∈ iters) : it = (d, positions it) :: it.tail := by
    have hd := hall it hit
    cases it with
    | nil => exact absurd hit hin
    | cons e it => exact congrArg₂ cons (Prod.ext hd rfl) rfl
  have hlater : ∀ d' ∈ docs, d < d' := by
    intro d' hd'
    obtain ⟨it, hit⟩ := exists_mem_of_ne_nil _ hne
    obtain ⟨ps, hlookup⟩ := Option.isSome_iff_exists.mp (((h.2 d').mp hd').1 _ (mem_map_of_mem hit))
    have hpair := hsorted it hit
    rw [hcons it hit] at hpair
    exact (pairwise_cons.mp hpair).1 _ (mem_of_lookup hlookup)
  refine ⟨?_, fun d' => ?_⟩
  · split
    · exact pairwise_cons.mpr ⟨hlater, h.1⟩
    · exact h.1
  by_cases hd : d' = d
  · have hlookup (it) (hit : it ∈ iters) : it.lookup d' = some (positions it) := by
      rw [hcons it hit, hd, lookup_cons_self]
      rfl
    have hcommon : Common iters d' := fun it hit => by rw [hlookup it hit]; rfl
    have hpositions : iters.map (positionsAt d') = iters.map positions :=
      map_congr_left fun it hit => by
      rw [positionsAt, hlookup it hit]
      rfl
    rw [hpositions, and_iff_right hcommon, hd]
    split
    case isTrue hrun => exact iff_of_true mem_cons_self hrun
    case isFalse hrun => exact iff_of_false (fun hmem => (hlater d hmem).false) hrun
  · have hlookup (it) (hit : it ∈ iters) : it.lookup d' = it.tail.lookup d' := by
      rw [hcons it hit, lookup_cons, beq_false_of_ne hd]
      rfl
    have hcommon : Common iters d' ↔ Common (iters.map tail) d' := by
      rw [Common, Common, forall_mem_map]
      exact forall₂_congr fun it hit => by rw [hlookup it hit]
    have hpositions : iters.map (positionsAt d') = (iters.map tail).map (positionsAt d') := by
      rw [map_map]
      exact map_congr_left fun it hit => congrArg (Option.getD · []) (hlookup it hit)
    rw [hcommon, hpositions, ← h.2 d']
    split
    · rw [mem_cons, or_iff_right hd]
    · rfl

theorem length_map_lt {f : Postings → Postings} (hle : ∀ it ∈ iters, (f it).length ≤ it.length)
    (hlt : ∃ it ∈ iters, (f it).length < it.length) :
    (iters.map f).flatten.length < iters.flatten.length := by
  rw [length_flatten, length_flatten, map_map]
  exact sum_lt_sum _ _ hle hlt

/-- **The documents that are found**, within so many rounds as there are postings. -/
theorem intersectFrom_spec (slop : ℕ) {rounds : ℕ} (hne : iters ≠ [])
    (hsorted : ∀ it ∈ iters, it.Pairwise (·.1 < ·.1)) (hrounds : iters.flatten.length < rounds) :
    ∃ docs, intersectFrom slop rounds iters = some docs ∧ Finds slop iters docs := by
  induction rounds generalizing iters with
  | zero => exact absurd hrounds (Nat.not_lt_zero _)
  | succ rounds ih =>
    rw [intersectFrom]
    split
    case isTrue hend => exact ⟨[], rfl, finds_nil hend⟩
    case isFalse hin =>
      dsimp only
      obtain ⟨m, hmax⟩ : ∃ m, (iters.map docId).max? = some m :=
        Option.isSome_iff_exists.mp (by simp [isSome_max?_iff, hne])
      obtain ⟨hm, hle⟩ := max?_eq_some_iff.mp hmax
      rw [hmax, Option.getD_some]
      have hseek {docs : List ℕ} : Finds slop (iters.map (seekGE m)) docs → Finds slop iters docs :=
        .of_seekGE hsorted (mem_map.mp hm)
      have hne' : iters.map (seekGE m) ≠ [] := mt map_eq_nil_iff.mp hne
      have hsorted' : ∀ it ∈ iters.map (seekGE m), it.Pairwise (·.1 < ·.1) :=
        forall_mem_map.mpr fun it hit => (hsorted it hit).sublist (dropWhile_sublist _)
      split
      case isTrue hend => exact ⟨[], rfl, hseek (finds_nil hend)⟩
      case isFalse hin' =>
        split
        case isTrue hall =>
          have hsum := length_map_lt (f := tail) (fun it _ => (tail_sublist it).length_le) <| by
            obtain ⟨it, hit⟩ := exists_mem_of_ne_nil _ hne'
            have hpos := length_pos_iff.mpr (ne_of_mem_of_not_mem hit hin')
            exact ⟨it, hit, by rw [length_tail]; omega⟩
          have hle' : (iters.map (seekGE m)).flatten.length ≤ iters.flatten.length := by
            rw [length_flatten, length_flatten, map_map]
            exact sum_le_sum fun it _ => length_seekGE_le m it
          obtain ⟨docs, hdocs, hfinds⟩ := ih (mt map_eq_nil_iff.mp hne')
            (forall_mem_map.mpr fun it hit =>
              (hsorted' it hit).sublist (tail_sublist it)) (by omega)
          rw [hdocs]
          exact ⟨_, rfl, hseek (.of_tail hne' hin' hsorted' hall hfinds)⟩
        case isFalse hnot =>
          -- an iterator stood before the greatest document, or they would all stand at it
          have hlt : ∃ it ∈ iters, docId it < m := by
            by_contra hge
            push Not at hge
            have hall : ∀ it ∈ iters.map (seekGE m), docId it = m :=
              forall_mem_map.mpr fun it hit => by
              rw [seekGE_eq_self (hge it hit)]
              exact le_antisymm (hle _ (mem_map_of_mem hit)) (hge it hit)
            obtain ⟨it, its, hcons⟩ := exists_cons_of_ne_nil hne'
            rw [hcons] at hnot hall
            exact hnot fun it' hit' => (hall it' hit').trans (hall it mem_cons_self).symm
          obtain ⟨it, hit, hlt⟩ := hlt
          have hsum := length_map_lt (fun it _ => length_seekGE_le m it)
            ⟨it, hit, length_seekGE_lt (ne_of_mem_of_not_mem hit hin) hlt⟩
          obtain ⟨docs, hdocs, hfinds⟩ := ih hne' hsorted' (by omega)
          exact ⟨docs, hdocs, hseek hfinds⟩

/-! ## §4 The right documents -/

/-- A posting list: documents and positions increase, and these have 32 bits. -/
structure Postings.Ok (it : Postings) : Prop where
  docs : it.Pairwise (·.1 < ·.1)
  positions : ∀ e ∈ it, e.2.Pairwise (· < ·) ∧ ∀ q ∈ e.2, q < 2 ^ 32

theorem Postings.Ok.positionsAt (h : it.Ok) (d : ℕ) :
    (positionsAt d it).Pairwise (· < ·) ∧ ∀ q ∈ positionsAt d it, q < 2 ^ 32 := by
  rw [Phrase.positionsAt]
  cases hlookup : it.lookup d with
  | none => exact ⟨.nil, forall_mem_nil _⟩
  | some ps => exact h.positions (d, ps) (mem_of_lookup hlookup)

/-- **Phrases**: the search ends, and it finds the documents with a run of the terms if and only if
each of them has a run whose positions, but for the last one, have a window that does not wrap
around. -/
theorem intersectAdjacentDocs_exact_iff {lists : List Postings} (hlen : 2 ≤ lists.length)
    (hok : ∀ it ∈ lists, it ≠ [] ∧ it.Ok) {slop : ℕ} (hslop : slop < 2 ^ 32) :
    (∃ docs, intersectAdjacentDocs lists slop = some docs ∧ docs.Pairwise (· < ·) ∧
      ∀ d, d ∈ docs ↔ Common lists d ∧ Run (Follows slop) (lists.map (positionsAt d))) ↔
    ∀ d, Common lists d → Run (Follows slop) (lists.map (positionsAt d)) →
      Run (Fits slop) (lists.map (positionsAt d)) := by
  have hne : lists ≠ [] := ne_nil_of_length_pos (by omega)
  obtain ⟨docs, hdocs, hpairwise, hmem⟩ := intersectFrom_spec slop hne
    (fun it hit => (hok it hit).2.docs) (Nat.lt_succ_self _)
  have hrun (d : ℕ) : hasPhraseRun slop (lists.map (positionsAt d)) = true ↔
      Run (Fits slop) (lists.map (positionsAt d)) :=
    hasPhraseRun_iff hslop (mt map_eq_nil_iff.mp hne)
      (forall_mem_map.mpr fun it hit => (hok it hit).2.positionsAt d)
  simp only [hrun] at hmem
  constructor
  · rintro ⟨docs', hdocs', -, hmem'⟩ d hd hfollows
    obtain rfl := Option.some.inj (hdocs.symm.trans hdocs')
    exact ((hmem d).mp ((hmem' d).mpr ⟨hd, hfollows⟩)).2
  · intro hfits
    refine ⟨docs, hdocs, hpairwise, fun d =>
      (hmem d).trans (and_congr_right fun hd => ⟨?_, hfits d hd⟩)⟩
    rintro ⟨run, hrun, hchain⟩
    exact ⟨run, hrun, hchain.imp fun _ _ h => h.1⟩

/-- Two words with one in between. -/
theorem intersectAdjacentDocs_exact_one_between :
    ∃ docs, intersectAdjacentDocs [[(1, [0])], [(1, [2])]] 1 = some docs ∧ docs.Pairwise (· < ·) ∧
      ∀ d, d ∈ docs ↔ Common [[(1, [0])], [(1, [2])]] d ∧
        Run (Follows 1) ([[(1, [0])], [(1, [2])]].map (positionsAt d)) := by
  refine (intersectAdjacentDocs_exact_iff (by decide) ?_ (by decide)).mpr fun d hd _ => ?_
  · simp only [forall_mem_cons]
    exact ⟨⟨nofun, by decide, by decide⟩, ⟨nofun, by decide, by decide⟩, forall_mem_nil _⟩
  · obtain rfl : d = 1 := by simpa [Common] using hd
    exact ⟨[0, 2], .cons (by decide) (.cons (by decide) .nil), by simp [Fits, Follows]⟩

/-- With the greatest slop, two words in a row are not found. -/
theorem intersectAdjacentDocs_wraps :
    intersectAdjacentDocs [[(1, [0])], [(1, [1])]] 4294967295 = some [] ∧
      Common [[(1, [0])], [(1, [1])]] 1 ∧
      Run (Follows 4294967295) ([[(1, [0])], [(1, [1])]].map (positionsAt 1)) :=
  ⟨by decide, by simp [Common], [0, 1], .cons (by decide) (.cons (by decide) .nil), by
    simp [Follows]⟩

end Drakeydb.Search.Phrase
