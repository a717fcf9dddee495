import Drakeydb.Zset.SortedMap

/-!
# Queries of a `SortedMap`

Every query of scores answers with the interval, and so does every query of members, if an infinite
string at the wrong end is read as the string that stands at its address.
-/

namespace Drakeydb.Zset

open List Option Drakeydb.Zset.Interval

open Search (Bytes)
open Lib
open BPTreeSet (BPTree Path wordLayout Node.Cuts)

variable {σ : Type} [LinearOrder σ] {xs : List (Entry σ)}

/-! ## §1 Intervals as they are read -/

/-- The lower end of a range as the tree reads it. -/
def LexBound.lowerAsRead : LexBound → LexBound
  | .plusInf => .closed LexStr.cmaxstring.data
  | b => b

/-- The upper end of a range as the tree reads it. -/
def LexBound.upperAsRead : LexBound → LexBound
  | .minusInf => .closed LexStr.cminstring.data
  | b => b

/-- The interval that a `SortedMap` answers for. -/
def Interval.asRead (reverse : Bool) : Interval σ → Interval σ
  | .score first second => .score first second
  | .lex first second =>
    if reverse then .lex first.upperAsRead second.lowerAsRead
    else .lex first.lowerAsRead second.upperAsRead

omit [LinearOrder σ] in
theorem Interval.Applies.asRead {iv : Interval σ} (happ : iv.Applies xs) (reverse : Bool) :
    (iv.asRead reverse).Applies xs := by
  cases iv with
  | score first second => trivial
  | lex first second => cases reverse <;> exact happ

variable (b : LexBound)

theorem LexBound.lowerAsRead_cases :
    (b = .minusInf ∧ ∀ m, b.lowerAsRead.below m = true) ∨
      getLexStr b ≠ .cminstring ∧
        ∀ m, b.lowerAsRead.below m = (Bound.mk (getLexStr b).data b.isOpen).below m := by
  cases b with
  | minusInf => exact .inl ⟨rfl, fun _ => rfl⟩
  | plusInf | opened val | closed val => exact .inr ⟨by simp [getLexStr], fun _ => rfl⟩

theorem LexBound.upperAsRead_cases :
    (b = .plusInf ∧ ∀ m, b.upperAsRead.above m = true) ∨
      getLexStr b ≠ .cmaxstring ∧
        ∀ m, b.upperAsRead.above m = (Bound.mk (getLexStr b).data b.isOpen).above m := by
  cases b with
  | plusInf => exact .inl ⟨rfl, fun _ => rfl⟩
  | minusInf | opened val | closed val => exact .inr ⟨by simp [getLexStr], fun _ => rfl⟩

namespace SortedMap

/-! ## §2 Comparisons with a query -/

variable {e : Entry σ} {score : σ}

theorem scoredKey_ne_gt {inf : Bool} :
    (scoredKey score inf).compareTo e ≠ .gt ↔ (Bound.mk score inf).below e.score = true := by
  have hempty : sdscmp [] e.member ≠ .gt := by rw [Ne, sdscmp_gt_iff]; exact not_lt_nil _
  simp only [Query.compareTo, scoredKey, Query.compareStr, Bound.below]
  rcases lt_trichotomy score e.score with hlt | rfl | hgt
  · cases inf <;> simp [hlt, hlt.le]
  · cases inf <;> simp [hempty]
  · cases inf <;> simp [hgt, hgt.not_gt, hgt.not_ge]

theorem sdscmp_nil_lt_iff {m : Bytes} : sdscmp [] m = .lt ↔ m ≠ [] := by
  cases m <;> simp [sdscmp, memcmp, compare, compareOfLessAndEq]

variable {isOpen : Bool}

/-- A query of an open upper end stands before the member without bytes. -/
theorem scoredKey_ne_lt : (scoredKey score (!isOpen)).compareTo e ≠ .lt ↔
      (Bound.mk score isOpen).above e.score = true ∨ isOpen = true ∧ score = e.score ∧
        e.member = [] := by
  have hempty : sdscmp [] e.member ≠ .lt ↔ e.member = [] := by simp [Ne, sdscmp_nil_lt_iff]
  simp only [Query.compareTo, scoredKey, Query.compareStr, Bound.above]
  rcases lt_trichotomy score e.score with hlt | rfl | hgt
  · cases isOpen <;> simp [hlt, hlt.not_gt, hlt.not_ge, hlt.ne]
  · cases isOpen <;> simp [hempty]
  · cases isOpen <;> simp [hgt, hgt.not_gt, hgt.le, hgt.ne']

/-- An upper end of scores is what is not below its query, without the entry it ends with. -/
theorem above_iff_scoredKey (b : Bound σ) (e : Entry σ) :
    b.above e.score = true ↔ (scoredKey b.val (!b.isOpen)).compareTo e ≠ .lt ∧
      (b.isOpen && decide (b.val = e.score)) = false := by
  obtain ⟨val, isOpen⟩ := b
  rw [scoredKey_ne_lt]
  cases isOpen with
  | false => simp
  | true =>
    simp only [Bound.above_open, true_and, Bool.true_and, decide_eq_false_iff_not]
    constructor
    · exact fun hlt => ⟨.inl hlt, hlt.ne'⟩
    · rintro ⟨hlt | ⟨heq, -⟩, hne⟩
      · exact hlt
      · exact absurd heq hne

theorem not_end_of_scoredKey {b : Bound σ} (h : (scoredKey b.val (!b.isOpen)).compareTo e = .gt) :
    (b.isOpen && decide (b.val = e.score)) = false := by
  refine Bool.eq_false_iff.mpr fun hend => scoredKey_ne_gt.mpr ?_ h
  rw [Bool.and_eq_true, decide_eq_true_eq] at hend
  simp [hend, Bound.below]

variable (str : LexStr)

theorem lexKey_compareTo (e : Entry σ) : (lexKey str).compareTo e = sdscmp str.data e.member := rfl

theorem sdscmp_beq_eq {a b : Bytes} : (sdscmp a b == .eq) = decide (a = b) := by
  rw [Bool.eq_iff_iff, beq_iff_eq, sdscmp_eq_iff, decide_eq_true_iff]

/-- A lower end of members is what its query is not above, without the entry it ends with. -/
theorem below_iff_lexKey (isOpen : Bool) (e : Entry σ) :
    (Bound.mk str.data isOpen).below e.member = true ↔ (lexKey str).compareTo e ≠ .gt ∧
      (isOpen && sdscmp e.member str.data == .eq) = false := by
  rw [lexKey_compareTo, Ne, sdscmp_gt_iff, not_lt, sdscmp_beq_eq, Bound.below_iff,
    Bool.eq_false_iff, Ne, Bool.and_eq_true, decide_eq_true_eq]

/-- An upper end of members is what its query is not below, without the entry it ends with. -/
theorem above_iff_lexKey (isOpen : Bool) (e : Entry σ) :
    (Bound.mk str.data isOpen).above e.member = true ↔ (lexKey str).compareTo e ≠ .lt ∧
      (isOpen && sdscmp e.member str.data == .eq) = false := by
  rw [lexKey_compareTo, Ne, sdscmp_lt_iff, not_lt, sdscmp_beq_eq, Bound.above_iff,
    Bool.eq_false_iff, Ne, Bool.and_eq_true, decide_eq_true_eq]

theorem not_end_of_lexKey {str : LexStr} (h : (lexKey str).compareTo e ≠ .eq) :
    (isOpen && sdscmp e.member str.data == .eq) = false := by
  refine Bool.eq_false_iff.mpr fun hend => h ?_
  rw [sdscmp_beq_eq, Bool.and_eq_true, decide_eq_true_eq] at hend
  rw [lexKey_compareTo, sdscmp_eq_iff, hend.2]

theorem not_stop_below (b : Bound σ) (s : σ) :
    (!(decide (s < b.val) || decide (b.val = s) && b.isOpen)) = b.below s := by
  obtain ⟨val, isOpen⟩ := b
  rcases lt_trichotomy val s with hlt | rfl | hgt
  · cases isOpen <;> simp [Bound.below, hlt, hlt.le, hlt.not_gt, hlt.ne]
  · cases isOpen <;> simp [Bound.below]
  · cases isOpen <;> simp [Bound.below, hgt, hgt.not_ge, hgt.not_gt]

theorem not_stop_above (b : Bound σ) (s : σ) :
    (!(decide (b.val < s) || decide (b.val = s) && b.isOpen)) = b.above s :=
  not_stop_below (σ := σᵒᵈ) b s

theorem not_stop_below_lex (m : Bytes) :
    (!(getLexStr b != .cminstring && (sdscmp m (getLexStr b).data == .lt ||
      sdscmp m (getLexStr b).data == .eq && b.isOpen))) = b.lowerAsRead.below m := by
  rcases b.lowerAsRead_cases with ⟨rfl, hall⟩ | ⟨hne, hbelow⟩
  · rfl
  · rw [hbelow, bne_iff_ne.mpr hne, Bool.true_and, Bool.eq_iff_iff, Bool.not_eq_true',
      Bool.or_eq_false_iff, beq_eq_false_iff_ne, Ne, sdscmp_lt_iff, sdscmp_beq_eq, not_lt,
        Bool.and_comm,
      Bound.below_iff, Bool.eq_false_iff, Ne, Bool.and_eq_true, decide_eq_true_eq]

theorem not_stop_above_lex (m : Bytes) :
    (!(getLexStr b != .cmaxstring && (sdscmp m (getLexStr b).data == .gt ||
      sdscmp m (getLexStr b).data == .eq && b.isOpen))) = b.upperAsRead.above m := by
  rcases b.upperAsRead_cases with ⟨rfl, hall⟩ | ⟨hne, habove⟩
  · rfl
  · rw [habove, bne_iff_ne.mpr hne, Bool.true_and, Bool.eq_iff_iff, Bool.not_eq_true',
      Bool.or_eq_false_iff, beq_eq_false_iff_ne, Ne, sdscmp_gt_iff, sdscmp_beq_eq, not_lt,
        Bool.and_comm,
      Bound.above_iff, Bool.eq_false_iff, Ne, Bool.and_eq_true, decide_eq_true_eq]

theorem Bound.below_flip (val : σ) (isOpen : Bool) (s : σ) :
    (Bound.mk val (!isOpen)).below s = !(Bound.mk val isOpen).above s := by
  cases isOpen <;> simp [Bound.below, Bound.above, ← decide_not]

theorem cuts_scoredKey (hsorted : xs.Pairwise (· < ·)) (score : σ) (inf : Bool) :
    Node.Cuts (scoredKey score inf).compareTo xs := by
  refine hsorted.imp fun {a b} hab => or_iff_not_imp_left.mpr fun ha => ?_
  -- the query is not above the first entry, so it is below the second
  have hle := Entry.score_le_of_lt hab
  simp only [Query.compareTo, scoredKey, Query.compareStr] at ha ⊢
  rcases lt_trichotomy score a.score with hlt | rfl | hgt
  · rw [if_pos (hlt.trans_le hle)]
  · rw [if_neg (lt_irrefl _), if_neg (lt_irrefl _)] at ha
    cases inf with
    | true => exact absurd rfl ha
    | false =>
      rcases Entry.lt_iff.mp hab with hlt | ⟨heq, hmember⟩
      · rw [if_pos hlt]
      · rw [heq, if_neg (lt_irrefl _), if_neg (lt_irrefl _)]
        refine sdscmp_nil_lt_iff.mpr fun hnil => ?_
        rw [hnil] at hmember
        exact absurd hmember (not_lt_nil _)
  · exact absurd (by rw [if_neg hgt.not_gt, if_pos hgt]) ha

theorem cuts_lexKey (hsorted : xs.Pairwise (· < ·)) (heq : ∀ a ∈ xs, ∀ b ∈ xs, a.score = b.score)
    (str : LexStr) : Node.Cuts (lexKey (σ := σ) str).compareTo xs := by
  refine hsorted.imp_of_mem fun {a b} ha hb hab => or_iff_not_imp_left.mpr fun hgt => ?_
  rw [lexKey_compareTo, sdscmp_gt_iff, not_lt] at hgt
  rw [lexKey_compareTo, sdscmp_lt_iff]
  rcases Entry.lt_iff.mp hab with hlt | ⟨-, hmember⟩
  · exact absurd (heq a ha b hb) hlt.ne
  · exact lt_of_le_of_lt hgt hmember

/-! ## §3 Ranges -/

variable {iv : Interval σ} {reverse : Bool}

/-- What an interval has nothing of, a query of it does not answer. -/
theorem window_eq_nil (hnone : ∀ e ∈ xs, iv.contains reverse e = false) (offset limit : ℕ) :
    iv.window reverse offset limit xs = [] := by
  have hfilter : xs.filter (iv.contains reverse) = [] :=
    filter_eq_nil_iff.mpr fun e he => by simp [hnone e he]
  cases reverse <;> simp [window, filter_reverse, hfilter]

variable {offset : ℕ}

theorem window_eq_nil_of_le {limit : ℕ} (h : xs.length ≤ offset ∨ limit = 0) :
    iv.window reverse offset limit xs = [] := by
  rcases h with hle | rfl
  · rw [window, drop_eq_nil_of_le, take_nil]
    refine (length_filter_le _ _).trans ?_
    cases reverse <;> simpa using hle
  · exact take_zero

variable {t : BPTree (Entry σ)} {path : Path} {w : Walker Path (Entry σ)}

variable {ys : List (Entry σ)}

omit [LinearOrder σ] in
/-- A walk from the first entry that is not before a query collects the entries of a bound. It
leaves out the first one if the bound is open and ends there. -/
theorem collect_skipFrom (hread : w.read = t.terminal) {before lo isEnd : Entry σ → Bool}
    (hahead : w.Ahead (BPTree.valid path) (xs.dropWhile before))
    (hlo : ∀ e, lo e = true ↔ before e = false ∧ isEnd e = false)
    (hrest : xs.Pairwise fun a b => before a = false → lo b = true)
    (hoffset : offset + 1 < 2 ^ 32) (stop : Entry σ → Bool) (limit : ℕ) :
    (skipFrom t w offset isEnd (some path)).bind (w.collect stop limit) =
      some ((((xs.dropWhile fun e => !lo e).drop offset).take limit).takeWhile fun e =>
        !stop e) := by
  rw [dropWhile_of_end hlo hrest]
  generalize xs.dropWhile before = ys at *
  rw [BPTree.valid] at hahead
  rw [skipFrom]
  split at hahead
  case isTrue hnil =>
    cases hahead
    rw [if_pos hnil, bind_some, Walker.Ahead.done.collect]
    simp
  case isFalse hne =>
    cases ys with
    | nil => cases hahead
    | cons x ys =>
      rw [if_neg hne, ← hread, hahead.read_eq]
      dsimp only [head?_cons, bind_some]
      cases isEnd x with
      | true =>
        rw [if_pos rfl, Nat.mod_eq_of_lt hoffset]
        exact (hahead.skip (offset + 1)).collect stop limit
      | false => exact (hahead.skip offset).collect stop limit

/-- The loop along the leaves stops at the limit or beyond the interval. -/
theorem collectByPath_eq (hahead : t.forward.Ahead (some path) ys) (range : RangeSpec σ)
    (offset limit : ℕ) :
    collectByPath t path range offset limit =
      some (((ys.drop offset).take limit).takeWhile fun e => zslValueLteMax e.score range) := by
  have hstop : (fun e : Entry σ => !(decide (range.max < e.score) ||
      decide (range.max = e.score) && range.maxex)) = fun e => zslValueLteMax e.score range := by
    funext e
    rw [zslValueLteMax]
    rcases lt_trichotomy range.max e.score with hlt | heq | hgt
    · cases range.maxex <;> simp [hlt, hlt.not_gt, hlt.not_ge]
    · cases range.maxex <;> simp [heq]
    · cases range.maxex <;> simp [hgt, hgt.le, hgt.not_gt, hgt.ne']
  have hskip := hahead.skip offset
  rw [collectByPath, hskip.collect, hstop]
  split
  case isTrue => rfl
  case isFalse =>
    -- the second walk copies as many entries as the first one counted
    rw [bind_some, hskip.collect, takeWhile_eq_self_iff.mpr (by simp)]
    refine congrArg some ?_
    have hpre := takeWhile_prefix (fun e => zslValueLteMax e.score range)
      (l := (ys.drop offset).take limit)
    have hle := hpre.length_le
    rw [length_take] at hle
    have htake := prefix_iff_eq_take.mp hpre
    rw [take_take, Nat.min_eq_left (by omega)] at htake
    exact htake.symm

/-- The answer of a walk from the first entry in the lower end of an interval, without a look at the
    upper end until something is collected. -/
theorem window_of_near (hsorted : xs.Pairwise (· < ·)) (happ : iv.Applies xs) (reverse : Bool)
    (hnear : ((if reverse then xs.reverse else xs).dropWhile fun e =>
      !(if reverse then iv.upper reverse e else iv.lower reverse e)) = ys) (offset limit : ℕ) :
    ((ys.drop offset).take limit).takeWhile
        (fun e => if reverse then iv.lower reverse e else iv.upper reverse e) =
      iv.window reverse offset limit xs := by
  have hlo := iv.fromSome_lower happ hsorted reverse
  have hhi := iv.upToSome_upper happ hsorted reverse
  subst hnear
  cases reverse with
  | false => exact window_eq hlo hhi offset limit
  | true =>
    simp only [↓reduceIte]
    rw [window_eq hhi.reverse hlo.reverse]
    simp only [window, ↓reduceIte, Bool.and_comm]
    rfl

variable {zs : SortedMap σ}

variable {cut : Entry σ → Ordering} (first second : Bound σ) {rank : ℕ}

section

variable (h : zs.Holds xs)
include h

theorem Holds.collect_geq (hne : xs ≠ []) {lo isEnd : Entry σ → Bool} (hcuts : Node.Cuts cut xs)
    (hlo : ∀ e, lo e = true ↔ cut e ≠ .gt ∧ isEnd e = false)
    (hend : ∀ e, cut e = .lt → isEnd e = false)
    (hoffset : offset + 1 < 2 ^ 32) (stop : Entry σ → Bool) (limit : ℕ) :
    (skipFrom zs.scoreTree zs.scoreTree.forward offset isEnd (zs.scoreTree.geq cut)).bind
        (zs.scoreTree.forward.collect stop limit) =
      some ((((xs.dropWhile fun e => !lo e).drop offset).take limit).takeWhile fun e =>
        !stop e) := by
  have hlist := h.toList_eq
  obtain ⟨path, hgeq, hahead⟩ := h.ok.ahead_geq (hlist ▸ hcuts) (hlist ▸ hne)
  rw [hlist] at hahead
  rw [hgeq]
  refine collect_skipFrom rfl hahead (by simpa using hlo)
    (hcuts.imp fun {a b} hab ha => ?_) hoffset stop limit
  have hlt := hab.resolve_left (by simpa using ha)
  exact (hlo b).mpr ⟨by rw [hlt]; decide, hend b hlt⟩

theorem Holds.collect_leq (hne : xs ≠ []) {hi isEnd : Entry σ → Bool} (hcuts : Node.Cuts cut xs)
    (hhi : ∀ e, hi e = true ↔ cut e ≠ .lt ∧ isEnd e = false)
    (hend : ∀ e, cut e = .gt → isEnd e = false)
    (hoffset : offset + 1 < 2 ^ 32) (stop : Entry σ → Bool) (limit : ℕ) :
    (skipFrom zs.scoreTree zs.scoreTree.backward offset isEnd (zs.scoreTree.leq cut)).bind
        (zs.scoreTree.backward.collect stop limit) =
      some ((((xs.reverse.dropWhile fun e => !hi e).drop offset).take limit).takeWhile fun e =>
        !stop e) := by
  have hlist := h.toList_eq
  obtain ⟨path, hleq, hahead⟩ := h.ok.ahead_leq (hlist ▸ hcuts) (hlist ▸ hne)
  rw [hlist] at hahead
  rw [hleq]
  refine collect_skipFrom rfl hahead (by simpa using hhi)
    (pairwise_reverse.mpr (hcuts.imp fun {a b} hab hb => ?_)) hoffset stop limit
  have hgt := hab.resolve_right (by simpa using hb)
  exact (hhi a).mpr ⟨by rw [hgt]; decide, hend a hgt⟩

theorem Holds.collectByPath_geq (hne : xs ≠ []) (first : Bound σ) (range : RangeSpec σ)
    (offset limit : ℕ) :
    ((zs.scoreTree.geq (scoredKey first.val first.isOpen).compareTo).bind fun path =>
        if path = [] then some [] else collectByPath zs.scoreTree path range offset limit) =
      some ((((xs.dropWhile fun e => !first.below e.score).drop offset).take limit).takeWhile
        fun e => zslValueLteMax e.score range) := by
  have hlist := h.toList_eq
  have hcuts := cuts_scoredKey h.zset.sorted first.val first.isOpen
  obtain ⟨path, hgeq, hahead⟩ := h.ok.ahead_geq (hlist ▸ hcuts) (hlist ▸ hne)
  have hbefore : (fun e => (scoredKey first.val first.isOpen).compareTo e == .gt) =
      fun e => !first.below e.score := by
    funext e
    rw [Bool.eq_iff_iff, beq_iff_eq, Bool.not_eq_true', Bool.eq_false_iff, Ne,
      ← scoredKey_ne_gt, not_not]
  rw [hlist, hbefore] at hahead
  rw [hgeq, bind_some]
  split
  case isTrue hnil =>
    rw [hnil] at hahead
    rw [hahead.unique .done]
    simp
  case isFalse hpath =>
    rw [BPTree.valid, if_neg hpath] at hahead
    exact collectByPath_eq hahead range offset limit

/-- **Ranges of scores.** -/
theorem Holds.getRange (offset limit : ℕ) (reverse : Bool) :
    zs.getRange (getZrangeSpec reverse first second) offset limit reverse =
      some ((Interval.score first second).window reverse offset limit xs) := by
  have hsorted := h.zset.sorted
  have happ : (score first second).Applies xs := trivial
  simp only [SortedMap.getRange, h.size_eq]
  split
  case isTrue hnothing => rw [window_eq_nil_of_le hnothing]
  case isFalse hsome =>
    have hlt := h.length_lt
    have hne : xs ≠ [] := ne_nil_of_length_pos (by omega)
    cases reverse with
    | false =>
      rw [if_neg Bool.false_ne_true, ← window_of_near hsorted happ false rfl offset limit]
      exact h.collectByPath_geq hne first (getZrangeSpec false first second) offset limit
    | true =>
      rw [if_pos rfl, ← window_of_near hsorted happ true rfl offset limit]
      refine (h.collect_leq hne (cuts_scoredKey hsorted _ _) (above_iff_scoredKey first)
        (fun e => not_end_of_scoredKey) (by omega) _ limit).trans ?_
      simp only [getZrangeSpec, ↓reduceIte, not_stop_below second]
      rfl

theorem Holds.ahead_fromRank (hlt : rank < xs.length) :
    zs.scoreTree.forward.Ahead (BPTree.valid (zs.scoreTree.fromRank rank)) (xs.drop rank) := by
  obtain ⟨A, x, B, hp, rfl⟩ := h.ok.fromRank (h.toList_eq.symm ▸ hlt)
  rw [BPTree.valid, if_neg hp.ne_nil, ← h.toList_eq, hp.toList_eq, drop_left]
  exact hp.ahead_next h.ok

theorem Holds.ahead_fromRank_back (hlt : rank < xs.length) :
    zs.scoreTree.backward.Ahead (BPTree.valid (zs.scoreTree.fromRank (xs.length - rank - 1)))
      (xs.reverse.drop rank) := by
  have hlist := h.toList_eq
  obtain ⟨A, x, B, hp, hA⟩ := h.ok.fromRank (r := xs.length - rank - 1) (by rw [hlist]; omega)
  have hB : B.reverse.length = rank := by
    rw [← hlist, hp.toList_eq, length_append, length_cons] at hA hlt
    rw [length_reverse]
    omega
  have hdrop : xs.reverse.drop rank = x :: A.reverse := by
    rw [← hlist, hp.toList_eq, reverse_append, reverse_cons, append_assoc, ← hB, drop_left]
    rfl
  rw [BPTree.valid, if_neg hp.ne_nil, hdrop]
  exact hp.ahead_prev h.ok

/-- **Ranges of members**, as they are read. -/
theorem Holds.getLexRange {first second : LexBound}
    (happ : (Interval.lex (σ := σ) first second).Applies xs) (offset limit : ℕ) (reverse : Bool) :
    zs.getLexRange (Zset.getLexRange reverse first second) offset limit reverse =
      some (((Interval.lex first second).asRead reverse).window reverse offset limit xs) := by
  have hsorted := h.zset.sorted
  have happ' := happ.asRead reverse
  simp only [SortedMap.getLexRange, h.size_eq]
  split
  case isTrue hnothing => rw [window_eq_nil_of_le hnothing]
  case isFalse hsome =>
    obtain ⟨hoffset, hlimit⟩ := not_or.mp hsome
    have hlt := h.length_lt
    have hne : xs ≠ [] := ne_nil_of_length_pos (by omega)
    cases reverse with
    | false =>
      rw [if_neg Bool.false_ne_true, ← window_of_near hsorted happ' false rfl offset limit]
      simp only [Zset.getLexRange, asRead, lower, upper, Bool.false_eq_true, ↓reduceIte]
      rcases first.lowerAsRead_cases with ⟨rfl, hall⟩ | ⟨hstr, hbelow⟩
      · -- the walk begins with the first entry
        simp only [hall, Bool.not_true]
        rw [if_neg (by simp [getLexStr]), bind_some,
          (h.ahead_fromRank (Nat.lt_of_not_le hoffset)).collect, dropWhile_const_false]
        simp only [not_stop_above_lex second]
      · simp only [hbelow]
        rw [if_pos hstr, h.collect_geq hne (cuts_lexKey hsorted happ _) (below_iff_lexKey _ _)
          (fun e he => not_end_of_lexKey (by rw [he]; decide)) (by omega)]
        simp only [not_stop_above_lex second]
    | true =>
      rw [if_pos rfl, ← window_of_near hsorted happ' true rfl offset limit]
      simp only [Zset.getLexRange, asRead, lower, upper, ↓reduceIte]
      rcases first.upperAsRead_cases with ⟨rfl, hall⟩ | ⟨hstr, habove⟩
      · -- the walk begins with the last entry
        simp only [hall, Bool.not_true]
        rw [if_neg (by simp [getLexStr]), bind_some,
          (h.ahead_fromRank_back (Nat.lt_of_not_le hoffset)).collect, dropWhile_const_false]
        simp only [not_stop_below_lex second]
      · simp only [habove]
        rw [if_pos hstr, h.collect_leq hne (cuts_lexKey hsorted happ _) (above_iff_lexKey _ _)
          (fun e he => not_end_of_lexKey (by rw [he]; decide)) (by omega)]
        simp only [not_stop_below_lex second]

/-! ## §4 Counts -/

/-- The rank where `GEQ` leads to is the number of entries that the query is above. -/
theorem Holds.rank_geq (hne : xs ≠ []) (hcuts : Node.Cuts cut xs) {before : Entry σ → Bool}
    (hbefore : ∀ e, cut e = .gt ↔ before e = true) :
    (zs.scoreTree.geq cut = some [] ∧ (xs.takeWhile before).length = xs.length) ∨
      ∃ path x, zs.scoreTree.geq cut = some path ∧ path ≠ [] ∧ zs.scoreTree.terminal path = some x ∧
        zs.scoreTree.rank path = (xs.takeWhile before).length ∧ before x = false ∧
        ∃ rest, xs.dropWhile before = x :: rest := by
  have hlist := h.toList_eq
  rcases h.ok.geq_cases (hlist ▸ hcuts) (hlist ▸ hne)
    with ⟨hgeq, hnone⟩ | ⟨path, A, x, B, hgeq, hp, hA, hx⟩
  · refine .inl ⟨hgeq, ?_⟩
    rw [takeWhile_eq_self_iff.mpr fun e he => (hbefore e).mp (hnone e (hlist ▸ he))]
  · have hA' : ∀ a ∈ A, before a = true := fun a ha => (hbefore a).mp (hA a ha)
    have hx' : before x = false := Bool.eq_false_iff.mpr (mt (hbefore x).mpr hx)
    have hcut : xs = A ++ x :: B := hlist ▸ hp.toList_eq
    refine .inr ⟨path, x, hgeq, hp.ne_nil, hp.terminal_eq, ?_, hx', B, ?_⟩
    · rw [hp.rank_eq h.ok, hcut, takeWhile_append_cons hA' hx']
    · rw [hcut, dropWhile_append_cons hA' hx']

end

theorem rankCount_eq (minRank maxRank : ℕ) : rankCount minRank maxRank = maxRank + 1 - minRank := by
  rw [rankCount]
  split <;> omega

section

variable (h : zs.Holds xs)
include h

/-- **Counts of scores.** -/
theorem Holds.count :
    zs.count (getZrangeSpec false first second) =
      some (xs.filter ((Interval.score first second).contains false)).length := by
  have hsorted := h.zset.sorted
  have happ : (score first second).Applies xs := trivial
  have hlen : (xs.filter ((score first second).contains false)).length =
      (xs.takeWhile fun e => second.above e.score).length -
        (xs.takeWhile fun e => !first.below e.score).length :=
    length_filter_window ((score first second).fromSome_lower happ hsorted false)
      ((score first second).upToSome_upper happ hsorted false)
  have hle := ( takeWhile_prefix (fun e : Entry σ => second.above e.score) (l := xs)).length_le
  rw [hlen]
  simp only [SortedMap.count, h.size_eq, getZrangeSpec, Bool.false_eq_true, ↓reduceIte]
  split
  case isTrue hzero => rw [length_eq_zero_iff.mp hzero]; rfl
  case isFalse hpos =>
    have hne : xs ≠ [] := fun hnil => hpos (by rw [hnil]; rfl)
    have hlower : ∀ e : Entry σ, (scoredKey first.val first.isOpen).compareTo e = .gt ↔
        (!first.below e.score) = true := fun e => by
      rw [Bool.not_eq_true', Bool.eq_false_iff, Ne, ← scoredKey_ne_gt, not_not]
    have hupper : ∀ e : Entry σ, (scoredKey second.val (!second.isOpen)).compareTo e = .gt ↔
        second.above e.score = true := fun e => by
      rw [← not_iff_not, ← Ne, scoredKey_ne_gt, Bound.below_flip]
      simp
    rcases h.rank_geq hne (cuts_scoredKey hsorted _ _) hlower with
      ⟨hgeq, hall⟩ | ⟨path, x, hgeq, hpath, -, hrank, -, -⟩
    · simp only [hgeq, ↓reduceIte, hall, Nat.sub_eq_zero_of_le hle]
    · simp only [hgeq, hpath, ↓reduceIte, ← hrank]
      rcases h.rank_geq hne (cuts_scoredKey hsorted _ _) hupper with
        ⟨hgeq', hall⟩ | ⟨path', y, hgeq', hpath', hterm, hrank', hy, -⟩
      · simp only [hgeq', ↓reduceIte, hall]
      · -- the entry that the tree leads to is behind the range
        have hbound : (second.isOpen || decide (second.val < y.score)) = true := by
          obtain ⟨val, isOpen⟩ := second
          cases isOpen with
          | true => rfl
          | false => simpa [Bound.above] using hy
        simp only [hgeq', hpath', hterm, ↓reduceIte, hbound, ← hrank', rankCount_eq]
        split <;> congr 1 <;> omega

section

variable (hne : xs ≠ []) (heq : ∀ a ∈ xs, ∀ b ∈ xs, a.score = b.score)
include hne heq

theorem Holds.geq_lexKey (str : LexStr) :
    (zs.scoreTree.geq (lexKey str).compareTo = some [] ∧ ∀ e ∈ xs, e.member < str.data) ∨
      ∃ path A x B, zs.scoreTree.geq (lexKey str).compareTo = some path ∧ path ≠ [] ∧
        zs.scoreTree.terminal path = some x ∧ zs.scoreTree.rank path = A.length ∧ xs = A ++ x :: B ∧
        (∀ a ∈ A, a.member < str.data) ∧ str.data ≤ x.member ∧ ∀ b ∈ B, str.data < b.member := by
  have hlist := h.toList_eq
  have hcuts := cuts_lexKey h.zset.sorted heq str
  rcases h.ok.geq_cases (hlist ▸ hcuts) (hlist ▸ hne)
    with ⟨hgeq, hnone⟩ | ⟨path, A, x, B, hgeq, hp, hA, hx⟩
  · exact .inl ⟨hgeq, fun e he => sdscmp_gt_iff.mp (hnone e (hlist ▸ he))⟩
  · have hcut : xs = A ++ x :: B := hlist ▸ hp.toList_eq
    refine .inr ⟨path, A, x, B, hgeq, hp.ne_nil, hp.terminal_eq, hp.rank_eq h.ok, hcut,
      fun a ha => sdscmp_gt_iff.mp (hA a ha), ?_, fun b hb => ?_⟩
    · exact not_lt.mp (mt sdscmp_gt_iff.mpr hx)
    · exact sdscmp_lt_iff.mp ((hcut ▸ hcuts).after hx b hb)

/-- The rank at which an interval of members begins. -/
theorem Holds.minLexRank (b : LexBound) (range : LexRangeSpec) (hmin : range.min = getLexStr b)
    (hminex : range.minex = b.isOpen) :
    (minLexRank zs.scoreTree range = some none ∧ ∀ e ∈ xs, b.lowerAsRead.below e.member = false) ∨
      minLexRank zs.scoreTree range =
        some (some (xs.takeWhile fun e => !b.lowerAsRead.below e.member).length) := by
  rw [SortedMap.minLexRank, hmin, hminex]
  rcases b.lowerAsRead_cases with ⟨rfl, hall⟩ | ⟨hstr, hbelow⟩
  · refine .inr ?_
    simp only [hall, Bool.not_true, getLexStr, ↓reduceIte]
    rw [show (xs.takeWhile fun _ => false) = [] by cases xs <;> rfl]
    rfl
  · simp only [hbelow, if_neg hstr]
    rcases h.geq_lexKey hne heq (getLexStr b) with
      ⟨hgeq, hall⟩ | ⟨path, A, x, B, hgeq, hpath, hterm, hrank, hcut, hA, hx, hB⟩
    · exact .inl ⟨by simp [hgeq], fun e he => Bound.not_below_of_lt (hall e he)⟩
    · refine .inr ?_
      have hbefore : ∀ a ∈ A, (!(Bound.mk (getLexStr b).data b.isOpen).below a.member) = true :=
        fun a ha => by rw [Bound.not_below_of_lt (hA a ha)]; rfl
      have hafter : ∀ e ∈ B, (!(Bound.mk (getLexStr b).data b.isOpen).below e.member) = false :=
        fun e he => by rw [Bound.below_of_lt (hB e he)]; rfl
      simp only [hgeq, hpath, ↓reduceIte, hterm, hrank]
      split
      case isTrue hend =>
        -- the entry is the open end itself
        rw [sdscmp_beq_eq, Bool.and_eq_true, decide_eq_true_eq] at hend
        have hxout : (!(Bound.mk (getLexStr b).data b.isOpen).below x.member) = true := by
          rw [hend.1, hend.2, Bool.not_eq_true', Bool.eq_false_iff, Ne, Bound.below_open]
          exact lt_irrefl _
        rw [hcut, append_cons, takeWhile_append_of_neg (A := A ++ [x])]
        · simp
        · exact forall_mem_append.mpr ⟨hbefore, forall_mem_singleton.mpr hxout⟩
        · exact hafter
      case isFalse hend =>
        have hxin : (Bound.mk (getLexStr b).data b.isOpen).below x.member = true := by
          refine (below_iff_lexKey _ _ x).mpr ⟨?_, Bool.eq_false_iff.mpr hend⟩
          rw [lexKey_compareTo, Ne, sdscmp_gt_iff, not_lt]
          exact hx
        rw [hcut, takeWhile_append_cons hbefore (by rw [hxin]; rfl)]

/-- The ranks up to the upper end of a range of members, counted from a first rank. -/
theorem Holds.lexCountFrom {b : LexBound} (hb : b ≠ .minusInf) (range : LexRangeSpec)
    (hmax : range.max = getLexStr b) (hmaxex : range.maxex = b.isOpen) (minRank : ℕ) :
    lexCountFrom zs.scoreTree range minRank =
      some ((xs.takeWhile fun e => b.above e.member).length - minRank) := by
  have hpos := length_pos_iff.mpr hne
  have hlast : rankCount minRank (xs.length - 1) = xs.length - minRank := by
    rw [rankCount_eq]
    omega
  rw [SortedMap.lexCountFrom, hmax, hmaxex, h.size_eq]
  rcases b.upperAsRead_cases with ⟨rfl, hall⟩ | ⟨hstr, habove⟩
  · have hself : (xs.takeWhile fun e => LexBound.plusInf.above e.member) = xs :=
      takeWhile_eq_self_iff.mpr fun e _ => hall e.member
    rw [if_pos (by simp [getLexStr]), hlast, hself]
  · have hread : b.upperAsRead = b := by
      cases b <;> first | rfl | exact absurd rfl hb
    rw [hread] at habove
    simp only [habove, if_neg hstr]
    rcases h.geq_lexKey hne heq (getLexStr b) with
      ⟨hgeq, hall⟩ | ⟨path, A, x, B, hgeq, hpath, hterm, hrank, hcut, hA, hx, hB⟩
    · rw [hgeq, takeWhile_eq_self_iff.mpr fun e he => Bound.above_of_lt (hall e he)]
      simp only [↓reduceIte, hlast]
    · have hbefore : ∀ a ∈ A, (Bound.mk (getLexStr b).data b.isOpen).above a.member = true :=
        fun a ha => Bound.above_of_lt (hA a ha)
      have hafter : ∀ e ∈ B, (Bound.mk (getLexStr b).data b.isOpen).above e.member = false :=
        fun e he => Bound.not_above_of_lt (hB e he)
      simp only [hgeq, hpath, ↓reduceIte, hterm, hrank, rankCount_eq]
      split
      case isTrue hout =>
        have hxout : (Bound.mk (getLexStr b).data b.isOpen).above x.member = false := by
          rcases Bool.or_eq_true_iff.mp hout with hgt | hopen
          · exact Bound.not_above_of_lt (sdscmp_gt_iff.mp (beq_iff_eq.mp hgt))
          · rw [hopen]
            exact Bool.eq_false_iff.mpr fun hlt => (Bound.above_open.mp hlt).not_ge hx
        rw [hcut, takeWhile_append_cons hbefore hxout]
        split <;> congr 1 <;> omega
      case isFalse hin =>
        -- the entry is the closed end itself
        obtain ⟨hngt, hclosed⟩ := Bool.or_eq_false_iff.mp (Bool.eq_false_iff.mpr hin)
        have hxin : (Bound.mk (getLexStr b).data b.isOpen).above x.member = true := by
          rw [hclosed, Bound.above_closed]
          exact not_lt.mp (mt sdscmp_gt_iff.mpr (beq_eq_false_iff_ne.mp hngt))
        rw [hcut, append_cons, takeWhile_append_of_neg (A := A ++ [x])]
        · simp
        · exact forall_mem_append.mpr ⟨hbefore, forall_mem_singleton.mpr hxin⟩
        · exact hafter

end

/-- **Counts of members.** -/
theorem Holds.lexCount {first second : LexBound}
    (happ : (Interval.lex (σ := σ) first second).Applies xs) :
    zs.lexCount (Zset.getLexRange false first second) =
      some (xs.filter ((Interval.lex first second).contains false)).length := by
  have hsorted := h.zset.sorted
  have hlen : (xs.filter ((Interval.lex first second).contains false)).length =
      (xs.takeWhile fun e => second.above e.member).length -
        (xs.takeWhile fun e => !first.below e.member).length :=
    length_filter_window ((Interval.lex first second).fromSome_lower happ hsorted false)
      ((Interval.lex first second).upToSome_upper happ hsorted false)
  have hle := ( takeWhile_prefix (fun e : Entry σ => second.above e.member) (l := xs)).length_le
  rw [SortedMap.lexCount, h.size_eq]
  split
  case isTrue hzero => rw [length_eq_zero_iff.mp hzero]; rfl
  case isFalse hpos =>
    have hne : xs ≠ [] := fun hnil => hpos (by rw [hnil]; rfl)
    split
    case isTrue hempty =>
      -- nothing is between infinite ends in the wrong order
      rw [filter_eq_nil_iff.mpr]
      · rfl
      · rcases hempty with hfirst | hsecond
        · cases first <;> simp [getLexStr, Zset.getLexRange] at hfirst
          simp [Interval.contains, Interval.lower, LexBound.below]
        · cases second <;> simp [getLexStr, Zset.getLexRange] at hsecond
          simp [Interval.contains, Interval.upper, LexBound.above]
    case isFalse hends =>
      have hfirst : first.lowerAsRead = first := by
        cases first <;> first | rfl | exact absurd (.inl rfl) hends
      have hsecond : second ≠ .minusInf := fun heq => hends (.inr (by rw [heq]; rfl))
      rcases h.minLexRank hne happ first (Zset.getLexRange false first second) rfl rfl with
        ⟨hrank, hnone⟩ | hrank
      · rw [hfirst] at hnone
        rw [hrank, filter_eq_nil_iff.mpr]
        · rfl
        · intro e he
          simp [Interval.contains, Interval.lower, hnone e he]
      · rw [hfirst] at hrank
        rw [hrank, hlen]
        dsimp only
        split
        case isTrue hbehind => rw [Nat.sub_eq_zero_of_le (hle.trans hbehind)]
        case isFalse => exact h.lexCountFrom hne happ hsecond _ rfl rfl _

end

end SortedMap

end Drakeydb.Zset
