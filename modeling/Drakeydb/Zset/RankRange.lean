import Drakeydb.Lib.Slice
import Drakeydb.Zset.Intervals

/-!
# Ranges of ranks

`IntervalVisitor` on an interval of ranks, with `IterateSortedSet` of `container_utils.cc`. The ends
are signed numbers of sixty-four bits that count from the end of the set if they are negative. They
are compared with its size, and then passed on, as unsigned numbers of thirty-two bits, to which the
offset is added in the same width.
-/

namespace Drakeydb.Zset

open List

open Search (Bytes)
open Lib

variable {σ : Type} [LinearOrder σ]

/-! ## §1 The actions -/

/-- A conversion to `int64_t`. -/
def toI64 (x : ℤ) : ℤ := x.bmod (2 ^ 64)

/-- A conversion to `unsigned`. -/
def toUnsigned (x : ℤ) : ℕ := (x % 2 ^ 32).toNat

def Value.size : Value σ → ℕ
  | .listpack zl => zl.length
  | .skiplist zs => zs.scoreTree.size

/-- The ends of an interval against the size: the ranks for the action, if there is something to
do. -/
def clampRange (llen : ℕ) (start end' : ℤ) : Option (ℕ × ℕ) :=
  let start := if start < 0 then 0 else start
  if end' < start ∨ llen ≤ toUnsigned start then none
  else
    let end' := if llen ≤ toUnsigned end' then (llen : ℤ) - 1 else end'
    some (toUnsigned start, toUnsigned end')

/-- The beginning of `operator()`. The size is unsigned, so that the sum is, until it is stored. -/
def indexRange (llen : ℕ) (first second : Int64) : Option (ℕ × ℕ) :=
  clampRange llen (if first.toInt < 0 then toI64 (llen + first.toInt) else first.toInt)
    (if second.toInt < 0 then toI64 (llen + second.toInt) else second.toInt)

/-- `IterateSortedSet`, with a callback that never stops. -/
def iterateSortedSet [Zero σ] (v : Value σ) (start end' : ℕ) (reverse useScore : Bool) :
    Option (List (Bytes × σ)) :=
  let llen := v.size
  if llen = 0 then some []
  else
    let end' := if llen ≤ end' then llen - 1 else end'
    if end' < start ∨ llen ≤ start then some []
    else
      let rangelen := end' - start + 1
      match v with
      | .listpack zl =>
        let eptr := if reverse then lpSeekBack zl start else lpSeek zl start
        ((Listpack.next reverse zl).collect (fun _ => false) rangelen eptr).map
          (List.map fun e => (e.member, if useScore then e.score else 0))
      | .skiplist zs => (zs.iterate start rangelen reverse).map scored

/-- `ActionRange` of ranks. -/
def actionRangeRank [Zero σ] (params : RangeParams) (v : Value σ) (start end' : ℕ) :
    Option (List (Bytes × σ)) :=
  if params.limit.toNat = 0 then some []
  else
    let start := (start + params.offset.toNat) % 2 ^ 32
    let end' := min (start + params.limit.toNat - 1) end'
    if end' < start then some []
    else iterateSortedSet v start end' params.reverse params.withScores

/-- `ActionRem` of ranks. -/
def actionRemRank (v : Value σ) (start end' : ℕ) : Option (Value σ × ℕ) :=
  match v with
  | .listpack zl =>
    let removed := (end' + 2 ^ 32 - start + 1) % 2 ^ 32
    some (.listpack (lpDeleteRange zl ((2 * start % 2 ^ 32 : ℕ) : ℤ) (2 * removed % 2 ^ 32)),
      removed)
  | .skiplist zs => (zs.deleteRangeByRank start end').map fun res => (.skiplist res.1, res.2)

/-- The visit of an interval of ranks with the action `RANGE`. -/
def visitRange [Zero σ] (params : RangeParams) (first second : Int64) (v : Value σ) :
    Option (List (Bytes × σ)) :=
  (indexRange v.size first second).elim (some []) fun ends => actionRangeRank params v ends.1 ends.2

/-- The visit of an interval of ranks with the action `REMOVE`. -/
def visitRemove (first second : Int64) (v : Value σ) : Option (Value σ × ℕ) :=
  (indexRange v.size first second).elim (some (v, 0)) fun ends => actionRemRank v ends.1 ends.2

/-! ## §2 What they should do -/

/-- A rank, counted from the end if it is negative. -/
def fromEnd (n : ℕ) (i : ℤ) : ℤ := if i < 0 then n + i else i

/-- The ranks that are asked for. -/
def wantedRank (n : ℕ) (first second : Int64) (r : ℕ) : Bool :=
  decide (max 0 (fromEnd n first.toInt) ≤ r ∧ (r : ℤ) ≤ min (fromEnd n second.toInt) (n - 1))

/-- The first rank that is asked for. -/
def firstRank (n : ℕ) (first : Int64) : ℕ := (fromEnd n first.toInt).toNat

/-- The number of the ranks up to the last one that is asked for. -/
def lastRank (n : ℕ) (second : Int64) : ℕ := (fromEnd n second.toInt + 1).toNat

/-- The members of these ranks, in the order asked for. -/
def rankMembers (params : RangeParams) (first second : Int64) (xs : List (Entry σ)) : List Bytes :=
  (((atPlaces (wantedRank xs.length first second) (if params.reverse then xs.reverse else xs)).drop
    params.offset.toNat).take params.limit.toNat).map Entry.member

variable {xs : List (Entry σ)} (first second : Int64) {α : Type} (ys : List α)

theorem atPlaces_wantedRank :
    atPlaces (wantedRank ys.length first second) ys =
      slice (firstRank ys.length first) (min (lastRank ys.length second) ys.length) ys := by
  rw [← atPlaces_eq_slice]
  refine atPlaces_congr fun k hk => decide_eq_decide.mpr ?_
  simp only [firstRank, lastRank]
  omega

theorem atPlaces_not_wantedRank
    (hle : firstRank ys.length first ≤ min (lastRank ys.length second) ys.length) :
    atPlaces (fun k => !wantedRank ys.length first second k) ys =
      ys.take (firstRank ys.length first) ++
        ys.drop (min (lastRank ys.length second) ys.length) := by
  rw [← atPlaces_not_eq hle]
  refine atPlaces_congr fun k hk => congrArg Bool.not (decide_eq_decide.mpr ?_)
  simp only [firstRank, lastRank]
  omega

theorem toUnsigned_natCast (k : ℕ) : toUnsigned k = k % 2 ^ 32 := by
  rw [toUnsigned]
  omega

/-- The ranks after they are clamped, when the size fits 32 bits. -/
theorem clampRange_eq {n : ℕ} (hpos : 0 < n) (hn : n < 2 ^ 32) (s e : ℤ) :
    clampRange n s e =
      if (e + 1).toNat ≤ s.toNat ∨ n ≤ s.toNat % 2 ^ 32 then none
      else some (s.toNat % 2 ^ 32, min (((e + 1).toNat - 1) % 2 ^ 32) (n - 1)) := by
  have hstart : (if s < 0 then 0 else s) = (s.toNat : ℤ) := by split <;> omega
  have hcond : (e < (s.toNat : ℤ) ∨ n ≤ s.toNat % 2 ^ 32) ↔
      ((e + 1).toNat ≤ s.toNat ∨ n ≤ s.toNat % 2 ^ 32) := by omega
  simp only [clampRange, hstart, toUnsigned_natCast]
  by_cases hout : (e + 1).toNat ≤ s.toNat ∨ n ≤ s.toNat % 2 ^ 32
  · rw [if_pos (hcond.mpr hout), if_pos hout]
  · rw [if_neg (mt hcond.mp hout), if_neg hout]
    -- the end is not negative
    obtain ⟨k, rfl⟩ : ∃ k : ℕ, e = k := ⟨e.toNat, by omega⟩
    rw [toUnsigned_natCast]
    refine congrArg some (Prod.ext rfl ?_)
    split
    case isTrue hge =>
      rw [show (n : ℤ) - 1 = ((n - 1 : ℕ) : ℤ) by omega, toUnsigned_natCast]
      omega
    case isFalse hlt =>
      rw [toUnsigned_natCast]
      omega

/-- The ranks that are passed on, in terms of those that are asked for. -/
theorem indexRange_eq {n : ℕ} (hpos : 0 < n) (hn : n < 2 ^ 32) (first second : Int64) :
    indexRange n first second =
      if lastRank n second ≤ firstRank n first ∨ n ≤ firstRank n first % 2 ^ 32 then none
      else some (firstRank n first % 2 ^ 32, min ((lastRank n second - 1) % 2 ^ 32) (n - 1)) := by
  -- adding the size does not leave the range of the signed numbers
  have hexact : ∀ i : Int64, (if i.toInt < 0 then toI64 (n + i.toInt) else i.toInt) =
      fromEnd n i.toInt := by
    intro i
    have hle := Int64.le_toInt i
    simp only [fromEnd, toI64]
    split
    · rw [Int.bmod_def]
      split <;> omega
    · rfl
  rw [indexRange, hexact, hexact, clampRange_eq hpos hn]
  rfl

/-! ## §3 The members of a range -/

variable {v : Value σ}

theorem Value.Holds.size_eq (h : v.Holds xs) : v.size = xs.length := by
  cases v with
  | listpack zl => rw [Value.size, h.1]
  | skiplist zs => exact SortedMap.Holds.size_eq h

theorem Value.Holds.length_lt (h : v.Holds xs) : xs.length < 2 ^ 32 := by
  cases v with
  | listpack zl =>
    have hlen := h.2.2
    omega
  | skiplist zs => exact SortedMap.Holds.length_lt h

variable {start end' : ℕ}

/-- `IterateSortedSet` gives the entries between two ranks. -/
theorem iterateSortedSet_eq [Zero σ] (h : v.Holds xs) (hle : start ≤ end') (hlt : end' < xs.length)
    (reverse useScore : Bool) :
    (iterateSortedSet v start end' reverse useScore).map (List.map Prod.fst) =
      some (slice start (end' + 1) ((if reverse then xs.reverse else xs).map Entry.member)) := by
  have hslice : slice start (end' + 1) ((if reverse then xs.reverse else xs).map Entry.member) =
      (((if reverse then xs.reverse else xs).drop start).take (end' - start + 1)).map
        Entry.member := by
    rw [take_drop_eq_slice, map_slice, show start + (end' - start + 1) = end' + 1 by omega]
  simp only [iterateSortedSet, h.size_eq]
  rw [if_neg (by omega), if_neg (by omega : ¬xs.length ≤ end'), if_neg (by omega), hslice]
  cases v with
  | listpack zl =>
    obtain ⟨rfl, -, -⟩ := h
    have hahead : (Listpack.next reverse zl).Ahead
        (if reverse then lpSeekBack zl start else lpSeek zl start)
        ((if reverse then zl.reverse else zl).drop start) := by
      cases reverse
      · exact ahead_zzlNext zl start
      · exact ahead_zzlPrev zl start
    dsimp only
    rw [hahead.collect, takeWhile_eq_self_iff.mpr (by simp), Option.map_some,
      Option.map_some, map_map]
    rfl
  | skiplist zs =>
    have hlist := h.toList_eq
    have hround : start + (end' - start + 1) - 1 + 1 - start = end' - start + 1 := by omega
    simp only [SortedMap.iterate]
    cases reverse with
    | false =>
      rw [if_neg Bool.false_ne_true, h.ok.iterate (by omega), SortedMap.visit_true, hlist, hround]
      exact congrArg some (map_fst_scored _)
    | true =>
      rw [if_pos rfl, h.ok.iterateReverse (by omega) (by rw [hlist]; omega),
        SortedMap.visit_true, hlist, hround]
      exact congrArg some (map_fst_scored _)

/-- Where the answer is right, in terms of the first rank `lo` that is asked for and the number `hi`
of the ranks up to the last one. The ends are compared and passed on modulo `2 ^ 32`: this must not
reach a rank where none is left, nor fall short of the last one that is wanted. -/
def RangeExact (n lo hi offset limit : ℕ) : Prop :=
  limit = 0 ∨ hi ≤ lo ∨
    lo + offset < min hi n ∧ (hi ≤ 2 ^ 32 ∨ min n (lo + offset + limit) ≤ (hi - 1) % 2 ^ 32 + 1) ∨
    min hi n ≤ lo + offset ∧
      (n ≤ lo % 2 ^ 32 ∨ min ((hi - 1) % 2 ^ 32) (n - 1) < (lo + offset) % 2 ^ 32)

/-- What a range of ranks answers. -/
theorem visitRange_eq [Zero σ] (h : v.Holds xs) (hpos : 0 < xs.length)
    (params : RangeParams) (first second : Int64) :
    (visitRange params first second v).map (List.map Prod.fst) =
      some (if lastRank xs.length second ≤ firstRank xs.length first ∨
          xs.length ≤ firstRank xs.length first % 2 ^ 32 ∨ params.limit.toNat = 0 then []
        else slice ((firstRank xs.length first + params.offset.toNat) % 2 ^ 32)
          (min (min ((lastRank xs.length second - 1) % 2 ^ 32) (xs.length - 1) + 1)
            ((firstRank xs.length first + params.offset.toNat) % 2 ^ 32 + params.limit.toNat))
          ((if params.reverse then xs.reverse else xs).map Entry.member)) := by
  simp only [visitRange, h.size_eq, indexRange_eq hpos h.length_lt]
  generalize firstRank xs.length first = lo
  generalize lastRank xs.length second = hi
  by_cases hout : hi ≤ lo ∨ xs.length ≤ lo % 2 ^ 32
  · rw [if_pos hout, if_pos (by tauto), Option.elim_none, Option.map_some, map_nil]
  · rw [if_neg hout, Option.elim_some]
    simp only [actionRangeRank, Nat.mod_add_mod]
    by_cases hlimit : params.limit.toNat = 0
    · rw [if_pos hlimit, if_pos (by tauto)]
      rfl
    · have hin : ¬(hi ≤ lo ∨ xs.length ≤ lo % 2 ^ 32 ∨ params.limit.toNat = 0) := by tauto
      rw [if_neg hlimit, if_neg hin]
      split
      case isTrue hempty =>
        rw [slice_eq_nil_iff.mpr (by omega)]
        rfl
      case isFalse hle =>
        rw [iterateSortedSet_eq h (by omega) (by omega)]
        congr 2
        omega

/-- The answer of a range is right exactly under `RangeExact`. -/
theorem visitRange_right_iff [Zero σ] (h : v.Holds xs) (hpos : 0 < xs.length)
    (params : RangeParams) (first second : Int64) :
    (visitRange params first second v).map (List.map Prod.fst) =
        some (rankMembers params first second xs) ↔
      RangeExact xs.length (firstRank xs.length first) (lastRank xs.length second)
        params.offset.toNat params.limit.toNat := by
  have hlen : (if params.reverse then xs.reverse else xs).length = xs.length := by
    cases params.reverse <;> simp
  have hnodup : ((if params.reverse then xs.reverse else xs).map Entry.member).Nodup := by
    cases params.reverse
    · exact h.zset.nodup
    · rw [if_pos rfl, map_reverse]
      exact nodup_reverse.mpr h.zset.nodup
  have hwanted : rankMembers params first second xs =
      slice (firstRank xs.length first + params.offset.toNat)
        (min (min (lastRank xs.length second) xs.length)
          (firstRank xs.length first + params.offset.toNat + params.limit.toNat))
        ((if params.reverse then xs.reverse else xs).map Entry.member) := by
    rw [rankMembers, ← hlen, atPlaces_wantedRank, take_drop_slice, map_slice]
  rw [visitRange_eq h hpos, hwanted, Option.some.injEq, RangeExact]
  have hlt := h.length_lt
  have hmembers : ((if params.reverse then xs.reverse else xs).map Entry.member).length =
    xs.length := by
    rw [length_map, hlen]
  generalize firstRank xs.length first = lo
  generalize lastRank xs.length second = hi
  generalize params.offset.toNat = offset
  split
  case isTrue hout =>
    rw [eq_comm, slice_eq_nil_iff, hmembers]
    omega
  case isFalse hin =>
    rw [slice_eq_slice_iff hnodup (by omega) (by omega)]
    rcases Nat.lt_or_ge (lo + offset) (min hi xs.length) with hsome | hnone
    · -- nothing wraps at the start
      have hstart : (lo + offset) % 2 ^ 32 = lo + offset := Nat.mod_eq_of_lt (by omega)
      rw [hstart]
      omega
    · -- nothing is wanted, however the ends wrap
      generalize (lo + offset) % 2 ^ 32 = start
      generalize (hi - 1) % 2 ^ 32 = last
      generalize lo % 2 ^ 32 = lo' at *
      omega

/-! ## §4 The removal of a range -/

/-- Where the removal is right. It may also go wrong where no rank is wanted: the number reported is
zero only if the ends, modulo `2 ^ 32`, are next to each other. -/
def RemoveExact (n lo hi : ℕ) : Prop :=
  hi ≤ lo ∨ n ≤ lo % 2 ^ 32 ∨ lo < n ∧ (hi ≤ 2 ^ 32 ∨ n ≤ (hi - 1) % 2 ^ 32 + 1) ∨
    n ≤ lo ∧ min ((hi - 1) % 2 ^ 32) (n - 1) + 1 = lo % 2 ^ 32

/-- The number that is reported, and what is left if the ends are not out of order. -/
theorem actionRemRank_eq (h : v.Holds xs) (hstart : start < xs.length) (hend : end' < xs.length) :
    ∃ v', actionRemRank v start end' = some (v', (end' + 2 ^ 32 - start + 1) % 2 ^ 32) ∧
      (start ≤ end' + 1 → v'.Holds (xs.take start ++ xs.drop (end' + 1))) := by
  have hlt := h.length_lt
  cases v with
  | listpack zl =>
    obtain ⟨rfl, hzset, hlen⟩ := id h
    refine ⟨_, rfl, fun hle => ?_⟩
    have hindex : 2 * start % 2 ^ 32 = 2 * start := by omega
    have hnum : 2 * ((end' + 2 ^ 32 - start + 1) % 2 ^ 32) % 2 ^ 32 = 2 * (end' + 1 - start) := by
      omega
    have hrest : lpDeleteRange zl ((2 * start : ℕ) : ℤ) (2 * (end' + 1 - start)) =
        zl.take start ++ zl.drop (end' + 1) := by
      have hsum : (2 * start + 2 * (end' + 1 - start)) / 2 = end' + 1 := by omega
      simp only [lpDeleteRange]
      rw [if_neg (by omega : ¬((2 * start : ℕ) : ℤ) < 0), Int.toNat_natCast,
        Nat.mul_div_cancel_left _ (by decide : 0 < 2), hsum]
      split
      case isTrue hnothing =>
        simp [show end' + 1 = start by omega]
      case isFalse => rfl
    rw [hindex, hnum, hrest]
    refine Value.holds_listpack_of_sublist h ?_
    have hsub := (List.Sublist.refl (zl.take start)).append
      (drop_sublist_drop_left zl hle)
    rwa [take_append_drop] at hsub
  | skiplist zs =>
    rcases Nat.lt_or_ge end' start with hgt | hle
    · -- the loop makes no round
      refine ⟨.skiplist zs, ?_, fun hnext => ?_⟩
      · simp only [actionRemRank, SortedMap.deleteRangeByRank,
          show end' + 1 - start = 0 by omega, SortedMap.deleteRankLoop]
        rfl
      · rw [show end' + 1 = start by omega, take_append_drop]
        exact h
    · obtain ⟨zs', hdel, h'⟩ := h.deleteRangeByRank hle hend
      refine ⟨.skiplist zs', ?_, fun _ => h'⟩
      rw [actionRemRank, hdel, Option.map_some]
      congr 2
      omega

theorem atPlaces_not_wantedRank_eq_self
    (hle : min (lastRank ys.length second) ys.length ≤ firstRank ys.length first) :
    atPlaces (fun k => !wantedRank ys.length first second k) ys = ys := by
  have hall := atPlaces_not_eq (Nat.le_refl 0) ys
  refine (atPlaces_congr fun k hk => congrArg Bool.not (decide_eq_decide.mpr ?_)).trans hall
  simp only [firstRank, lastRank] at hle
  omega

/-- The removal is right exactly under `RemoveExact`. -/
theorem visitRemove_right_iff (h : v.Holds xs) (hpos : 0 < xs.length) (first second : Int64) :
    (∃ v', visitRemove first second v =
      some (v', (atPlaces (wantedRank xs.length first second) xs).length) ∧
        v'.Holds (atPlaces (fun r => !wantedRank xs.length first second r) xs)) ↔
      RemoveExact xs.length (firstRank xs.length first) (lastRank xs.length second) := by
  have hlt := h.length_lt
  have hself := atPlaces_not_wantedRank_eq_self first second xs
  have hrest := atPlaces_not_wantedRank first second xs
  rw [atPlaces_wantedRank, length_slice, visitRemove, h.size_eq, indexRange_eq hpos hlt,
    RemoveExact]
  generalize firstRank xs.length first = lo at *
  generalize lastRank xs.length second = hi at *
  by_cases hout : hi ≤ lo ∨ xs.length ≤ lo % 2 ^ 32
  · rw [if_pos hout, Option.elim_none]
    have hzero : min (min hi xs.length) xs.length - lo = 0 := by omega
    refine iff_of_true ⟨v, ?_, ?_⟩ (by tauto)
    · rw [hzero]
    · rw [hself (by omega)]
      exact h
  · rw [if_neg hout, Option.elim_some]
    obtain ⟨v', hrem, hv'⟩ := actionRemRank_eq h (by omega : lo % 2 ^ 32 < xs.length)
      (by omega : min ((hi - 1) % 2 ^ 32) (xs.length - 1) < xs.length)
    rw [hrem]
    constructor
    · rintro ⟨w, heq, -⟩
      have hnum := (Prod.mk.inj (Option.some.inj heq)).2
      omega
    · intro hexact
      refine ⟨v', ?_, ?_⟩
      · congr 2
        omega
      · rcases Nat.lt_or_ge lo xs.length with hin | hbehind
        · rw [hrest (by omega)]
          have hv' := hv' (by omega)
          rwa [show lo % 2 ^ 32 = lo by omega,
            show min ((hi - 1) % 2 ^ 32) (xs.length - 1) + 1 = min hi xs.length by omega] at hv'
        · have hv' := hv' (by omega)
          rw [show min ((hi - 1) % 2 ^ 32) (xs.length - 1) + 1 = lo % 2 ^ 32 by omega,
            take_append_drop] at hv'
          rwa [hself (by omega)]

/-- **Intervals of ranks.** Where both actions are right, for sets that are not empty. -/
theorem index_interval_right_iff [Zero σ] {v : Value σ} (h : v.Holds xs) (hpos : 0 < xs.length)
    (params : RangeParams) (first second : Int64) :
    ((visitRange params first second v).map (List.map Prod.fst) =
      some (rankMembers params first second xs) ↔
      RangeExact xs.length (firstRank xs.length first) (lastRank xs.length second)
        params.offset.toNat params.limit.toNat) ∧
    ((∃ v', visitRemove first second v =
      some (v', (atPlaces (wantedRank xs.length first second) xs).length) ∧
        v'.Holds (atPlaces (fun r => !wantedRank xs.length first second r) xs)) ↔
      RemoveExact xs.length (firstRank xs.length first) (lastRank xs.length second)) :=
  ⟨visitRange_right_iff h hpos params first second, visitRemove_right_iff h hpos first second⟩

/-- The whole of a set of two members, and its last member. -/
theorem index_interval_right_whole :
    (visitRange ⟨0, 10, true, true⟩ 0 (-1) (Value.listpack Op.twoMembers)).map (List.map Prod.fst) =
        some (rankMembers ⟨0, 10, true, true⟩ 0 (-1) Op.twoMembers) ∧
      ∃ v', visitRemove (-1) 5 (Value.listpack Op.twoMembers) =
          some (v', (atPlaces (wantedRank 2 (-1) 5) Op.twoMembers).length) ∧
        v'.Holds (atPlaces (fun r => !wantedRank 2 (-1) 5 r) Op.twoMembers) := by
  refine ⟨(index_interval_right_iff Op.holds_twoMembers (by decide) _ 0 (-1)).1.mpr ?_,
    (index_interval_right_iff Op.holds_twoMembers (by decide) ⟨0, 10, true, true⟩ (-1) 5).2.mpr ?_⟩
  · -- two ranks, from the first on
    refine Or.inr (Or.inr (Or.inl ?_))
    decide +kernel
  · refine Or.inr (Or.inr (Or.inl ?_))
    decide +kernel

/-- An end of `2 ^ 32` is taken for the rank zero, and so is a start. -/
theorem index_interval_wrong_wrap :
    (Value.listpack Op.twoMembers).Holds Op.twoMembers ∧
      (visitRange ⟨0, 10, false, false⟩ 0 4294967296 (Value.listpack Op.twoMembers)).map
          (List.map Prod.fst) ≠
        some (rankMembers ⟨0, 10, false, false⟩ 0 4294967296 Op.twoMembers) ∧
      (visitRemove 4294967296 4294967296 (Value.listpack Op.twoMembers)).map Prod.snd ≠
        some (atPlaces (wantedRank 2 4294967296 4294967296) Op.twoMembers).length :=
  ⟨Op.holds_twoMembers, by decide +kernel, by decide +kernel⟩

end Drakeydb.Zset
