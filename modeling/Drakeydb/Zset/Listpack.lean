import Mathlib.Algebra.Ring.Int.Defs
import Mathlib.Algebra.Ring.Nat
import Drakeydb.Zset.Spec

/-!
# Sorted sets in a listpack

The `Zzl` functions of `core/sorted_map.cc` and the listpack halves of `IntervalVisitor`, `OpCount`
and `OpLexCount` of `zset_family.cc`. A listpack holds each entry as two elements, the member and
its score. A pointer to a member is modelled by the rank of the entry; scores read back as they were
written.
-/

namespace Drakeydb.Zset

open List Drakeydb.Zset.Interval

open Search (Bytes)
open Lib

variable {σ : Type}

/-! ## §1 The listpack -/

section

variable (zl : List (Entry σ))

def zzlNext : Walker ℕ (Entry σ) where
  read i := zl[i]?
  step i := if i + 1 < zl.length then some (i + 1) else none

def zzlPrev : Walker ℕ (Entry σ) where
  read i := zl[i]?
  step i := if i = 0 then none else some (i - 1)

/-- `lpSeek` of the element `2 * rank`. -/
def lpSeek (rank : ℕ) : Option ℕ :=
  if rank < zl.length then some rank else none

/-- `lpSeek` of the element `-2 - 2 * rank`, which counts from the end. -/
def lpSeekBack (rank : ℕ) : Option ℕ :=
  if rank < zl.length then some (zl.length - 1 - rank) else none

/-- `lpDeleteRange`: `num` elements from the element `index` on, which counts from the end if it is
    negative. Callers only pass even numbers. -/
def lpDeleteRange (index : ℤ) (num : ℕ) : List (Entry σ) :=
  let at' := if index < 0 then 2 * zl.length + index else index
  if num = 0 ∨ at' < 0 ∨ 2 * zl.length ≤ at' then zl
  else zl.take (at'.toNat / 2) ++ zl.drop ((at'.toNat + num) / 2)

theorem exists_of_drop_eq_cons {α : Type} {l rest : List α} {x : α} {i : ℕ}
    (h : l.drop i = x :: rest) :
    ∃ hlt : i < l.length, l[i] = x ∧ l.drop (i + 1) = rest := by
  have hlt : i < l.length := by
    by_contra hge
    rw [drop_eq_nil_of_le (Nat.not_lt.mp hge)] at h
    cases h
  rw [drop_eq_getElem_cons hlt] at h
  exact ⟨hlt, cons.inj h⟩

/-- A walk forward from a rank reads the entries from there on. -/
theorem ahead_zzlNext (rank : ℕ) :
    (zzlNext zl).Ahead (lpSeek zl rank) (zl.drop rank) := by
  generalize hrest : zl.drop rank = rest
  -- on the entries that follow
  induction rest generalizing rank with
  | nil =>
    rw [lpSeek, if_neg (Nat.not_lt.mpr (drop_eq_nil_iff.mp hrest))]
    exact .done
  | cons x rest ih =>
    obtain ⟨hlt, rfl, htail⟩ := exists_of_drop_eq_cons hrest
    rw [lpSeek, if_pos hlt]
    exact .item (getElem?_eq_getElem hlt) (ih (rank + 1) htail)

/-- A walk backward reads the entries in reverse. -/
theorem ahead_zzlPrev (rank : ℕ) :
    (zzlPrev zl).Ahead (lpSeekBack zl rank) (zl.reverse.drop rank) := by
  generalize hrest : zl.reverse.drop rank = rest
  induction rest generalizing rank with
  | nil =>
    rw [lpSeekBack, if_neg]
    · exact .done
    · rw [Nat.not_lt, ← length_reverse]
      exact drop_eq_nil_iff.mp hrest
  | cons x rest ih =>
    obtain ⟨hlt, rfl, htail⟩ := exists_of_drop_eq_cons hrest
    rw [length_reverse] at hlt
    rw [lpSeekBack, if_pos hlt]
    have hstep : (zzlPrev zl).step (zl.length - 1 - rank) = lpSeekBack zl (rank + 1) := by
      simp only [zzlPrev, lpSeekBack]
      split <;> split <;> first | rfl | omega
    refine .item ?_ (hstep ▸ ih (rank + 1) htail)
    simp only [zzlPrev, getElem_reverse]
    exact getElem?_eq_getElem (by omega)

end

namespace Listpack

def next (reverse : Bool) (zl : List (Entry σ)) : Walker ℕ (Entry σ) :=
  if reverse then zzlPrev zl else zzlNext zl

/-- The entry where a walk begins. -/
def start (reverse : Bool) (zl : List (Entry σ)) : Option ℕ :=
  if reverse then lpSeekBack zl 0 else lpSeek zl 0

theorem ahead_start (reverse : Bool) (zl : List (Entry σ)) :
    (next reverse zl).Ahead (start reverse zl) (if reverse then zl.reverse else zl) := by
  cases reverse
  · exact ahead_zzlNext zl 0
  · exact ahead_zzlPrev zl 0

end Listpack

variable [LinearOrder σ]

/-! ## §2 The first and the last entry of a range -/

section

variable (zl : List (Entry σ))

def zzlIsInRange (range : RangeSpec σ) : Bool :=
  if range.max < range.min ∨ range.min = range.max ∧ (range.minex || range.maxex) = true then false
  else zl.getLast?.any (zslValueGteMin ·.score range) && zl.head?.any (zslValueLteMax ·.score range)

def zzlFirstInRange (range : RangeSpec σ) : Option ℕ :=
  if !zzlIsInRange zl range then none
  else (zzlNext zl).locate (zslValueGteMin ·.score range) (zslValueLteMax ·.score range) zl.length
    (lpSeek zl 0)

def zzlLastInRange (range : RangeSpec σ) : Option ℕ :=
  if !zzlIsInRange zl range then none
  else (zzlPrev zl).locate (zslValueLteMax ·.score range) (zslValueGteMin ·.score range) zl.length
    (lpSeekBack zl 0)

def zzlIsInLexRange (range : LexRangeSpec) : Bool :=
  let cmp := sdscmplex range.min range.max
  if cmp = .gt ∨ cmp = .eq ∧ (range.minex || range.maxex) = true then false
  else zl.getLast?.any (zslLexValueGteMin ·.member range) &&
    zl.head?.any (zslLexValueLteMax ·.member range)

def zzlFirstInLexRange (range : LexRangeSpec) : Option ℕ :=
  if !zzlIsInLexRange zl range then none
  else (zzlNext zl).locate (zslLexValueGteMin ·.member range) (zslLexValueLteMax ·.member range)
    zl.length (lpSeek zl 0)

def zzlLastInLexRange (range : LexRangeSpec) : Option ℕ :=
  if !zzlIsInLexRange zl range then none
  else (zzlPrev zl).locate (zslLexValueLteMax ·.member range) (zslLexValueGteMin ·.member range)
    zl.length (lpSeekBack zl 0)

end

/-! ## §3 Queries -/

namespace Listpack

def isUnder (reverse : Bool) (score : σ) (spec : RangeSpec σ) : Bool :=
  if reverse then zslValueGteMin score spec else zslValueLteMax score spec

/-- `ExtractListPack` of a range of scores. -/
def extractListPack (reverse : Bool) (offset limit : ℕ) (zl : List (Entry σ))
    (range : RangeSpec σ) :
    Option (List (Bytes × σ)) :=
  let eptr := if reverse then zzlLastInRange zl range else zzlFirstInRange zl range
  let w := next reverse zl
  (w.collect (fun e => !isUnder reverse e.score range) limit (w.skip offset eptr)).map
    (List.map fun e => (e.member, e.score))

/-- `ExtractListPack` of a range of members; scores are only read if they are asked for. -/
def extractListPackLex [Zero σ] (withScores reverse : Bool) (offset limit : ℕ) (zl : List (Entry σ))
    (range : LexRangeSpec) : Option (List (Bytes × σ)) :=
  let eptr := if reverse then zzlLastInLexRange zl range else zzlFirstInLexRange zl range
  let w := next reverse zl
  (w.collect (fun e => !(if reverse then zslLexValueGteMin e.member range
      else zslLexValueLteMax e.member range)) limit (w.skip offset eptr)).map
    (List.map fun e => (e.member, if withScores then e.score else 0))

/-- The loop of `OpCount`, which runs to the end of the range. -/
def count (zl : List (Entry σ)) (range : RangeSpec σ) : Option ℕ :=
  if range.max < range.min then some 0
  else ((zzlNext zl).collect (fun e => !zslValueLteMax e.score range) zl.length
    (zzlFirstInRange zl range)).map List.length

/-- The loop of `OpLexCount`. -/
def lexCount (zl : List (Entry σ)) (range : LexRangeSpec) : Option ℕ :=
  ((zzlNext zl).collect (fun e => !zslLexValueLteMax e.member range) zl.length
    (zzlFirstInLexRange zl range)).map List.length

/-- The loop of `ZzlDeleteRangeByScore` and `ZzlDeleteRangeByLex` over the entries from `eptr`
on. -/
def deleteLoop (inRange : Entry σ → Bool) : List (Entry σ) → List (Entry σ) × ℕ
  | [] => ([], 0)
  | e :: rest =>
    if inRange e then ((deleteLoop inRange rest).1, (deleteLoop inRange rest).2 + 1)
      else (e :: rest, 0)

/-- The deletion from a first entry on. -/
def deleteFrom (inRange : Entry σ → Bool) (zl : List (Entry σ)) : Option ℕ → List (Entry σ) × ℕ
  | none => (zl, 0)
  | some eptr =>
    (zl.take eptr ++ (deleteLoop inRange (zl.drop eptr)).1, (deleteLoop inRange (zl.drop eptr)).2)

def zzlDeleteRangeByScore (zl : List (Entry σ)) (range : RangeSpec σ) : List (Entry σ) × ℕ :=
  deleteFrom (zslValueLteMax ·.score range) zl (zzlFirstInRange zl range)

def zzlDeleteRangeByLex (zl : List (Entry σ)) (range : LexRangeSpec) : List (Entry σ) × ℕ :=
  deleteFrom (zslLexValueLteMax ·.member range) zl (zzlFirstInLexRange zl range)

/-- `PopListPack`. The numbers of elements are `unsigned`, and the one to start from an `int`. -/
def popListPack (reverse : Bool) (sc : ℕ) (zl : List (Entry σ)) :
    Option (List (Bytes × σ) × List (Entry σ)) :=
  let num := 2 * sc % 2 ^ 32
  let from' : ℤ :=
    if reverse then (if 2 * zl.length < num then 0 else (-(2 * sc : ℤ)).bmod (2 ^ 32)) else 0
  ((next reverse zl).collect (fun _ => false) sc (start reverse zl)).map fun entries =>
    (entries.map fun e => (e.member, e.score), lpDeleteRange zl from' num)

/-! ## §4 Intervals -/

variable {zl : List (Entry σ)} {iv : Interval σ}

/-- What the walk in one direction looks for first, and what it checks afterwards. -/
theorem window_eq_filter (reverse : Bool) (offset limit : ℕ) :
    iv.window reverse offset limit zl =
      (((if reverse then zl.reverse else zl).filter fun e =>
        (if reverse then iv.upper reverse e else iv.lower reverse e) &&
          (if reverse then iv.lower reverse e else iv.upper reverse e)).drop
            offset).take limit := by
  cases reverse with
  | false => rfl
  | true =>
    simp only [window, ↓reduceIte, Bool.and_comm]
    rfl

variable {reverse : Bool}

/-- An interval is empty if its ends exclude each other, if the last entry is before it, or if the
first one is behind it. -/
theorem filter_contains_eq_nil (hsorted : zl.Pairwise (· < ·)) (happ : iv.Applies zl)
    {inverted : Prop} [Decidable inverted]
    (hinverted : inverted → ∀ e : Entry σ, iv.contains reverse e = false)
    (hguard : (if inverted then false else
      zl.getLast?.any (iv.lower reverse) && zl.head?.any (iv.upper reverse)) = false) :
    zl.filter (iv.contains reverse) = [] := by
  refine filter_eq_nil_iff.mpr fun e he => Bool.eq_false_iff.mp ?_
  split at hguard
  case isTrue hinv => exact hinverted hinv e
  case isFalse =>
    rw [Interval.contains]
    rcases Bool.and_eq_false_iff.mp hguard with hlast | hfirst
    · simp [(iv.fromSome_lower happ hsorted reverse).eq_false_of_getLast? hlast e he]
    · simp [(iv.upToSome_upper happ hsorted reverse).eq_false_of_head? hfirst e he]

theorem zzlIsInRange_eq_false (hsorted : zl.Pairwise (· < ·)) {first second : Bound σ}
    (hout : zzlIsInRange zl (getZrangeSpec reverse first second) = false) :
    zl.filter ((score first second).contains reverse) = [] := by
  have happ : (score first second).Applies zl := trivial
  simp only [zzlIsInRange, zslValueGteMin_eq, zslValueLteMax_eq] at hout
  refine filter_contains_eq_nil hsorted happ (fun hinv e => ?_) hout
  cases reverse
  · exact Bound.disjoint hinv e.score
  · exact Bound.disjoint hinv e.score

variable {first second : LexBound} {isIn : Bool}

section

variable (hsorted : zl.Pairwise (· < ·))
include hsorted

theorem zzlIsInLexRange_eq_false (happ : (lex first second).Applies zl)
    (hout : zzlIsInLexRange zl (getLexRange reverse first second) = false) :
    zl.filter ((lex first second).contains reverse) = [] := by
  simp only [zzlIsInLexRange, zslLexValueGteMin_eq, zslLexValueLteMax_eq] at hout
  refine filter_contains_eq_nil hsorted happ (fun hinv e => ?_) hout
  cases reverse
  · exact LexBound.disjoint hinv e.member
  · exact LexBound.disjoint hinv e.member

/-- The walk over an interval, behind the check that it is not empty. -/
theorem collect_guarded (happ : iv.Applies zl) (reverse : Bool)
    (hguard : isIn = false → zl.filter (iv.contains reverse) = []) (offset limit : ℕ) :
    (next reverse zl).collect
        (fun e => !(if reverse then iv.lower reverse e else iv.upper reverse e)) limit
        ((next reverse zl).skip offset (if !isIn then none else
          (next reverse zl).locate
          (fun e => if reverse then iv.upper reverse e else iv.lower reverse e)
            (fun e => if reverse then iv.lower reverse e else iv.upper reverse e) zl.length
            (start reverse zl))) =
      some (iv.window reverse offset limit zl) := by
  have hlo := iv.fromSome_lower happ hsorted reverse
  have hhi := iv.upToSome_upper happ hsorted reverse
  cases isIn with
  | false =>
    have hempty : iv.window reverse offset limit zl = [] := by
      cases reverse <;> simp [window, filter_reverse, hguard]
    rw [hempty, Bool.not_false, if_pos rfl, (Walker.Ahead.done.skip offset).collect]
    simp
  | true =>
    rw [Bool.not_true, if_neg Bool.false_ne_true, window_eq_filter]
    refine (ahead_start reverse zl).collect_locate ?_ ?_ ?_ offset limit
    · cases reverse
      · exact hlo
      · exact hhi.reverse
    · cases reverse
      · exact hhi
      · exact hlo.reverse
    · cases reverse <;> simp

/-- The entries a listpack gives for an interval are those of its window. -/
theorem extractListPack_eq (reverse : Bool) (offset limit : ℕ) (first second : Bound σ) :
    extractListPack reverse offset limit zl (getZrangeSpec reverse first second) =
      some (((score first second).window reverse offset limit zl).map fun e =>
        (e.member, e.score)) := by
  have happ : (score first second).Applies zl := trivial
  have hcollect := collect_guarded hsorted happ reverse (zzlIsInRange_eq_false hsorted) offset limit
  cases reverse <;>
    simp only [extractListPack, isUnder, zzlFirstInRange, zzlLastInRange, zslValueGteMin_eq,
      zslValueLteMax_eq, Bool.false_eq_true, ↓reduceIte] at hcollect ⊢ <;>
    exact congrArg _ hcollect

theorem extractListPackLex_eq [Zero σ] (withScores reverse : Bool) (offset limit : ℕ)
    (happ : (lex first second).Applies zl) :
    extractListPackLex withScores reverse offset limit zl (getLexRange reverse first second) =
      some (((lex first second).window reverse offset limit zl).map
        fun e => (e.member, if withScores then e.score else 0)) := by
  have hcollect := collect_guarded hsorted happ reverse (zzlIsInLexRange_eq_false hsorted happ)
    offset limit
  cases reverse <;>
    simp only [extractListPackLex, zzlFirstInLexRange, zzlLastInLexRange, zslLexValueGteMin_eq,
      zslLexValueLteMax_eq, Bool.false_eq_true, ↓reduceIte] at hcollect ⊢ <;>
    exact congrArg _ hcollect

end

theorem window_all : iv.window false 0 zl.length zl = zl.filter (iv.contains false) := by
  exact take_of_length_le (length_filter_le _ _)

theorem count_eq (hsorted : zl.Pairwise (· < ·)) (first second : Bound σ) :
    count zl (getZrangeSpec false first second) =
      some (zl.filter ((score first second).contains false)).length := by
  have happ : (score first second).Applies zl := trivial
  rw [count]
  split
  case isTrue hinv =>
    rw [filter_eq_nil_iff.mpr]
    · rfl
    · exact fun e _ => Bool.eq_false_iff.mp (Bound.disjoint (.inl hinv) e.score)
  case isFalse =>
    have hcollect := collect_guarded hsorted happ false (zzlIsInRange_eq_false hsorted) 0 zl.length
    rw [window_all] at hcollect
    exact congrArg _ hcollect

theorem lexCount_eq (hsorted : zl.Pairwise (· < ·)) (happ : (lex first second).Applies zl) :
    lexCount zl (getLexRange false first second) =
      some (zl.filter ((lex first second).contains false)).length := by
  have hcollect :=
    collect_guarded hsorted happ false (zzlIsInLexRange_eq_false hsorted happ) 0 zl.length
  rw [window_all] at hcollect
  simp only [lexCount, zzlFirstInLexRange, zslLexValueGteMin_eq, zslLexValueLteMax_eq]
  exact congrArg _ hcollect

/-! ## §5 Deletions -/

omit [LinearOrder σ] in
theorem deleteLoop_eq (inRange : Entry σ → Bool) (zl : List (Entry σ)) :
    deleteLoop inRange zl = (zl.dropWhile inRange, (zl.takeWhile inRange).length) := by
  induction zl with
  | nil => rfl
  | cons e rest ih =>
    rw [deleteLoop, ih]
    cases he : inRange e <;> simp [he]

section

variable (hsorted : zl.Pairwise (· < ·))
include hsorted

/-- A deletion from the first entry of an interval deletes the interval. -/
theorem deleteFrom_eq (happ : iv.Applies zl)
    (hguard : isIn = false → zl.filter (iv.contains reverse) = []) :
    deleteFrom (iv.upper reverse) zl (if !isIn then none else
        (zzlNext zl).locate (iv.lower reverse) (iv.upper reverse) zl.length (lpSeek zl 0)) =
      (zl.filter fun e => !iv.contains reverse e, (zl.filter (iv.contains reverse)).length) := by
  have hlo := iv.fromSome_lower happ hsorted reverse
  have hhi := iv.upToSome_upper happ hsorted reverse
  have hnothing : zl.filter (iv.contains reverse) = [] →
      deleteFrom (iv.upper reverse) zl none =
        (zl.filter fun e => !iv.contains reverse e, (zl.filter (iv.contains reverse)).length) := by
    intro hempty
    have hkeep : ∀ e ∈ zl, (!iv.contains reverse e) = true := by
      simpa using filter_eq_nil_iff.mp hempty
    rw [hempty, filter_eq_self.mpr hkeep]
    rfl
  cases isIn with
  | false => exact hnothing (hguard rfl)
  | true =>
    rw [Bool.not_true, if_neg Bool.false_ne_true]
    have hall : (zzlNext zl).Ahead (lpSeek zl 0) zl := ahead_zzlNext zl 0
    rcases hall.locate hlo hhi (Nat.le_refl _) with ⟨hnone, hempty⟩ | ⟨i, hi, hahead⟩
    · rw [hnone]
      exact hnothing hempty
    · rw [hi]
      -- the pointer is the rank of the first entry in the lower bound
      obtain ⟨e, hread⟩ := hahead.exists_read
      have hlt : i < zl.length := (List.getElem?_eq_some_iff.mp hread).1
      have hdrop : zl.drop i = zl.dropWhile fun e => !iv.lower reverse e := by
        have hat := ahead_zzlNext zl i
        rw [lpSeek, if_pos hlt] at hat
        exact hat.unique hahead
      have htake : zl.take i = zl.takeWhile fun e => !iv.lower reverse e := by
        have hsplit := takeWhile_append_dropWhile (p := fun e => !iv.lower reverse e) (l := zl)
        rw [← hdrop] at hsplit
        exact (append_cancel_right (hsplit.trans (take_append_drop i zl).symm)).symm
      rw [deleteFrom, deleteLoop_eq, hdrop, htake, remove_window_eq hlo hhi,
        (hhi.dropWhile _).takeWhile_eq_filter, hlo.dropWhile_eq_filter, filter_filter]
      simp only [Interval.contains, Bool.and_comm]
      rfl

theorem zzlDeleteRangeByScore_eq (reverse : Bool) (first second : Bound σ) :
    zzlDeleteRangeByScore zl (getZrangeSpec reverse first second) =
      (zl.filter fun e => !(score first second).contains reverse e,
        (zl.filter ((score first second).contains reverse)).length) := by
  have happ : (score first second).Applies zl := trivial
  rw [← deleteFrom_eq hsorted happ (zzlIsInRange_eq_false hsorted)]
  simp only [zzlDeleteRangeByScore, zzlFirstInRange, zslValueGteMin_eq, zslValueLteMax_eq]

theorem zzlDeleteRangeByLex_eq (reverse : Bool) (happ : (lex first second).Applies zl) :
    zzlDeleteRangeByLex zl (getLexRange reverse first second) =
      (zl.filter fun e => !(lex first second).contains reverse e,
        (zl.filter ((lex first second).contains reverse)).length) := by
  rw [← deleteFrom_eq hsorted happ (zzlIsInLexRange_eq_false hsorted happ)]
  simp only [zzlDeleteRangeByLex, zzlFirstInLexRange, zslLexValueGteMin_eq, zslLexValueLteMax_eq]

end

/-! ## §6 Pops -/

omit [LinearOrder σ] in
theorem lpDeleteRange_front (zl : List (Entry σ)) (n : ℕ) :
    lpDeleteRange zl 0 (2 * n) = zl.drop n := by
  simp only [lpDeleteRange, Int.lt_irrefl, ↓reduceIte, Int.toNat_zero, Nat.zero_div, take_zero,
    nil_append, Nat.zero_add, false_or]
  split
  case isTrue hcase =>
    rcases hcase with hn | hlen
    · simp [show n = 0 by omega]
    · simp [length_eq_zero_iff.mp (by omega : zl.length = 0)]
  case isFalse => simp

omit [LinearOrder σ] in
theorem lpDeleteRange_back (zl : List (Entry σ)) {n : ℕ} (hle : n ≤ zl.length) :
    lpDeleteRange zl (-(2 * n : ℤ)) (2 * n) = zl.take (zl.length - n) := by
  rcases Nat.eq_zero_or_pos n with rfl | hpos
  · simp [lpDeleteRange]
  · have hneg : -(2 * n : ℤ) < 0 := by omega
    have hat : (2 * zl.length + -(2 * n : ℤ)).toNat = 2 * (zl.length - n) := by omega
    simp only [lpDeleteRange, if_pos hneg]
    rw [if_neg (by omega), hat, Nat.mul_div_cancel_left _ (by decide : 0 < 2),
      drop_eq_nil_of_le, append_nil]
    omega

omit [LinearOrder σ] in
/-- **Pops.** The answer is right, but the number of elements to delete wraps at thirty-two bits. -/
theorem popListPack_eq (hlen : 4 * zl.length < 2 ^ 32) (reverse : Bool) (sc : ℕ) :
    popListPack reverse sc zl =
      some ((((if reverse then zl.reverse else zl).take sc).map fun e => (e.member, e.score)),
        if reverse then zl.take (zl.length - sc % 2 ^ 31) else zl.drop (sc % 2 ^ 31)) := by
  have hnum : 2 * sc % 2 ^ 32 = 2 * (sc % 2 ^ 31) := by omega
  rw [popListPack, (ahead_start reverse zl).collect, hnum, takeWhile_eq_self_iff.mpr (by simp),
    Option.map_some]
  cases reverse with
  | false => simp [lpDeleteRange_front]
  | true =>
    simp only [↓reduceIte]
    refine congrArg some (Prod.ext rfl ?_)
    split
    case isTrue hlt =>
      rw [lpDeleteRange_front, drop_eq_nil_of_le (by omega),
        Nat.sub_eq_zero_of_le (by omega), take_zero]
    case isFalse hge =>
      have hfrom : (-(2 * sc : ℤ)).bmod (2 ^ 32) = -(2 * (sc % 2 ^ 31 : ℕ) : ℤ) := by
        rw [Int.bmod_def]
        split <;> omega
      rw [hfrom, lpDeleteRange_back zl (by omega)]

end Listpack

end Drakeydb.Zset
