import Drakeydb.Lib.Walker
import Drakeydb.Search.Text
import Mathlib.Data.Prod.Lex

/-!
# Sorted sets, their entries and intervals

The entries of a sorted set are ordered by the score and then by the bytes of the member. An
interval is given by two scores or by two strings; `GetZrangeSpec` and `GetLexRange` of
`zset_family.cc` turn it into the ranges that the containers understand. The infinite strings `-`
and `+` are the addresses of two constant strings, whose bytes mean nothing.
-/

namespace Drakeydb.Zset

open Bool

open Search (Bytes)
open Lib

/-! ## §1 Strings -/

/-- `memcmp` over the bytes that both strings have. -/
def memcmp : Bytes → Bytes → Ordering
  | a :: as, b :: bs => if a < b then .lt else if b < a then .gt else memcmp as bs
  | _, _ => .eq

/-- `sdscmp`, and `zzlCompareElements`. -/
def sdscmp (a b : Bytes) : Ordering := (memcmp a b).then (compare a.length b.length)

theorem sdscmp_cons (a b : UInt8) (as bs : Bytes) :
    sdscmp (a :: as) (b :: bs) = if a < b then .lt else if b < a then .gt else sdscmp as bs := by
  simp only [sdscmp, memcmp, List.length_cons, compare, compareOfLessAndEq,
    Nat.add_lt_add_iff_right, Nat.add_right_cancel_iff]
  split
  · rfl
  · split <;> rfl

theorem sdscmp_compares (a b : Bytes) : (sdscmp a b).Compares a b := by
  induction a generalizing b with
  | nil => cases b <;> simp [sdscmp, memcmp, compare, compareOfLessAndEq]
  | cons x a ih =>
    cases b with
    | nil => simp [sdscmp, memcmp, compare, compareOfLessAndEq]
    | cons y b =>
      rw [sdscmp_cons]
      rcases lt_trichotomy x y with hlt | rfl | hgt
      · simp [hlt, List.cons_lt_cons_iff]
      · have hrest := ih b
        cases hs : sdscmp a b <;> simp_all
      · simp [hgt, hgt.not_gt, List.cons_lt_cons_iff]

/-- The comparison of strings is the lexicographic order. -/
theorem sdscmp_lt_iff {a b : Bytes} : sdscmp a b = .lt ↔ a < b := (sdscmp_compares a b).eq_lt

theorem sdscmp_eq_iff {a b : Bytes} : sdscmp a b = .eq ↔ a = b := (sdscmp_compares a b).eq_eq

theorem sdscmp_gt_iff {a b : Bytes} : sdscmp a b = .gt ↔ b < a := (sdscmp_compares a b).eq_gt

/-- A string of a range: an address of one of the infinite strings, or a string of its own. -/
inductive LexStr where
  | cminstring
  | cmaxstring
  | str (bytes : Bytes)
  deriving DecidableEq

/-- The bytes at the address, which is all that `sdscmp` sees. -/
def LexStr.data : LexStr → Bytes
  | .cminstring => [109, 105, 110, 115, 116, 114, 105, 110, 103]
  | .cmaxstring => [109, 97, 120, 115, 116, 114, 105, 110, 103]
  | .str bytes => bytes

def sdscmplex (a b : LexStr) : Ordering :=
  if a = b then .eq
  else if a = .cminstring ∨ b = .cmaxstring then .lt
  else if a = .cmaxstring ∨ b = .cminstring then .gt
  else sdscmp a.data b.data

theorem sdscmplex_str (a b : Bytes) : sdscmplex (.str a) (.str b) = sdscmp a b := by
  by_cases heq : a = b
  · simp [sdscmplex, heq, sdscmp_eq_iff.mpr]
  · simp [sdscmplex, heq, LexStr.data]

/-! ## §2 Entries -/

/-- A member with its score. -/
@[ext]
structure Entry (σ : Type) where
  score : σ
  member : Bytes

namespace Entry

variable {σ : Type}

/-- By score, then by the bytes of the member. -/
def key (e : Entry σ) : σ ×ₗ Bytes := toLex (e.score, e.member)

theorem key_injective : Function.Injective (key (σ := σ)) := by
  rintro ⟨s, m⟩ ⟨s', m'⟩ heq
  cases congrArg ofLex heq
  rfl

end Entry

variable {σ : Type} [LinearOrder σ]

instance linearOrderEntry : LinearOrder (Entry σ) := LinearOrder.lift' Entry.key Entry.key_injective

theorem Entry.lt_iff {a b : Entry σ} : a < b ↔ a.score < b.score ∨ a.score = b.score ∧
    a.member < b.member :=
  Prod.Lex.toLex_lt_toLex

theorem Entry.score_le_of_lt {a b : Entry σ} (hlt : a < b) : a.score ≤ b.score := by
  rcases Entry.lt_iff.mp hlt with hlt | ⟨heq, -⟩
  · exact hlt.le
  · exact heq.le

theorem Entry.member_le_of_lt {a b : Entry σ} (heq : a.score = b.score) (hlt : a < b) :
    a.member ≤ b.member := by
  rcases Entry.lt_iff.mp hlt with hscore | ⟨-, hmember⟩
  · exact absurd heq hscore.ne
  · exact hmember.le

/-- The entries of a sorted set: a map from members to scores, in order. -/
structure IsZset (xs : List (Entry σ)) : Prop where
  sorted : xs.Pairwise (· < ·)
  nodup : (xs.map Entry.member).Nodup

theorem IsZset.sublist {xs ys : List (Entry σ)} (h : IsZset xs) (hsub : ys.Sublist xs) :
    IsZset ys :=
  ⟨h.sorted.sublist hsub, h.nodup.sublist (hsub.map _)⟩

/-! ## §3 Ranges -/

/-- `zrangespec`. -/
structure RangeSpec (σ : Type) where
  min : σ
  max : σ
  minex : Bool
  maxex : Bool

def zslValueGteMin (value : σ) (spec : RangeSpec σ) : Bool :=
  if spec.minex then decide (spec.min < value) else decide (spec.min ≤ value)

def zslValueLteMax (value : σ) (spec : RangeSpec σ) : Bool :=
  if spec.maxex then decide (value < spec.max) else decide (value ≤ spec.max)

/-- `zlexrangespec`. -/
structure LexRangeSpec where
  min : LexStr
  max : LexStr
  minex : Bool
  maxex : Bool

def zslLexValueGteMin (value : Bytes) (spec : LexRangeSpec) : Bool :=
  if spec.minex then sdscmplex (.str value) spec.min == .gt
    else sdscmplex (.str value) spec.min != .lt

def zslLexValueLteMax (value : Bytes) (spec : LexRangeSpec) : Bool :=
  if spec.maxex then sdscmplex (.str value) spec.max == .lt
    else sdscmplex (.str value) spec.max != .gt

/-! ## §4 Intervals -/

structure Bound (σ : Type) where
  val : σ
  isOpen : Bool

inductive LexBound where
  | plusInf
  | minusInf
  | opened (val : Bytes)
  | closed (val : Bytes)
  deriving DecidableEq

/-- `GetZrangeSpec`; a query in reverse order gives the upper end first. -/
def getZrangeSpec (reverse : Bool) (first second : Bound σ) : RangeSpec σ :=
  let interval := if reverse then (second, first) else (first, second)
  ⟨interval.1.val, interval.2.val, interval.1.isOpen, interval.2.isOpen⟩

def getLexStr : LexBound → LexStr
  | .minusInf => .cminstring
  | .plusInf => .cmaxstring
  | .opened val => .str val
  | .closed val => .str val

def LexBound.isOpen : LexBound → Bool
  | .opened _ => true
  | _ => false

def getLexRange (reverse : Bool) (first second : LexBound) : LexRangeSpec :=
  let interval := if reverse then (second, first) else (first, second)
  ⟨getLexStr interval.1, getLexStr interval.2, interval.1.isOpen, interval.2.isOpen⟩

/-- An interval as it is given. -/
inductive Interval (σ : Type) where
  | score (first second : Bound σ)
  | lex (first second : LexBound)

/-- Whether a score is not before the lower end of an interval. -/
def Bound.below (b : Bound σ) (s : σ) : Bool := if b.isOpen then decide (b.val < s)
    else decide (b.val ≤ s)

/-- Whether a score is not behind the upper end. -/
def Bound.above (b : Bound σ) (s : σ) : Bool := if b.isOpen then decide (s < b.val)
    else decide (s ≤ b.val)

/-- Whether a member is not before the lower end of an interval. -/
def LexBound.below : LexBound → Bytes → Bool
  | .minusInf, _ => true
  | .plusInf, _ => false
  | .opened val, m => (Bound.mk val true).below m
  | .closed val, m => (Bound.mk val false).below m

/-- Whether a member is not behind the upper end. -/
def LexBound.above : LexBound → Bytes → Bool
  | .minusInf, _ => false
  | .plusInf, _ => true
  | .opened val, m => (Bound.mk val true).above m
  | .closed val, m => (Bound.mk val false).above m

namespace Interval

/-- The lower end against an entry. -/
def lower (reverse : Bool) : Interval σ → Entry σ → Bool
  | .score first second, e => (if reverse then second else first).below e.score
  | .lex first second, e => (if reverse then second else first).below e.member

/-- The upper end against an entry. -/
def upper (reverse : Bool) : Interval σ → Entry σ → Bool
  | .score first second, e => (if reverse then first else second).above e.score
  | .lex first second, e => (if reverse then first else second).above e.member

def contains (reverse : Bool) (iv : Interval σ) (e : Entry σ) : Bool :=
  iv.lower reverse e && iv.upper reverse e

/-- What a query should answer: the entries of the interval in the order asked for, without the
first `offset` and at most `limit` of them. -/
def window (reverse : Bool) (offset limit : ℕ) (iv : Interval σ) (xs : List (Entry σ)) :
    List (Entry σ) :=
  (((if reverse then xs.reverse else xs).filter (iv.contains reverse)).drop offset).take limit

/-- Intervals of members make sense if all scores are the same. -/
def Applies (xs : List (Entry σ)) : Interval σ → Prop
  | .score _ _ => True
  | .lex _ _ => ∀ a ∈ xs, ∀ b ∈ xs, a.score = b.score

end Interval

variable {val s : σ}

theorem Bound.below_open : (Bound.mk val true).below s = true ↔ val < s := by simp [below]

theorem Bound.below_closed : (Bound.mk val false).below s = true ↔ val ≤ s := by
  simp [below]

-- upper ends are lower ends in the dual order
theorem Bound.above_open : (Bound.mk val true).above s = true ↔ s < val := below_open (σ := σᵒᵈ)

theorem Bound.above_closed : (Bound.mk val false).above s = true ↔ s ≤ val :=
  below_closed (σ := σᵒᵈ)

variable {isOpen : Bool}

theorem Bound.below_of_lt (hlt : val < s) : (Bound.mk val isOpen).below s = true := by
  cases isOpen
  · exact Bound.below_closed.mpr hlt.le
  · exact Bound.below_open.mpr hlt

theorem Bound.not_below_of_lt (hlt : s < val) : (Bound.mk val isOpen).below s = false := by
  cases isOpen
  · exact eq_false_iff.mpr fun h => hlt.not_ge (Bound.below_closed.mp h)
  · exact eq_false_iff.mpr fun h => hlt.not_gt (Bound.below_open.mp h)

theorem Bound.above_of_lt (hlt : s < val) : (Bound.mk val isOpen).above s = true :=
  below_of_lt (σ := σᵒᵈ) hlt

theorem Bound.not_above_of_lt (hlt : val < s) : (Bound.mk val isOpen).above s = false :=
  not_below_of_lt (σ := σᵒᵈ) hlt

variable {b : Bound σ} {s' : σ}

theorem Bound.below_mono (hle : s ≤ s') (hs : b.below s = true) : b.below s' = true := by
  obtain ⟨val, isOpen⟩ := b
  cases isOpen with
  | true => exact decide_eq_true ((of_decide_eq_true hs).trans_le hle)
  | false => exact decide_eq_true ((of_decide_eq_true hs).trans hle)

theorem Bound.above_mono (hle : s ≤ s') (hs : b.above s' = true) :
    b.above s = true := below_mono (σ := σᵒᵈ) hle hs

theorem Bound.below_iff : b.below s = true ↔ b.val ≤ s ∧ ¬(b.isOpen = true ∧ s = b.val) := by
  obtain ⟨val, isOpen⟩ := b
  cases isOpen with
  | false => simpa using below_closed
  | true =>
    rw [below_open]
    exact ⟨fun hlt => ⟨hlt.le, fun h => hlt.ne' h.2⟩,
      fun ⟨hle, hne⟩ => lt_of_le_of_ne hle fun h => hne ⟨rfl, h.symm⟩⟩

theorem Bound.above_iff : b.above s = true ↔ s ≤ b.val ∧ ¬(b.isOpen = true ∧ s = b.val) :=
  below_iff (σ := σᵒᵈ)

theorem LexBound.below_mono {b : LexBound} {m m' : Bytes} (hle : m ≤ m') (hm : b.below m = true) :
    b.below m' = true := by
  cases b with
  | minusInf => rfl
  | plusInf => cases hm
  | opened val | closed val => exact Bound.below_mono hle hm

theorem LexBound.above_mono {b : LexBound} {m m' : Bytes} (hle : m ≤ m') (hm : b.above m' = true) :
    b.above m = true := by
  cases b with
  | minusInf => cases hm
  | plusInf => rfl
  | opened val | closed val => exact Bound.above_mono hle hm

theorem Bound.disjoint {lo hi : Bound σ}
    (hinv : hi.val < lo.val ∨ lo.val = hi.val ∧ (lo.isOpen || hi.isOpen) = true) (s : σ) :
    (lo.below s && hi.above s) = false := by
  obtain ⟨lo, loOpen⟩ := lo
  obtain ⟨hi, hiOpen⟩ := hi
  rw [eq_false_iff]
  intro hin
  obtain ⟨hlo, hhi⟩ := and_eq_true_iff.mp hin
  have hle := And.intro (below_iff.mp hlo).1 (above_iff.mp hhi).1
  rcases hinv with hlt | ⟨rfl, hopen⟩
  · exact hlt.not_ge (hle.1.trans hle.2)
  · -- one of the ends leaves out the only score that is left
    obtain rfl := le_antisymm hle.1 hle.2
    rcases or_eq_true_iff.mp hopen with rfl | rfl
    · exact lt_irrefl _ (below_open.mp hlo)
    · exact lt_irrefl _ (above_open.mp hhi)

theorem LexBound.disjoint {lo hi : LexBound} (hinv : sdscmplex (getLexStr lo) (getLexStr hi) = .gt ∨
      sdscmplex (getLexStr lo) (getLexStr hi) = .eq ∧ (lo.isOpen || hi.isOpen) = true) (m : Bytes) :
    (lo.below m && hi.above m) = false := by
  have hstrs (lo hi : Bound Bytes) (h : sdscmplex (.str lo.val) (.str hi.val) = .gt ∨
      sdscmplex (.str lo.val) (.str hi.val) = .eq ∧ (lo.isOpen || hi.isOpen) = true) :
      (lo.below m && hi.above m) = false := by
    simp only [sdscmplex_str, sdscmp_gt_iff, sdscmp_eq_iff] at h
    exact Bound.disjoint h m
  cases hi with
  | minusInf => exact and_false _
  | plusInf =>
    cases lo with
    | plusInf => rfl
    | minusInf | opened val | closed val => simp [getLexStr, sdscmplex] at hinv
  | opened hi =>
    cases lo with
    | plusInf => rfl
    | minusInf => simp [getLexStr, sdscmplex] at hinv
    | opened lo => exact hstrs ⟨lo, true⟩ ⟨hi, true⟩ hinv
    | closed lo => exact hstrs ⟨lo, false⟩ ⟨hi, true⟩ hinv
  | closed hi =>
    cases lo with
    | plusInf => rfl
    | minusInf => simp [getLexStr, sdscmplex] at hinv
    | opened lo => exact hstrs ⟨lo, true⟩ ⟨hi, false⟩ hinv
    | closed lo => exact hstrs ⟨lo, false⟩ ⟨hi, false⟩ hinv

/-! ## §5 Intervals in a sorted set -/

namespace Interval

variable {xs : List (Entry σ)} {iv : Interval σ}

/-- In a sorted set all entries after one above the lower end are above it too. -/
theorem fromSome_lower (happ : iv.Applies xs) (hsorted : xs.Pairwise (· < ·)) (reverse : Bool) :
    FromSome (iv.lower reverse) xs := by
  cases iv with
  | score first second => exact hsorted.imp fun hlt => Bound.below_mono (Entry.score_le_of_lt hlt)
  | lex first second =>
    refine hsorted.imp_of_mem fun ha hb hlt => LexBound.below_mono ?_
    exact Entry.member_le_of_lt (happ _ ha _ hb) hlt

theorem upToSome_upper (happ : iv.Applies xs) (hsorted : xs.Pairwise (· < ·)) (reverse : Bool) :
    UpToSome (iv.upper reverse) xs := by
  cases iv with
  | score first second => exact hsorted.imp fun hlt => Bound.above_mono (Entry.score_le_of_lt hlt)
  | lex first second =>
    refine hsorted.imp_of_mem fun ha hb hlt => LexBound.above_mono ?_
    exact Entry.member_le_of_lt (happ _ ha _ hb) hlt

end Interval

variable (reverse : Bool) (first second : Bound σ) (e : Entry σ)

theorem zslValueGteMin_eq :
    zslValueGteMin e.score (getZrangeSpec reverse first second) =
      (Interval.score first second).lower reverse e := by
  cases reverse <;> rfl

theorem zslValueLteMax_eq :
    zslValueLteMax e.score (getZrangeSpec reverse first second) =
      (Interval.score first second).upper reverse e := by
  cases reverse <;> rfl

/-- The tests of the listpack functions on a range of members, which know the infinite strings. -/
theorem LexBound.sdscmplex_eq (b : LexBound) (m : Bytes) :
    (if b.isOpen then sdscmplex (.str m) (getLexStr b) == .gt
      else sdscmplex (.str m) (getLexStr b) != .lt) =
        b.below m ∧
      (if b.isOpen then sdscmplex (.str m) (getLexStr b) == .lt
        else sdscmplex (.str m) (getLexStr b) != .gt) = b.above m := by
  cases b with
  | minusInf | plusInf => exact ⟨rfl, rfl⟩
  | opened val =>
    simp only [isOpen, getLexStr, sdscmplex_str, below, above, ↓reduceIte]
    refine ⟨Bool.eq_iff_iff.mpr ?_, Bool.eq_iff_iff.mpr ?_⟩
    · rw [beq_iff_eq, sdscmp_gt_iff, Bound.below_open]
    · rw [beq_iff_eq, sdscmp_lt_iff, Bound.above_open]
  | closed val =>
    simp only [isOpen, getLexStr, sdscmplex_str, below, above, false_eq_true, ↓reduceIte]
    refine ⟨Bool.eq_iff_iff.mpr ?_, Bool.eq_iff_iff.mpr ?_⟩
    · rw [bne_iff_ne, Ne, sdscmp_lt_iff, not_lt, Bound.below_closed]
    · rw [bne_iff_ne, Ne, sdscmp_gt_iff, not_lt, Bound.above_closed]

theorem zslLexValueGteMin_eq (first second : LexBound) (e : Entry σ) :
    zslLexValueGteMin e.member (getLexRange reverse first second) =
      (Interval.lex first second).lower reverse e := by
  cases reverse
  · exact (first.sdscmplex_eq e.member).1
  · exact (second.sdscmplex_eq e.member).1

theorem zslLexValueLteMax_eq (first second : LexBound) (e : Entry σ) :
    zslLexValueLteMax e.member (getLexRange reverse first second) =
      (Interval.lex first second).upper reverse e := by
  cases reverse
  · exact (second.sdscmplex_eq e.member).2
  · exact (first.sdscmplex_eq e.member).2

end Drakeydb.Zset
