import Drakeydb.Zset.Listpack
import Drakeydb.Zset.SortedMapChanges

/-!
# Intervals of sorted sets in both encodings

`IntervalVisitor` of `zset_family.cc` on intervals of scores and of members, `OpCount`,
`OpLexCount`, and pops. What they should do is said about the list of the entries. In both encodings
they do it, apart from two inputs: the tree reads an infinite string at the wrong end of a range as
the bytes at its address, and a pop from a listpack counts the elements to delete in thirty-two
bits.
-/

namespace Drakeydb.Zset

open List Listpack

open Search (Bytes)
open Lib
open BPTreeSet (BPTree wordLayout)

variable {σ : Type} [LinearOrder σ]

/-! ## §1 Values -/

/-- A sorted set as the value of a key. -/
inductive Value (σ : Type) where
  | listpack (zl : List (Entry σ))
  | skiplist (zs : SortedMap σ)

/-- The entries that a value has. The size of a listpack is kept in thirty-two bits, and an entry
takes four bytes at least. -/
def Value.Holds : Value σ → List (Entry σ) → Prop
  | .listpack zl, xs => zl = xs ∧ IsZset xs ∧ 4 * xs.length < 2 ^ 32
  | .skiplist zs, xs => zs.Holds xs

theorem Value.Holds.zset {v : Value σ} {xs : List (Entry σ)} (h : v.Holds xs) : IsZset xs := by
  cases v with
  | listpack zl => exact h.2.1
  | skiplist zs => exact SortedMap.Holds.zset h

theorem Value.holds_listpack_of_sublist {zl rest : List (Entry σ)}
    (h : (Value.listpack zl).Holds zl)
    (hsub : rest.Sublist zl) : (Value.listpack rest).Holds rest :=
  ⟨rfl, h.2.1.sublist hsub, Nat.lt_of_le_of_lt (Nat.mul_le_mul_left 4 hsub.length_le) h.2.2⟩

/-- `RangeParams`, as far as intervals use it. -/
structure RangeParams where
  offset : UInt32
  limit : UInt32
  withScores : Bool
  reverse : Bool

/-! ## §2 Operations -/

/-- The operations on intervals, and pops. -/
inductive Op (σ : Type) where
  | range (iv : Interval σ) (params : RangeParams)
  | count (iv : Interval σ)
  | remove (iv : Interval σ) (params : RangeParams)
  | pop (sc : UInt32) (reverse : Bool)

/-- What an operation answers. -/
inductive Answer where
  | members (ms : List Bytes)
  | number (n : ℕ)
  deriving DecidableEq

/-- The members with their scores, as they are reported. -/
def scored (entries : List (Entry σ)) : List (Bytes × σ) := entries.map fun e => (e.member, e.score)

def actionRange [Zero σ] (params : RangeParams) (v : Value σ) :
    Interval σ → Option (List (Bytes × σ))
  | .score first second =>
    let range := getZrangeSpec params.reverse first second
    match v with
    | .listpack zl =>
      Listpack.extractListPack params.reverse params.offset.toNat params.limit.toNat zl range
    | .skiplist zs =>
      (zs.getRange range params.offset.toNat params.limit.toNat params.reverse).map scored
  | .lex first second =>
    let range := getLexRange params.reverse first second
    match v with
    | .listpack zl =>
      Listpack.extractListPackLex params.withScores params.reverse params.offset.toNat
        params.limit.toNat zl range
    | .skiplist zs =>
      (zs.getLexRange range params.offset.toNat params.limit.toNat params.reverse).map scored

/-- `OpCount` and `OpLexCount`. -/
def opCount (v : Value σ) : Interval σ → Option ℕ
  | .score first second =>
    let range := getZrangeSpec false first second
    match v with
    | .listpack zl => Listpack.count zl range
    | .skiplist zs => if range.max < range.min then some 0 else zs.count range
  | .lex first second =>
    let range := getLexRange false first second
    match v with
    | .listpack zl => Listpack.lexCount zl range
    | .skiplist zs => zs.lexCount range

def actionRem (params : RangeParams) (v : Value σ) : Interval σ → Option (Value σ × ℕ)
  | .score first second =>
    let range := getZrangeSpec params.reverse first second
    match v with
    | .listpack zl =>
      let res := Listpack.zzlDeleteRangeByScore zl range
      some (.listpack res.1, res.2)
    | .skiplist zs => (zs.deleteRangeByScore range).map fun res => (.skiplist res.1, res.2)
  | .lex first second =>
    let range := getLexRange params.reverse first second
    match v with
    | .listpack zl =>
      let res := Listpack.zzlDeleteRangeByLex zl range
      some (.listpack res.1, res.2)
    | .skiplist zs => (zs.deleteRangeByLex range).map fun res => (.skiplist res.1, res.2)

def actionPop (sc : UInt32) (reverse : Bool) (v : Value σ) : Option (List (Bytes × σ) × Value σ) :=
  if 0 < sc then
    match v with
    | .listpack zl =>
      (Listpack.popListPack reverse sc.toNat zl).map fun res => (res.1, .listpack res.2)
    | .skiplist zs =>
      (zs.popTopScores sc.toNat reverse).map fun res => (scored res.1, .skiplist res.2)
  else some ([], v)

namespace Op

/-- An operation on a value. -/
def apply [Zero σ] (v : Value σ) : Op σ → Option (Answer × Value σ)
  | .range iv params => (actionRange params v iv).map fun res => (.members (res.map Prod.fst), v)
  | .count iv => (opCount v iv).map fun n => (.number n, v)
  | .remove iv params => (actionRem params v iv).map fun res => (.number res.2, res.1)
  | .pop sc reverse =>
    (actionPop sc reverse v).map fun res => (.members (res.1.map Prod.fst), res.2)

/-! ## §3 What they should do -/

def answer (xs : List (Entry σ)) : Op σ → Answer
  | .range iv params =>
    .members ((iv.window params.reverse params.offset.toNat params.limit.toNat xs).map Entry.member)
  | .count iv => .number (xs.filter (iv.contains false)).length
  | .remove iv params => .number (xs.filter (iv.contains params.reverse)).length
  | .pop sc reverse =>
    .members (((if reverse then xs.reverse else xs).take sc.toNat).map Entry.member)

def left (xs : List (Entry σ)) : Op σ → List (Entry σ)
  | .range _ _ => xs
  | .count _ => xs
  | .remove iv params => xs.filter fun e => !iv.contains params.reverse e
  | .pop sc reverse => if reverse then xs.take (xs.length - sc.toNat) else xs.drop sc.toNat

/-- The answer is right, and so is the value that is left. -/
def Right [Zero σ] (v : Value σ) (xs : List (Entry σ)) (op : Op σ) : Prop :=
  ∃ v', op.apply v = some (op.answer xs, v') ∧ v'.Holds (op.left xs)

/-- Intervals of members apply to sets with one score. -/
def Applies (xs : List (Entry σ)) : Op σ → Prop
  | .range iv _ => iv.Applies xs
  | .count iv => iv.Applies xs
  | .remove iv _ => iv.Applies xs
  | .pop _ _ => True

/-- Where an operation does what it should. In the tree an infinite string may only stand at its own
end, unless no entry would be found for the bytes at its address; and a pop from a listpack may not
wrap, unless it takes all entries anyway. -/
def Exact (v : Value σ) (xs : List (Entry σ)) : Op σ → Prop
  | .range iv params =>
    match v with
    | .listpack _ => True
    | .skiplist _ => iv.asRead params.reverse = iv ∨ params.limit.toNat = 0 ∨
        (xs.filter ((iv.asRead params.reverse).contains params.reverse)).length ≤
          params.offset.toNat
  | .count _ => True
  | .remove iv params =>
    match v with
    | .listpack _ => True
    | .skiplist _ => iv.asRead params.reverse = iv ∨
        xs.filter ((iv.asRead params.reverse).contains params.reverse) = []
  | .pop sc _ =>
    match v with
    | .listpack _ => sc.toNat < 2 ^ 31 ∨ xs.length ≤ sc.toNat % 2 ^ 31
    | .skiplist _ => True

end Op

/-! ## §4 Each operation in each encoding -/

variable {xs zl : List (Entry σ)} {zs : SortedMap σ} {iv : Interval σ}

omit [LinearOrder σ] in
theorem map_fst_scored (entries : List (Entry σ)) :
    (scored entries).map Prod.fst = entries.map Entry.member := by
  rw [scored, map_map]
  rfl

theorem actionRange_listpack [Zero σ] (hsorted : zl.Pairwise (· < ·)) (happ : iv.Applies zl)
    (params : RangeParams) :
    (actionRange params (.listpack zl) iv).map (List.map Prod.fst) =
      some ((iv.window params.reverse params.offset.toNat params.limit.toNat zl).map
        Entry.member) := by
  cases iv with
  | score first second =>
    rw [actionRange, extractListPack_eq hsorted, Option.map_some, map_map]
    rfl
  | lex first second =>
    rw [actionRange, extractListPackLex_eq hsorted _ _ _ _ happ, Option.map_some, map_map]
    rfl

theorem actionRange_skiplist [Zero σ] (h : zs.Holds xs) (happ : iv.Applies xs)
    (params : RangeParams) :
    (actionRange params (.skiplist zs) iv).map (List.map Prod.fst) =
      some (((iv.asRead params.reverse).window params.reverse params.offset.toNat params.limit.toNat
        xs).map Entry.member) := by
  cases iv with
  | score first second =>
    rw [actionRange, h.getRange, Option.map_some, Option.map_some, map_fst_scored]
    rfl
  | lex first second =>
    rw [actionRange, h.getLexRange happ, Option.map_some, Option.map_some, map_fst_scored]

/-- Counts are exact in both forms. -/
theorem opCount_eq {v : Value σ} (h : v.Holds xs) (happ : iv.Applies xs) :
    opCount v iv = some (xs.filter (iv.contains false)).length := by
  cases v with
  | listpack zl =>
    obtain ⟨rfl, hzset, -⟩ := h
    cases iv with
    | score first second => exact count_eq hzset.sorted first second
    | lex first second => exact lexCount_eq hzset.sorted happ
  | skiplist zs =>
    cases iv with
    | score first second =>
      rw [opCount]
      split
      case isTrue hinv =>
        rw [filter_eq_nil_iff.mpr]
        · rfl
        · exact fun e _ => Bool.eq_false_iff.mp (Bound.disjoint (.inl hinv) e.score)
      case isFalse => exact SortedMap.Holds.count first second h
    | lex first second => exact SortedMap.Holds.lexCount h happ

theorem actionRem_listpack (hzset : IsZset zl) (happ : iv.Applies zl) (params : RangeParams) :
    actionRem params (.listpack zl) iv =
      some (.listpack (zl.filter fun e => !iv.contains params.reverse e),
        (zl.filter (iv.contains params.reverse)).length) := by
  cases iv with
  | score first second =>
    simp [actionRem, zzlDeleteRangeByScore_eq hzset.sorted]
  | lex first second =>
    simp [actionRem, zzlDeleteRangeByLex_eq hzset.sorted _ happ]

theorem actionRem_skiplist (h : zs.Holds xs) (happ : iv.Applies xs) (params : RangeParams) :
    ∃ zs', actionRem params (.skiplist zs) iv = some (.skiplist zs',
        (xs.filter ((iv.asRead params.reverse).contains params.reverse)).length) ∧
      zs'.Holds (xs.filter fun e => !(iv.asRead params.reverse).contains params.reverse e) := by
  cases iv with
  | score first second =>
    obtain ⟨zs', hdel, h'⟩ := h.deleteRangeByScore first second params.reverse
    exact ⟨zs', by rw [actionRem, hdel]; rfl, h'⟩
  | lex first second =>
    obtain ⟨zs', hdel, h'⟩ := h.deleteRangeByLex happ params.reverse
    exact ⟨zs', by rw [actionRem, hdel]; rfl, h'⟩

omit [LinearOrder σ] in
theorem actionPop_listpack (hlen : 4 * zl.length < 2 ^ 32) (sc : UInt32) (reverse : Bool) :
    actionPop sc reverse (.listpack zl) =
      some (scored ((if reverse then zl.reverse else zl).take sc.toNat),
        .listpack (if reverse then zl.take (zl.length - sc.toNat % 2 ^ 31)
          else zl.drop (sc.toNat % 2 ^ 31))) := by
  rw [actionPop]
  split
  case isTrue =>
    rw [popListPack_eq hlen]
    rfl
  case isFalse hsc =>
    have hzero : sc.toNat = 0 := Nat.eq_zero_of_not_pos hsc
    rw [hzero]
    cases reverse <;> simp [scored]

theorem actionPop_skiplist (h : zs.Holds xs) (sc : UInt32) (reverse : Bool) :
    ∃ zs', actionPop sc reverse (.skiplist zs) =
        some (scored ((if reverse then xs.reverse else xs).take sc.toNat), .skiplist zs') ∧
      zs'.Holds (if reverse then xs.take (xs.length - sc.toNat) else xs.drop sc.toNat) := by
  rw [actionPop]
  split
  case isTrue =>
    obtain ⟨zs', hpop, h'⟩ := h.popTopScores sc.toNat reverse
    exact ⟨zs', by rw [hpop]; rfl, h'⟩
  case isFalse hsc =>
    have hzero : sc.toNat = 0 := Nat.eq_zero_of_not_pos hsc
    rw [hzero]
    refine ⟨zs, by cases reverse <;> rfl, ?_⟩
    cases reverse <;> simpa using h

omit [LinearOrder σ] in
theorem pop_left_eq_iff (hlen : 4 * zl.length < 2 ^ 32) (reverse : Bool) {sc : ℕ} :
    ((if reverse then zl.take (zl.length - sc % 2 ^ 31) else zl.drop (sc % 2 ^ 31)) =
        if reverse then zl.take (zl.length - sc) else zl.drop sc) ↔
      sc < 2 ^ 31 ∨ zl.length ≤ sc % 2 ^ 31 := by
  by_cases hsc : sc < 2 ^ 31
  · rw [Nat.mod_eq_of_lt hsc]
    exact iff_of_true rfl (.inl hsc)
  · -- all entries should be gone
    rw [or_iff_right hsc]
    cases reverse with
    | false =>
      simp only [Bool.false_eq_true, ↓reduceIte]
      rw [drop_eq_nil_of_le (by omega : zl.length ≤ sc), drop_eq_nil_iff]
    | true =>
      simp only [↓reduceIte]
      rw [Nat.sub_eq_zero_of_le (by omega : zl.length ≤ sc), take_zero, take_eq_nil_iff,
        Nat.sub_eq_zero_iff_le, or_iff_left_of_imp]
      rintro rfl
      exact Nat.zero_le _

/-- An interval with an infinite string at the wrong end is empty. -/
theorem contains_of_asRead_ne {reverse : Bool} (hne : iv.asRead reverse ≠ iv) (e : Entry σ) :
    iv.contains reverse e = false := by
  cases iv with
  | score first second => exact absurd rfl hne
  | lex first second =>
    -- one of the ends is read as another one
    have hends : ∀ lo hi : LexBound, lo.lowerAsRead ≠ lo ∨ hi.upperAsRead ≠ hi →
        (lo.below e.member && hi.above e.member) = false := by
      intro lo hi hread
      rcases hread with hread | hread
      · cases lo <;> first | rfl | exact absurd rfl hread
      · cases hi <;> first | exact Bool.and_false _ | exact absurd rfl hread
    cases reverse
    · refine hends first second (not_and_or.mp fun hsame => hne ?_)
      simp [Interval.asRead, hsame.1, hsame.2]
    · refine hends second first (not_and_or.mp fun hsame => hne ?_)
      simp [Interval.asRead, hsame.1, hsame.2]

theorem window_eq_nil_iff {reverse : Bool} {offset limit : ℕ} :
    iv.window reverse offset limit xs = [] ↔
      limit = 0 ∨ (xs.filter (iv.contains reverse)).length ≤ offset := by
  have hlen : ((if reverse then xs.reverse else xs).filter (iv.contains reverse)).length =
      (xs.filter (iv.contains reverse)).length := by
    cases reverse <;> simp [filter_reverse]
  simp [Interval.window, hlen]

/-! ## §5 All operations -/

namespace Op

variable {v : Value σ}

theorem right_iff_of_same [Zero σ] (h : v.Holds xs) {op : Op σ} {ans : Answer}
    (happly : op.apply v = some (ans, v)) (hleft : op.left xs = xs) :
      op.Right v xs ↔ ans = op.answer xs := by
  rw [Right, happly, hleft]
  constructor
  · rintro ⟨v', heq, -⟩
    exact (Prod.mk.inj (Option.some.inj heq)).1
  · rintro rfl
    exact ⟨v, rfl, h⟩

theorem range_right_iff [Zero σ] (h : v.Holds xs) (happ : iv.Applies xs)
    (params : RangeParams) : (Op.range iv params).Right v xs ↔ (Op.range iv params).Exact v xs := by
  cases v with
  | listpack zl =>
    obtain ⟨rfl, hzset, -⟩ := id h
    have hrange := actionRange_listpack hzset.sorted happ params
    obtain ⟨res, hres, hmembers⟩ := Option.map_eq_some_iff.mp hrange
    rw [right_iff_of_same h (by rw [apply, hres]; rfl) rfl, hmembers]
    exact iff_of_true rfl trivial
  | skiplist zs =>
    have hrange := actionRange_skiplist h happ params
    obtain ⟨res, hres, hmembers⟩ := Option.map_eq_some_iff.mp hrange
    rw [right_iff_of_same h (by rw [apply, hres]; rfl) rfl, hmembers, answer, Answer.members.injEq]
    simp only [Exact]
    by_cases hread : iv.asRead params.reverse = iv
    · rw [hread]
      exact iff_of_true rfl (.inl rfl)
    · -- the interval is empty, so the answer has to be
      have hempty : iv.window params.reverse params.offset.toNat params.limit.toNat xs = [] :=
        SortedMap.window_eq_nil (fun e _ => contains_of_asRead_ne hread e) _ _
      rw [hempty, map_nil, map_eq_nil_iff, window_eq_nil_iff, or_iff_right hread]

theorem remove_right_iff [Zero σ] (h : v.Holds xs) (happ : iv.Applies xs)
    (params : RangeParams) : (Op.remove iv params).Right v xs ↔
      (Op.remove iv params).Exact v xs := by
  cases v with
  | listpack zl =>
    obtain ⟨rfl, hzset, hlen⟩ := id h
    refine iff_of_true ⟨_, by rw [apply, actionRem_listpack hzset happ]; rfl, ?_⟩ trivial
    exact Value.holds_listpack_of_sublist h filter_sublist
  | skiplist zs =>
    obtain ⟨zs', hrem, h'⟩ := actionRem_skiplist h happ params
    simp only [Right, apply, hrem, Option.map_some, Option.some.injEq, Prod.mk.injEq, answer,
      left, Exact, Answer.number.injEq]
    by_cases hread : iv.asRead params.reverse = iv
    · rw [hread] at h' ⊢
      exact iff_of_true ⟨_, ⟨rfl, rfl⟩, h'⟩ (.inl rfl)
    · have hempty : xs.filter (iv.contains params.reverse) = [] :=
        filter_eq_nil_iff.mpr fun e _ => by simp [contains_of_asRead_ne hread e]
      rw [hempty, length_nil, length_eq_zero_iff, or_iff_right hread]
      constructor
      · rintro ⟨v', ⟨hnone, -⟩, -⟩
        exact hnone
      · intro hnone
        refine ⟨_, ⟨hnone, rfl⟩, ?_⟩
        rw [SortedMap.filter_not_eq_self hnone] at h'
        rwa [SortedMap.filter_not_eq_self hempty]

/-- When a pop is right: a listpack counts modulo a power of two. -/
theorem pop_right_iff [Zero σ] (h : v.Holds xs) (sc : UInt32) (reverse : Bool) :
    (Op.pop sc reverse).Right v xs ↔ (Op.pop sc reverse).Exact v xs := by
  cases v with
  | listpack zl =>
    obtain ⟨rfl, hzset, hlen⟩ := id h
    simp only [Right, apply, actionPop_listpack hlen, Option.map_some, Option.some.injEq,
      Prod.mk.injEq, map_fst_scored, answer, true_and, Exact, ← pop_left_eq_iff hlen reverse]
    constructor
    · rintro ⟨v', rfl, hv'⟩
      exact hv'.1
    · intro heq
      refine ⟨_, rfl, ?_⟩
      rw [left, ← heq]
      refine Value.holds_listpack_of_sublist h ?_
      cases reverse
      · exact drop_sublist _ _
      · exact take_sublist _ _
  | skiplist zs =>
    obtain ⟨zs', hpop, h'⟩ := actionPop_skiplist h sc reverse
    refine iff_of_true ⟨.skiplist zs', ?_, h'⟩ trivial
    rw [apply, hpop, Option.map_some, map_fst_scored]
    rfl

/-- **Intervals and pops.** An operation does what it should exactly if the tree is not given an
infinite string at the wrong end, or finds nothing for its bytes, and a listpack is not asked for
more entries than it can count. -/
theorem right_iff_exact [Zero σ] {v : Value σ} (h : v.Holds xs) (op : Op σ) (happ : op.Applies xs) :
    op.Right v xs ↔ op.Exact v xs := by
  cases op with
  | range iv params => exact range_right_iff h happ params
  | count iv =>
    rw [right_iff_of_same h (by rw [apply, opCount_eq h happ]; rfl) rfl]
    exact iff_of_true rfl trivial
  | remove iv params => exact remove_right_iff h happ params
  | pop sc reverse => exact pop_right_iff h sc reverse

def twoMembers : List (Entry ℤ) := [⟨1, [97]⟩, ⟨2, []⟩]

theorem holds_twoMembers : (Value.listpack twoMembers).Holds twoMembers :=
  ⟨rfl, ⟨by decide +kernel, by decide +kernel⟩, by decide⟩

theorem exists_holds_twoMembers : ∃ zs : SortedMap ℤ, zs.Holds twoMembers := by
  obtain ⟨t, -, hok, hlist⟩ := BPTree.Ok.insert (L := wordLayout) BPTree.ok_empty List.Pairwise.nil
    (⟨1, [97]⟩ : Entry ℤ)
  rw [if_neg (by decide)] at hlist
  obtain ⟨t', -, hok', hlist'⟩ := hok.insert (by rw [hlist]; exact pairwise_singleton _ _) ⟨2, []⟩
  rw [hlist] at hlist'
  exact ⟨⟨[([97], 1), ([], 2)], t'⟩, hok', hlist'.trans (by decide +kernel),
    holds_twoMembers.2.1, List.Perm.refl _, by decide⟩

/-- Both forms give a range with an open end, and a tree removes it. -/
theorem right_open_end :
    (Op.range (.score ⟨2, false⟩ ⟨1, true⟩) ⟨0, 10, true, true⟩).Right
      (Value.listpack twoMembers) twoMembers ∧
    ∃ zs : SortedMap ℤ, zs.Holds twoMembers ∧
      (Op.range (.score ⟨2, false⟩ ⟨1, true⟩) ⟨0, 10, true, true⟩).Right
        (Value.skiplist zs) twoMembers ∧
      (Op.remove (.score ⟨1, true⟩ ⟨2, false⟩) ⟨0, 10, false, true⟩).Right
        (Value.skiplist zs) twoMembers := by
  obtain ⟨zs, h⟩ := exists_holds_twoMembers
  have htree : (Value.skiplist zs).Holds twoMembers := h
  exact ⟨(right_iff_exact holds_twoMembers _ (by exact trivial)).mpr trivial, zs, h,
    (right_iff_exact htree _ (by exact trivial)).mpr (.inl rfl),
    (right_iff_exact htree _ (by exact trivial)).mpr (.inl rfl)⟩

/-- A set of one member in a tree. -/
def oneMember : SortedMap ℤ :=
  ⟨[([122], 0)], ⟨some ⟨0, BPTreeSet.Node.initSingle ⟨0, [122]⟩⟩, 1⟩⟩

theorem holds_oneMember : oneMember.Holds [⟨0, [122]⟩] := by
  obtain ⟨t, hins, hok, hlist⟩ :=
    BPTree.Ok.insert (L := wordLayout) BPTree.ok_empty List.Pairwise.nil
    (⟨0, [122]⟩ : Entry ℤ)
  obtain rfl : t = oneMember.scoreTree := (Prod.mk.inj (Option.some.inj hins)).1.symm
  exact ⟨hok, hlist, ⟨pairwise_singleton _ _, nodup_singleton _⟩, List.Perm.refl _, by decide⟩

/-- The members from `+` to `+` are none, but the tree answers with those from `maxstring` on. -/
theorem wrong_plusInf :
    (Value.skiplist oneMember).Holds [⟨0, [122]⟩] ∧
      ¬(Op.range (.lex .plusInf .plusInf) ⟨0, 10, false, false⟩).Right (Value.skiplist oneMember)
        [⟨0, [122]⟩] := by
  refine ⟨holds_oneMember, ?_⟩
  rintro ⟨v', happly, -⟩
  have hanswer := congrArg (Option.map Prod.fst) happly
  rw [Option.map_some] at hanswer
  dsimp only at hanswer
  exact absurd hanswer (by decide +kernel)

end Op

end Drakeydb.Zset
