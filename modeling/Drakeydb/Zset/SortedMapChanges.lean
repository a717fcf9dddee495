import Drakeydb.Zset.SortedMapQueries

/-!
# Changes of a `SortedMap`

Deletions by rank, by score and by member, and pops. Each keeps the hash map and the tree in
agreement.
-/

namespace Drakeydb.Zset.SortedMap

open List hiding beq_eq_decide contains
open Option Drakeydb.Zset.Interval Bool

open Search (Bytes)
open Lib
open BPTreeSet (BPTree Path wordLayout)

variable {σ : Type} [LinearOrder σ] {xs : List (Entry σ)} {zs : SortedMap σ}

/-! ## §1 One entry -/

variable {gone rest : List (Entry σ)}

omit [LinearOrder σ] in
theorem perm_erase {scoreMap : List (Bytes × σ)}
    (hperm : scoreMap.Perm (xs.map fun e => (e.member, e.score)))
    (hxs : xs.Perm (gone ++ rest)) (hnodup : (xs.map Entry.member).Nodup) :
    (scoreMap.filter fun e => !(gone.map Entry.member).contains e.1).Perm
      (rest.map fun e => (e.member, e.score)) := by
  have hmembers : ((gone ++ rest).map Entry.member).Nodup := (hxs.map _).nodup_iff.mp hnodup
  rw [map_append, nodup_append] at hmembers
  have hgone : ((gone.map fun e => (e.member, e.score)).filter
      fun e => !(gone.map Entry.member).contains e.1) = [] := by
    simpa using fun e he => ⟨e, he, rfl⟩
  have hrest : ((rest.map fun e => (e.member, e.score)).filter
      fun e => !(gone.map Entry.member).contains e.1) = rest.map fun e => (e.member, e.score) := by
    refine filter_eq_self.mpr fun e he => ?_
    obtain ⟨x, hx, rfl⟩ := mem_map.mp he
    simpa using fun y hy heq =>
      hmembers.2.2 y.member (mem_map_of_mem hy) x.member (mem_map_of_mem hx) heq
  have hall := (hperm.trans (hxs.map _)).filter fun e => !(gone.map Entry.member).contains e.1
  rwa [map_append, filter_append, hgone, hrest, nil_append] at hall

variable {t : BPTree (Entry σ)}

theorem Holds.without (h : zs.Holds xs) (hxs : xs.Perm (gone ++ rest))
    (hsub : rest.Sublist xs) (hok : t.Ok wordLayout) (hlist : t.toList = rest) :
    Holds ⟨zs.scoreMap.filter fun e => !(gone.map Entry.member).contains e.1, t⟩ rest where
  ok := hok
  toList_eq := hlist
  zset := h.zset.sublist hsub
  perm := perm_erase h.perm hxs h.zset.nodup
  length_lt := hsub.length_le.trans_lt h.length_lt

omit [LinearOrder σ] in
theorem eraseMember_eq (scoreMap : List (Bytes × σ)) (e : Entry σ) :
    eraseMember scoreMap e.member = scoreMap.filter fun f =>
      !([e].map Entry.member).contains f.1 := by
  refine List.filter_congr fun f _ => ?_
  simp [bne, beq_eq_decide]

variable {A B : List (Entry σ)} {x : Entry σ}

theorem Holds.cut (h : zs.Holds (A ++ x :: B)) (hok : t.Ok wordLayout) (hlist : t.toList = A ++ B) :
    Holds ⟨eraseMember zs.scoreMap x.member, t⟩ (A ++ B) := by
  rw [eraseMember_eq]
  exact h.without perm_middle ((Sublist.refl A).append (sublist_cons_self x B)) hok hlist

omit [LinearOrder σ] in
theorem foldl_eraseMember_eq (scoreMap : List (Bytes × σ)) (members : List Bytes) :
    members.foldl eraseMember scoreMap = scoreMap.filter fun e => !members.contains e.1 := by
  induction members generalizing scoreMap with
  | nil => simp
  | cons m members ih =>
    rw [List.foldl_cons, ih, eraseMember, List.filter_filter]
    refine List.filter_congr fun e _ => ?_
    simp [bne, beq_eq_decide, Bool.and_comm]

omit [LinearOrder σ] in
theorem deletePath_fromRank (hok : t.Ok wordLayout) (hnodup : t.toList.Nodup)
    {rank : ℕ} (hlt : rank < t.toList.length) :
    ∃ A x B t', t.toList = A ++ x :: B ∧ A.length = rank ∧ t.terminal (t.fromRank rank) = some x ∧
      t.deletePath wordLayout (t.fromRank rank) = some t' ∧ t'.Ok wordLayout ∧
        t'.toList = A ++ B := by
  obtain ⟨A, x, B, hp, hA⟩ := hok.fromRank hlt
  obtain ⟨A', B', t', hcut, hdel, hok', hlist'⟩ := hok.deletePath hp.terminal_eq
  have hout := (nodup_cons.mp (nodup_middle.mp (hp.toList_eq ▸ hnodup))).1
  obtain ⟨rfl, -, rfl⟩ := (append_cons_inj_of_notMem (mt (mem_append_left B) hout)
    (mt (mem_append_right A) hout)).mp (hp.toList_eq.symm.trans hcut)
  exact ⟨A, x, B, t', hcut, hA, hp.terminal_eq, hdel, hok', hlist'⟩

/-- Deleting at a rank takes out the entry of that rank. -/
theorem Holds.deleteAtRank (h : zs.Holds xs) {rank : ℕ} (hlt : rank < xs.length) :
    ∃ A x B zs', xs = A ++ x :: B ∧ A.length = rank ∧
      zs.scoreTree.terminal (zs.scoreTree.fromRank rank) = some x ∧
      zs.deleteAtRank rank = some zs' ∧ zs'.Holds (A ++ B) := by
  have hlist := h.toList_eq
  obtain ⟨A, x, B, t', hcut, hA, hterm, hdel, hok', hlist'⟩ :=
    deletePath_fromRank h.ok (hlist ▸ h.nodup) (hlist ▸ hlt)
  rw [hlist] at hcut
  refine ⟨A, x, B, ⟨eraseMember zs.scoreMap x.member, t'⟩, hcut, hA, hterm, ?_, ?_⟩
  · simp [SortedMap.deleteAtRank, hterm, hdel]
  · exact (hcut ▸ h).cut hok' hlist'

/-! ## §2 Ranks -/

/-- The loop deletes as often as it runs, always at the same rank. -/
theorem Holds.deleteRankLoop (h : zs.Holds xs) {start rounds : ℕ}
    (hle : start + rounds ≤ xs.length) :
    ∃ zs', deleteRankLoop start rounds zs = some zs' ∧
      zs'.Holds (xs.take start ++ xs.drop (start + rounds)) := by
  induction rounds generalizing zs xs with
  | zero => exact ⟨zs, rfl, by rwa [Nat.add_zero, take_append_drop]⟩
  | succ rounds ih =>
    obtain ⟨A, x, B, zs1, rfl, rfl, -, hdel, h1⟩ := h.deleteAtRank (by omega : start < xs.length)
    obtain ⟨zs', hloop, h'⟩ := ih h1 (by
      simp only [length_append, length_cons] at hle ⊢
      omega)
    refine ⟨zs', by simp [deleteRankLoop, hdel, hloop], ?_⟩
    rwa [take_left, drop_length_add_append] at h' ⊢

/-- **Deletion by rank.** -/
theorem Holds.deleteRangeByRank (h : zs.Holds xs) {start end' : ℕ} (hle : start ≤ end')
    (hlt : end' < xs.length) :
    ∃ zs', zs.deleteRangeByRank start end' = some (zs', end' - start + 1) ∧
      zs'.Holds (xs.take start ++ xs.drop (end' + 1)) := by
  have hlen := h.length_lt
  obtain ⟨zs', hloop, h'⟩ := h.deleteRankLoop (by omega : start + (end' + 1 - start) ≤ xs.length)
  rw [show start + (end' + 1 - start) = end' + 1 by omega] at h'
  refine ⟨zs', ?_, h'⟩
  rw [SortedMap.deleteRangeByRank, hloop, map_some]
  congr 2
  omega

/-! ## §3 Scores -/

variable {inside : Entry σ → Bool} {deleted : ℕ}

omit [LinearOrder σ] in
theorem filter_not_eq_self (hnone : xs.filter inside = []) : (xs.filter fun e => !inside e) = xs :=
  filter_eq_self.mpr fun e he => by simpa using filter_eq_nil_iff.mp hnone e he

/-- The loop of a deletion ends with all that is inside deleted and counted. -/
def Deletes (inside : Entry σ → Bool) (xs : List (Entry σ)) (deleted : ℕ)
    (result : Option (SortedMap σ × ℕ)) : Prop :=
  ∃ zs', result = some (zs', (xs.filter inside).length + deleted) ∧
    zs'.Holds (xs.filter fun e => !inside e)

theorem Holds.deletes_none (h : zs.Holds xs) (hnone : xs.filter inside = []) :
    Deletes inside xs deleted (some (zs, deleted)) :=
  ⟨zs, by simp [hnone], by rwa [filter_not_eq_self hnone]⟩

theorem Deletes.cons {result : Option (SortedMap σ × ℕ)}
    (h : Deletes inside (A ++ B) (deleted + 1) result)
    (hx : inside x = true) : Deletes inside (A ++ x :: B) deleted result := by
  obtain ⟨zs', rfl, h'⟩ := h
  refine ⟨zs', ?_, ?_⟩
  · rw [filter_append, filter_append, filter_cons_of_pos hx, length_append, length_append,
      length_cons]
    congr 2
    omega
  · rwa [filter_append, filter_cons_of_neg (by simp [hx]), ← filter_append]

/-- Each round deletes the first entry of the interval that is left. -/
theorem Holds.deleteScoreLoop (lo hi : Bound σ) (rounds deleted : ℕ) (h : zs.Holds xs)
    (hle : (xs.filter fun e => lo.below e.score && hi.above e.score).length ≤ rounds) :
    Deletes (fun e => lo.below e.score && hi.above e.score) xs deleted
      (deleteScoreLoop ⟨lo.val, hi.val, lo.isOpen, hi.isOpen⟩ rounds zs deleted) := by
  induction rounds generalizing zs xs deleted with
  | zero => exact h.deletes_none (length_eq_zero_iff.mp (Nat.le_zero.mp hle))
  | succ rounds ih =>
    have hsorted := h.zset.sorted
    have hlist := h.toList_eq
    rw [deleteScoreLoop, h.size_eq]
    split
    case isTrue hzero => exact h.deletes_none (by rw [length_eq_zero_iff.mp hzero]; rfl)
    case isFalse hpos =>
      have hne : zs.scoreTree.toList ≠ [] := hlist ▸ mt length_eq_zero_iff.mpr hpos
      rcases h.ok.geq_cases (hlist ▸ cuts_scoredKey hsorted lo.val lo.isOpen) hne with
        ⟨hgeq, hnone⟩ | ⟨path, A, x, B, hgeq, hp, hA, hx⟩
      · -- no entry is in the lower end
        simp only [hgeq, ↓reduceIte]
        refine h.deletes_none (filter_eq_nil_iff.mpr fun e he hin => ?_)
        exact scoredKey_ne_gt.mpr (and_eq_true_iff.mp hin).1 (hnone e (hlist ▸ he))
      · obtain rfl : xs = A ++ x :: B := hlist ▸ hp.toList_eq
        have hstop : (decide (hi.val < x.score) || hi.isOpen && decide (x.score = hi.val)) =
            !hi.above x.score := by
          rw [← not_stop_above hi x.score, Bool.not_not, Bool.and_comm]
          simp only [eq_comm]
        simp only [hgeq, hp.ne_nil, ↓reduceIte, hp.terminal_eq, hstop]
        cases hxhi : hi.above x.score with
        | false =>
          -- the first entry in the lower end is behind the upper one, and so is all that follows
          refine h.deletes_none (filter_eq_nil_iff.mpr fun e he hin => ?_)
          obtain ⟨hlo, hhi⟩ := and_eq_true_iff.mp hin
          rcases mem_append.mp he with he | he
          · exact scoredKey_ne_gt.mpr hlo (hA e he)
          · rcases mem_cons.mp he with rfl | he
            · simp [hxhi] at hhi
            · have hxe := (pairwise_cons.mp (pairwise_append.mp hsorted).2.1).1 e he
              simp [Bound.above_mono (Entry.score_le_of_lt hxe) hhi] at hxhi
        | true =>
          obtain ⟨t', hdel, hok', hlist'⟩ := h.ok.delete (hlist ▸ hsorted) x
          have hinside : (lo.below x.score && hi.above x.score) = true := by
            rw [hxhi, scoredKey_ne_gt.mp hx]
            rfl
          rw [hlist, BPTree.erase_middle hsorted] at hlist'
          rw [filter_append, filter_cons_of_pos (by exact hinside), length_append,
            length_cons] at hle
          simp only [hdel]
          refine (ih (deleted + 1) (h.cut hok' hlist') ?_).cons hinside
          rw [filter_append, length_append]
          omega

/-- **Deletion by score.** -/
theorem Holds.deleteRangeByScore (h : zs.Holds xs) (first second : Bound σ) (reverse : Bool) :
    ∃ zs', zs.deleteRangeByScore (getZrangeSpec reverse first second) =
        some (zs', (xs.filter ((Interval.score first second).contains reverse)).length) ∧
      zs'.Holds (xs.filter fun e => !(Interval.score first second).contains reverse e) := by
  have hloop := fun lo hi : Bound σ => h.deleteScoreLoop lo hi zs.scoreTree.size 0 (by
    rw [h.size_eq]
    exact length_filter_le _ _)
  cases reverse
  · exact hloop first second
  · exact hloop second first

/-! ## §4 Members -/

/-- The loop of `DeleteRangeByLex`, from the first rank of the range on. -/
theorem Holds.deleteLexLoop (b : LexBound) (range : LexRangeSpec) (hmax : range.max = getLexStr b)
    (hmaxex : range.maxex = b.isOpen) {before after : List (Entry σ)} (rounds deleted : ℕ)
    (h : zs.Holds (before ++ after)) (hle : after.length ≤ rounds) :
    ∃ zs', deleteLexLoop range before.length rounds zs deleted =
        some (zs', deleted + (after.takeWhile fun e => b.upperAsRead.above e.member).length) ∧
      zs'.Holds (before ++ after.dropWhile fun e => b.upperAsRead.above e.member) := by
  induction rounds generalizing zs after deleted with
  | zero =>
    obtain rfl := length_eq_zero_iff.mp (Nat.le_zero.mp hle)
    exact ⟨zs, rfl, h⟩
  | succ rounds ih =>
    rw [deleteLexLoop, h.size_eq, length_append]
    cases after with
    | nil => exact ⟨zs, by simp, h⟩
    | cons x rest =>
      obtain ⟨A, y, B, zs1, hcut, hA, hterm, hdel, h1⟩ := h.deleteAtRank
        (by simp : before.length < (before ++ x :: rest).length)
      obtain ⟨rfl, htail⟩ := append_inj hcut hA.symm
      obtain ⟨rfl, rfl⟩ := cons.inj htail
      have hstop := not_stop_above_lex b x.member
      rw [if_neg (by simp), hterm]
      simp only [hmax, hmaxex]
      cases hxin : b.upperAsRead.above x.member with
      | false =>
        rw [hxin, not_eq_false'] at hstop
        rw [if_pos hstop, takeWhile_cons_of_neg (by simp [hxin]),
          dropWhile_cons_of_neg (by simp [hxin])]
        exact ⟨zs, rfl, h⟩
      | true =>
        rw [hxin, not_eq_true'] at hstop
        obtain ⟨zs', hloop, h'⟩ := ih (deleted + 1) h1 (Nat.le_of_succ_le_succ hle)
        refine ⟨zs', ?_, ?_⟩
        · rw [if_neg (eq_false_iff.mp hstop), hdel, bind_some, hloop,
            takeWhile_cons_of_pos (by exact hxin), length_cons]
          congr 2
          omega
        · rwa [dropWhile_cons_of_pos (by exact hxin)]

/-- **Deletion by member**, as the range is read. -/
theorem Holds.deleteRangeByLex (h : zs.Holds xs) {first second : LexBound}
    (happ : (Interval.lex (σ := σ) first second).Applies xs) (reverse : Bool) :
    ∃ zs', zs.deleteRangeByLex (Zset.getLexRange reverse first second) =
        some (zs',
          (xs.filter (((Interval.lex first second).asRead reverse).contains reverse)).length) ∧
      zs'.Holds
        (xs.filter fun e => !((Interval.lex first second).asRead reverse).contains reverse e) := by
  have hsorted := h.zset.sorted
  have happ' := happ.asRead reverse
  have hlo := fromSome_lower happ' hsorted reverse
  have hhi := upToSome_upper happ' hsorted reverse
  -- the two ends, in the order of the members
  obtain ⟨lo, hi, hrange, hlower, hupper⟩ : ∃ lo hi : LexBound,
      Zset.getLexRange reverse first second = ⟨getLexStr lo, getLexStr hi, lo.isOpen, hi.isOpen⟩ ∧
      ((lex (σ := σ) first second).asRead reverse).lower reverse =
        (fun e => lo.lowerAsRead.below e.member) ∧
      ((lex (σ := σ) first second).asRead reverse).upper reverse =
        fun e => hi.upperAsRead.above e.member := by
    cases reverse
    · exact ⟨first, second, rfl, rfl, rfl⟩
    · exact ⟨second, first, rfl, rfl, rfl⟩
  have hcontains : ((lex (σ := σ) first second).asRead reverse).contains reverse =
      fun e => lo.lowerAsRead.below e.member && hi.upperAsRead.above e.member := by
    funext e
    rw [contains, hlower, hupper]
  rw [hlower] at hlo
  rw [hupper] at hhi
  simp only [hcontains, SortedMap.deleteRangeByLex, h.size_eq, hrange]
  split
  case isTrue hzero => exact h.deletes_none (by rw [length_eq_zero_iff.mp hzero]; rfl)
  case isFalse hpos =>
    have hne : xs ≠ [] := mt length_eq_zero_iff.mpr hpos
    rcases h.minLexRank hne happ lo ⟨getLexStr lo, getLexStr hi, lo.isOpen, hi.isOpen⟩ rfl rfl with
      ⟨hrank, hnone⟩ | hrank
    · rw [hrank]
      exact h.deletes_none (filter_eq_nil_iff.mpr fun e he => by simp [hnone e he])
    · rw [hrank]
      have hsplit :=
        takeWhile_append_dropWhile (p := fun e => !lo.lowerAsRead.below e.member) (l := xs)
      obtain ⟨zs', hloop, h'⟩ := Holds.deleteLexLoop hi
        ⟨getLexStr lo, getLexStr hi, lo.isOpen, hi.isOpen⟩ rfl rfl xs.length 0 (hsplit ▸ h)
        ((dropWhile_sublist _).length_le)
      refine ⟨zs', ?_, ?_⟩
      · dsimp only
        rw [hloop, Nat.zero_add, (hhi.dropWhile _).takeWhile_eq_filter, hlo.dropWhile_eq_filter,
          List.filter_filter]
        simp only [Bool.and_comm]
      · rwa [remove_window_eq hlo hhi] at h'

/-! ## §5 Pops -/

omit [LinearOrder σ] in
theorem popLoop_front (hok : t.Ok wordLayout) (hnodup : t.toList.Nodup)
    {rounds : ℕ} (hle : rounds ≤ t.toList.length) :
    ∃ t', popLoop 0 rounds t 0 = some t' ∧ t'.Ok wordLayout ∧ t'.toList = t.toList.drop rounds := by
  induction rounds generalizing t with
  | zero => exact ⟨t, rfl, hok, rfl⟩
  | succ rounds ih =>
    obtain ⟨A, x, B, t1, hcut, hA, -, hdel, hok1, hlist1⟩ :=
      deletePath_fromRank hok hnodup (Nat.lt_of_lt_of_le (Nat.succ_pos rounds) hle)
    obtain rfl := length_eq_zero_iff.mp hA
    rw [hcut] at hnodup hle
    obtain ⟨t', hloop, hok', hlist'⟩ := ih hok1 (hlist1 ▸ hnodup.of_cons)
      (hlist1 ▸ Nat.le_of_succ_le_succ hle)
    refine ⟨t', ?_, hok', ?_⟩
    · simp [popLoop, hdel, hloop]
    · simp [hlist', hlist1, hcut]

omit [LinearOrder σ] in
/-- Popping from the back, where the rank goes down with the size. -/
theorem popLoop_back (hok : t.Ok wordLayout) (hnodup : t.toList.Nodup)
    {rounds : ℕ} (hle : rounds ≤ t.toList.length) :
    ∃ t', popLoop 1 rounds t (t.toList.length - 1) = some t' ∧ t'.Ok wordLayout ∧
      t'.toList = t.toList.take (t.toList.length - rounds) := by
  induction rounds generalizing t with
  | zero => exact ⟨t, rfl, hok, by simp⟩
  | succ rounds ih =>
    obtain ⟨A, x, B, t1, hcut, hA, -, hdel, hok1, hlist1⟩ :=
      deletePath_fromRank hok hnodup (by omega : t.toList.length - 1 < t.toList.length)
    obtain rfl : B = [] := by
      have hlen := congrArg length hcut
      rw [length_append, length_cons] at hlen
      exact length_eq_zero_iff.mp (by omega)
    rw [append_nil] at hlist1
    rw [hcut] at hnodup hle hdel ⊢
    rw [length_append, length_singleton] at hle hdel ⊢
    obtain ⟨t', hloop, hok', hlist'⟩ := ih hok1 (hlist1 ▸ (nodup_append.mp hnodup).1)
      (hlist1 ▸ Nat.le_of_succ_le_succ hle)
    rw [hlist1] at hloop hlist'
    refine ⟨t', ?_, hok', ?_⟩
    · rw [popLoop, hdel, bind_some, Nat.add_sub_cancel, hloop]
    · simp [hlist']

omit [LinearOrder σ] in
theorem visit_true (xs : List (Entry σ)) : BPTree.visit (fun _ => true) xs = (xs, true) := by
  induction xs with
  | nil => rfl
  | cons x xs ih => simp [BPTree.visit, ih]

/-- The end of `PopTopScores`, which drops the whole tree if nothing is left in the map. -/
theorem Holds.popFinish (h : zs.Holds xs) (hxs : xs.Perm (gone ++ rest))
    (hsub : rest.Sublist xs) {popped : Option (BPTree (Entry σ))}
    (hpopped : ∃ t, popped = some t ∧ t.Ok wordLayout ∧ t.toList = rest) :
    ∃ zs', (if ((gone.map Entry.member).foldl eraseMember zs.scoreMap).isEmpty then
        some (gone, ⟨(gone.map Entry.member).foldl eraseMember zs.scoreMap, zs.scoreTree.clear⟩)
      else popped.map fun t => (gone, SortedMap.mk
        ((gone.map Entry.member).foldl eraseMember zs.scoreMap) t)) = some (gone, zs') ∧
      zs'.Holds rest := by
  obtain ⟨t, rfl, hok, hlist⟩ := hpopped
  rw [foldl_eraseMember_eq]
  split
  case isTrue hempty =>
    have hperm := perm_erase h.perm hxs h.zset.nodup
    rw [isEmpty_iff.mp hempty] at hperm
    obtain rfl := map_eq_nil_iff.mp hperm.nil_eq.symm
    exact ⟨_, rfl, h.without hxs hsub BPTree.ok_empty rfl⟩
  case isFalse => exact ⟨_, rfl, h.without hxs hsub hok hlist⟩

/-- **Pops.** -/
theorem Holds.popTopScores (h : zs.Holds xs) (count : ℕ) (reverse : Bool) :
    ∃ zs', zs.popTopScores count reverse =
        some ((if reverse then xs.reverse else xs).take count, zs') ∧
      zs'.Holds (if reverse then xs.take (xs.length - count) else xs.drop count) := by
  have hlist := h.toList_eq
  have hsz : zs.scoreMap.length = xs.length := by rw [h.perm.length_eq, length_map]
  simp only [SortedMap.popTopScores, hsz]
  split
  case isTrue hnothing =>
    refine ⟨zs, ?_, ?_⟩
    · rcases hnothing with hnil | rfl
      · rw [length_eq_zero_iff.mp hnil]
        cases reverse <;> simp
      · rw [take_zero]
    · rcases hnothing with hnil | rfl
      · rw [length_eq_zero_iff.mp hnil] at h ⊢
        cases reverse <;> simpa using h
      · cases reverse <;> simpa using h
  case isFalse hsome =>
    generalize hc : min count xs.length = c
    have hround : c - 1 + 1 - 0 = c := by omega
    have hle : c ≤ zs.scoreTree.toList.length := by rw [hlist]; omega
    cases reverse with
    | false =>
      have htake : xs.take count = xs.take c := by rw [← hc, take_eq_take_min]
      have hdrop : xs.drop count = xs.drop c := by rw [← hc, drop_eq_drop_min]
      simp only [false_eq_true, ↓reduceIte, htake, hdrop]
      rw [h.ok.iterate (Nat.zero_le _), visit_true, hlist, drop_zero, hround]
      refine h.popFinish (by rw [take_append_drop]) (drop_sublist c xs) ?_
      rw [length_take, Nat.min_eq_left (hlist ▸ hle), ← hlist]
      exact popLoop_front h.ok (hlist ▸ h.nodup) hle
    | true =>
      have htake : xs.reverse.take count = xs.reverse.take c := by
        rw [← hc, take_eq_take_min, length_reverse]
      have hrest : xs.take (xs.length - count) = xs.take (xs.length - c) := by
        congr 1
        omega
      simp only [↓reduceIte, htake, hrest]
      rw [h.ok.iterateReverse (Nat.zero_le _) (by omega), visit_true, hlist, drop_zero, hround]
      dsimp only
      refine h.popFinish ?_ (take_sublist _ xs) ?_
      · rw [take_reverse]
        have hsplit : xs.Perm (xs.drop (xs.length - c) ++ xs.take (xs.length - c)) := by
          conv_lhs => rw [← take_append_drop (xs.length - c) xs]
          exact perm_append_comm
        exact hsplit.trans ((reverse_perm _).symm.append_right _)
      · rw [length_take, length_reverse, Nat.min_eq_left (hlist ▸ hle), h.size_eq, ← hlist]
        exact popLoop_back h.ok (hlist ▸ h.nodup) hle

end Drakeydb.Zset.SortedMap
