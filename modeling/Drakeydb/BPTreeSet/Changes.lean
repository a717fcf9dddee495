import Drakeydb.BPTreeSet.Delete

/-!
# Changes of a tree

`Insert`, `Delete(item)` and `Delete(path)` on a whole tree, as changes of the sorted list of its
items, and the bound on its height that lets every path fit its array.
-/

namespace Drakeydb.BPTreeSet

open List hiding keys
open Option

open Lib (Alternating)
open Lib.Alternating

variable {α : Type} {L : Layout} {h : ℕ}

/-! ## §1 Depth -/

theorem Child.Ok.le_length : {h : ℕ} → {n : Node α h} → Child.Ok L (h + 1) n →
    4 * 5 ^ h ≤ n.toList.length
  | 0, n, hok => by
    have hlow := (Child.ok_succ.mp hok).1
    have hmax := L.ten_le_maxItems 0
    rw [n.toList_leaf, length_keys]
    unfold Layout.fewest at hlow
    simp only [Node.numItems] at hlow
    omega
  | h + 1, n, hok => by
    obtain ⟨hlow, hshape⟩ := Child.ok_succ.mp hok
    have hmax := L.ten_le_maxItems (h + 1)
    have hsum : n.items.children.length * (4 * 5 ^ h) ≤
        (n.items.children.map fun c => (Child.toList (h + 1) c).length).sum := by
      have hmin : ∀ m ∈ n.items.children.map fun c => (Child.toList (h + 1) c).length,
        4 * 5 ^ h ≤ m := by
        intro m hm
        obtain ⟨c, hc, rfl⟩ := mem_map.mp hm
        exact (hshape.children c hc).le_length
      have hcard := card_nsmul_le_sum _ _ hmin
      rwa [length_map, smul_eq_mul] at hcard
    have hfive : 5 * (4 * 5 ^ h) ≤ n.items.children.length * (4 * 5 ^ h) := by
      apply Nat.mul_le_mul_right
      rw [length_children]
      unfold Layout.fewest at hlow
      simp only [Node.numItems] at hlow
      omega
    rw [Node.toList, length_seq_toList]
    omega

/-- With fewer items than the counters can count, every path fits its array. -/
theorem height_le_kMaxDepth {n : Node α h} (hs : n.Shape L 0) (hpos : 0 < n.numItems)
    (hlen : n.toList.length < 2 ^ 32) : h + 1 ≤ kMaxDepth := by
  cases h with
  | zero => decide
  | succ h =>
    obtain ⟨pre, c, post, hn, hpre⟩ := n.items.exists_plug (Nat.zero_le n.numItems)
    have hc := (children_ok_plug.mp (hn ▸ hs.children)).2
    have hmin := hc.le_length
    rw [Node.toList_of_plug hn, length_append, length_append] at hlen
    by_contra hdeep
    have hpow : 5 ^ 15 ≤ 5 ^ h :=
      Nat.pow_le_pow_right (by decide) (by unfold kMaxDepth at hdeep; omega)
    omega

/-! ## §2 Trees -/

namespace BPTree

/-- A tree of the right shape, with a root exactly if it has items. -/
structure Ok (L : Layout) (t : BPTree α) : Prop where
  count_eq : t.count = t.toList.length
  root_ok : ∀ root, t.root = some root → root.2.Shape L 0 ∧ 0 < root.2.numItems

variable {t : BPTree α} {path : Path} {x : α}

theorem ok_empty : Ok L (empty : BPTree α) := ⟨rfl, fun _ hroot => by cases hroot⟩

variable {n : Node α h}

theorem ok_root {count : ℕ} (hs : n.Shape L 0) (hpos : 0 < n.numItems)
    (hcount : count = n.toList.length) : Ok L ⟨some ⟨h, n⟩, count⟩ :=
  ⟨hcount, fun _ hroot => by cases hroot; exact ⟨hs, hpos⟩⟩

theorem toList_length_pos (hpos : 0 < n.numItems) : 0 < n.toList.length := by
  rw [Node.toList, length_seq_toList]
  exact Nat.add_pos_left hpos _

/-! ## §3 Changes -/

theorem insertRoot_spec {up : Node.Inserted α h} {xs : List α} {m : ℕ} (hm : 0 < m)
    (hup : up.Ok L m xs) :
    ∃ root, insertRoot up = some root ∧ root.2.Shape L 0 ∧ 0 < root.2.numItems ∧
      root.2.toList = xs := by
  cases up with
  | done n => exact ⟨_, rfl, hup.2.1, hm.trans_le hup.1, hup.2.2⟩
  | full n pos item right =>
    obtain ⟨hfull, hpos, hright, hshape, rfl⟩ := hup
    obtain ⟨l, k, r, hsplit, hl, hr, hcat⟩ := Node.splitInsert_spec item hfull hshape hright hpos
    have hlist : (⟨l, [(k, r)]⟩ : Alternating α (Child α (h + 1))).seq (Child.toList (h + 1)) =
        l.toList ++ k :: r.toList := by
      simp [seq, Child.toList_succ]
    refine ⟨⟨h + 1, ⟨l.treeCount + r.treeCount + 1, ⟨l, [(k, r)]⟩⟩⟩, ?_, ⟨?_, ?_, ?_⟩, Nat.one_pos,
      hlist.trans hcat⟩
    · rw [insertRoot, hsplit]
      rfl
    · exact (by decide : 1 ≤ 10).trans (L.ten_le_maxItems (h + 1))
    · show l.treeCount + r.treeCount + 1 = (Alternating.seq _ _).length + 0
      rw [hlist, (Child.ok_succ.mp hl).2.treeCount_eq, (Child.ok_succ.mp hr).2.treeCount_eq,
        length_append, length_cons]
      omega
    · intro c hc
      rcases mem_cons.mp hc with hc | hc
      · exact hc ▸ hl
      · exact mem_singleton.mp hc ▸ hr

theorem toList_of_none (hroot : t.root = none) : t.toList = [] := by
  rw [toList, hroot]
  rfl

theorem toList_of_some {root : Sigma (Node α)} (hroot : t.root = some root) :
    t.toList = root.2.toList := by
  rw [toList, hroot]
  rfl

theorem Ok.deletePath (hok : t.Ok L) (hterm : t.terminal path = some x) :
    ∃ A B t', t.toList = A ++ x :: B ∧ t.deletePath L path = some t' ∧ t'.Ok L ∧
      t'.toList = A ++ B := by
  obtain ⟨⟨h, n⟩, hroot, hterm⟩ := bind_eq_some_iff.mp hterm
  obtain ⟨hs, hpos⟩ := hok.root_ok _ hroot
  obtain ⟨A, B, hp⟩ := Node.points_of_terminal hterm
  obtain ⟨⟨n', active⟩, hdel, hres⟩ := Node.deleteAt_spec hp.cut hp.terminal_eq hs hpos
  have hlist : t.toList = A ++ x :: B := by
    rw [toList, hroot]
    exact hp.toList_eq
  have hcount : t.count - 1 = (A ++ B).length := by
    rw [hok.count_eq, hlist]
    simp only [length_append, length_cons]
    omega
  refine ⟨A, B, ?_⟩
  simp only [BPTree.deletePath, hroot, hdel]
  split
  case isFalse hkeep =>
    refine ⟨_, hlist, rfl, ok_root hres.shape ?_ (hcount.trans (congrArg _ hres.toList_eq.symm)),
      hres.toList_eq⟩
    -- a root that lost its last item has been replaced
    refine Nat.pos_of_ne_zero fun hzero => hkeep ?_
    have hmin : 0 < L.minItems h := by
      have := L.ten_le_maxItems h
      unfold Layout.minItems
      omega
    rcases hres.numItems_eq with heq | ⟨hactive, -⟩
    · exact absurd (heq.symm.trans hzero) hpos.ne'
    · simp only at hzero hactive
      simp [hactive, hzero, hmin]
  case isTrue hdrop =>
    have hzero : n'.items.num = 0 := by
      simp only [Bool.and_eq_true, beq_iff_eq] at hdrop
      exact hdrop.2
    have hrest : n'.items.rest = [] := eq_nil_of_length_eq_zero hzero
    have hlist' := hres.toList_eq
    cases h with
    | zero =>
      have hnil : A ++ B = [] := by
        rw [← hlist', n'.toList_leaf]
        simp [keys, hrest]
      refine ⟨_, hlist, rfl, ⟨?_, fun _ hroot => by cases hroot⟩, hnil.symm⟩
      rw [hcount, hnil]
      rfl
    | succ h =>
      have hfirst := hres.shape.children n'.items.first mem_cons_self
      have hone : n'.toList = Node.toList n'.items.first := by
        rw [Node.toList, seq, hrest]
        exact append_nil _
      refine ⟨_, hlist, rfl, ok_root (Child.ok_succ.mp hfirst).2 hfirst.numItems_pos ?_, ?_⟩
      · rw [hcount, ← hlist', hone]
      · exact hone.symm.trans hlist'

/-! ## §4 Sorted trees -/

variable [LinearOrder α]

theorem cuts_cmp (q : α) {xs : List α} (hsorted : xs.Pairwise (· < ·)) : Node.Cuts (cmp q) xs := by
  refine hsorted.imp fun {a b} hab => ?_
  rcases lt_or_ge a q with hlt | hge
  · exact .inl (compare_gt_iff_gt.mpr hlt)
  · exact .inr (compare_lt_iff_lt.mpr (hge.trans_lt hab))

theorem orderedInsert_middle {A B : List α} (hA : ∀ a ∈ A, a < x) (hB : ∀ b ∈ B, x < b) :
    (A ++ B).orderedInsert (· ≤ ·) x = A ++ x :: B := by
  induction A with
  | nil =>
    cases B with
    | nil => rfl
    | cons b B => exact if_pos (hB b mem_cons_self).le
  | cons a A ih =>
    rw [cons_append, orderedInsert_cons, if_neg (hA a mem_cons_self).not_ge,
      ih fun a' ha' => hA a' (mem_cons_of_mem _ ha')]
    rfl

section Middle

variable {A B : List α} (hsorted : (A ++ x :: B).Pairwise (· < ·))
include hsorted

theorem lt_of_mem_before {a : α} (ha : a ∈ A) : a < x :=
  (pairwise_append.mp hsorted).2.2 a ha x mem_cons_self

theorem notMem_before : x ∉ A := fun hx => lt_irrefl x (lt_of_mem_before hsorted hx)

theorem idxOf_middle : (A ++ x :: B).idxOf x = A.length := by
  simp [idxOf_append_of_notMem (notMem_before hsorted)]

theorem erase_middle : (A ++ x :: B).erase x = A ++ B := by
  simp [erase_append_right _ (notMem_before hsorted)]

end Middle

theorem Ok.locate_item (hok : t.Ok L) (hsorted : t.toList.Pairwise (· < ·))
    (hroot : t.root = some ⟨h, n⟩) (x : α) :
    (x ∈ t.toList ∧ ∃ path A B, n.locate (cmp x) = some (true, path) ∧ Node.Points n path A x B) ∨
      (x ∉ t.toList ∧ ∃ path A B, n.locate (cmp x) = some (false, path) ∧ Node.At n path A B ∧
        path.length = h + 1 ∧ (∀ a ∈ A, a < x) ∧ ∀ b ∈ B, x < b) := by
  obtain ⟨hs, hpos⟩ := hok.root_ok _ hroot
  have hlist := toList_of_some hroot
  rcases Node.locate_spec hpos hs.children (hlist ▸ cuts_cmp x hsorted) with
    ⟨path, A, y, B, hloc, hp, hy⟩ | ⟨path, A, B, hloc, hat, hlen, hA, hB⟩
  · obtain rfl : x = y := compare_eq_iff_eq.mp hy
    refine .inl ⟨?_, path, A, B, hloc, hp⟩
    rw [hlist, hp.toList_eq]
    exact mem_append_right _ mem_cons_self
  · have hA' : ∀ a ∈ A, a < x := fun a ha => compare_gt_iff_gt.mp (hA a ha)
    have hB' : ∀ b ∈ B, x < b := fun b hb => compare_lt_iff_lt.mp (hB b hb)
    refine .inr ⟨?_, path, A, B, hloc, hat, hlen, hA', hB'⟩
    rw [hlist, hat.toList_eq]
    intro hx
    rcases mem_append.mp hx with hx | hx
    · exact lt_irrefl x (hA' x hx)
    · exact lt_irrefl x (hB' x hx)

/-- `Insert` reports whether the item is new and puts it in its place. -/
theorem Ok.insert (hok : t.Ok L) (hsorted : t.toList.Pairwise (· < ·)) (x : α) :
    ∃ t', t.insert L x = some (t', decide (x ∉ t.toList)) ∧ t'.Ok L ∧
      t'.toList = if x ∈ t.toList then t.toList else t.toList.orderedInsert (· ≤ ·) x := by
  cases hroot : t.root with
  | none =>
    have hlist := toList_of_none hroot
    have hmax := L.ten_le_maxItems 0
    have hs : (Node.initSingle x).Shape L 0 :=
      ⟨(by decide : 1 ≤ 10).trans hmax, rfl, fun _ _ => trivial⟩
    rw [BPTree.insert, hroot, hlist]
    exact ⟨_, by simp; rfl, ok_root hs Nat.one_pos rfl, by simp; rfl⟩
  | some root =>
    obtain ⟨h, n⟩ := root
    obtain ⟨hs, hpos⟩ := hok.root_ok _ hroot
    have hlist := toList_of_some hroot
    simp only [BPTree.insert, hroot]
    rcases hok.locate_item hsorted hroot x with
      ⟨hmem, path, A, B, hloc, hp⟩ | ⟨hmem, path, A, B, hloc, hat, hlen, hA, hB⟩
    · refine ⟨t, ?_, hok, (if_pos hmem).symm⟩
      simp only [hloc, hmem, not_true_eq_false, decide_false]
    · obtain ⟨up, hup, hupok⟩ := Node.insertAt_spec hat hlen hs x
      obtain ⟨⟨h', n'⟩, hroot', hs', hpos', hlist'⟩ := insertRoot_spec hpos hupok
      refine ⟨⟨some ⟨h', n'⟩, t.count + 1⟩, ?_, ok_root hs' hpos' ?_, ?_⟩
      · simp only [hloc, hup, bind_some, hroot', map_some, hmem, not_false_eq_true, decide_true]
      · rw [hok.count_eq, hlist, hat.toList_eq, hlist']
        simp only [length_append, length_cons]
        omega
      · rw [if_neg hmem, hlist, hat.toList_eq, orderedInsert_middle hA hB]
        exact hlist'

theorem Ok.delete (hok : t.Ok L) (hsorted : t.toList.Pairwise (· < ·)) (x : α) :
    ∃ t', t.delete L x = some (t', decide (x ∈ t.toList)) ∧ t'.Ok L ∧
      t'.toList = t.toList.erase x := by
  cases hroot : t.root with
  | none =>
    have hlist := toList_of_none hroot
    rw [BPTree.delete, hroot, hlist]
    exact ⟨t, by simp, hok, hlist⟩
  | some root =>
    simp only [BPTree.delete, hroot]
    rcases hok.locate_item hsorted hroot x with
      ⟨hmem, path, A, B, hloc, hp⟩ | ⟨hmem, path, A, B, hloc, -⟩
    · have hterm : t.terminal path = some x := by
        rw [terminal, hroot]
        exact hp.terminal_eq
      obtain ⟨A', B', t', hcut, hdel, hok', hlist'⟩ := hok.deletePath hterm
      refine ⟨t', ?_, hok', ?_⟩
      · simp [hloc, hdel, hmem]
      · rw [hlist', hcut, erase_middle (hcut ▸ hsorted)]
    · refine ⟨t, ?_, hok, (erase_of_not_mem hmem).symm⟩
      simp [hloc, hmem]

end BPTree

end Drakeydb.BPTreeSet
