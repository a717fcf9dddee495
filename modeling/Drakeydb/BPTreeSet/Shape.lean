import Drakeydb.BPTreeSet.Tree

/-!
# The shape of a tree, and what moving items preserves

A node of the right shape has no more items than fit, stores the number of items below it, and has
children with enough items that are of the right shape themselves. While an item and the node on its
right wait to be inserted higher up, a node on the way is off by the items that were cut from it;
`Node.Shape` has that surplus as a parameter.

Every move between two neighbours is a different cut of the same merged sequence.
-/

namespace Drakeydb.BPTreeSet

open List
open Child hiding toList

open Lib (Alternating)
open Lib.Alternating

variable {α : Type} {L : Layout} {h : ℕ}

/-! ## §1 Bounds -/

namespace Layout

/-- The fewest items of a node that is not the root, after any sequence of changes. -/
def fewest (L : Layout) (h : ℕ) : ℕ := (L.maxItems h - 1) / 2

theorem ten_le_maxItems (L : Layout) (h : ℕ) : 10 ≤ L.maxItems h := by
  have := L.keySize_le
  have := L.two_le_keySize
  unfold maxItems
  split
  · exact (Nat.le_div_iff_mul_le (by omega)).mpr (by simp only [kBPNodeSize]; omega)
  · exact (Nat.le_div_iff_mul_le (by omega)).mpr (by simp only [kBPNodeSize]; omega)

end Layout

/-! ## §2 Shape -/

/-- A subtree below an inner node. -/
def Child.Ok (L : Layout) : (h : ℕ) → Child α h → Prop
  | 0, _ => True
  | h + 1, n =>
    L.fewest h ≤ Node.numItems (h := h) n ∧ Node.numItems (h := h) n ≤ L.maxItems h ∧
      NodeOf.count n = (Node.toList (h := h) n).length ∧
      ∀ c ∈ (NodeOf.items n).children, Child.Ok L h c

/-- A node whose stored count has a surplus of `e`. -/
structure Node.Shape (L : Layout) (n : Node α h) (e : ℕ) : Prop where
  numItems_le : n.numItems ≤ L.maxItems h
  count_eq : n.count = n.toList.length + e
  children : ∀ c ∈ n.items.children, Child.Ok L h c

theorem Child.ok_succ {n : Node α h} : Ok L (h + 1) n ↔ L.fewest h ≤ n.numItems ∧ n.Shape L 0 := by
  constructor
  · rintro ⟨hlow, hnum, hcount, hc⟩
    exact ⟨hlow, hnum, hcount, hc⟩
  · rintro ⟨hlow, hnum, hcount, hc⟩
    exact ⟨hlow, hnum, hcount, hc⟩

theorem length_seq_toList (items : Alternating α (Child α h)) :
    (items.seq (Child.toList h)).length =
      items.num + (items.children.map fun c => (Child.toList h c).length).sum :=
  length_seq items (Child.toList h)

theorem Child.toList_succ (n : Node α h) : Child.toList (h + 1) n = n.toList := rfl

theorem Node.toList_leaf (n : Node α 0) : n.toList = n.items.keys :=
  seq_of_nil n.items _ fun _ => rfl

theorem Child.Ok.treeCount_eq : {h : ℕ} → {c : Child α h} → Ok L h c →
    c.treeCount = (Child.toList h c).length
  | 0, _, _ => rfl
  | 1, (n : Node α 0), _ => by
    have hleaf := n.toList_leaf
    exact (length_keys n.items).symm.trans (congrArg length hleaf.symm)
  | _ + 2, _, hok => hok.2.2.1

theorem treeCounts_eq {cs : List (Child α h)} (hok : ∀ c ∈ cs, Ok L h c) :
    treeCounts cs = (cs.map fun c => (Child.toList h c).length).sum := by
  unfold treeCounts
  congr 1
  exact map_congr_left fun c hc => (hok c hc).treeCount_eq

variable {items : Alternating α (Child α h)}

theorem num_add_treeCounts (hok : ∀ c ∈ items.children, Ok L h c) :
    items.num + treeCounts items.children = (items.seq (Child.toList h)).length := by
  rw [length_seq_toList, treeCounts_eq hok]

/-- Of a node of the right shape, `TreeCount` is the number of items below it. -/
theorem Node.Shape.treeCount_eq {n : Node α h} (hs : n.Shape L 0) :
    n.treeCount = n.toList.length := by
  cases h with
  | zero =>
    rw [n.toList_leaf, length_keys]
    rfl
  | succ h => exact hs.count_eq

/-! ## §3 Cuts -/

namespace Node

variable {n dest src : Node α h} {e e1 e2 count : ℕ}

theorem Shape.count_eq_num (hs : n.Shape L e) :
    n.count = n.items.num + treeCounts n.items.children + e := by
  rw [hs.count_eq, num_add_treeCounts hs.children]
  rfl

theorem shape_of_num (hok : ∀ c ∈ items.children, Ok L h c) (hle : items.num ≤ L.maxItems h)
    (hcount : count = items.num + treeCounts items.children + e) :
      Shape L (⟨count, items⟩ : Node α h) e :=
  ⟨hle, hcount.trans (congrArg (· + e) (num_add_treeCounts hok)), hok⟩

section

variable {a b : Alternating α (Child α h)} {k : α}

theorem Shape.cut (hs : n.Shape L e) (hcut : n.items = a.merge k b) :
    (∀ c ∈ a.children, Ok L h c) ∧ (∀ c ∈ b.children, Ok L h c) ∧
      n.items.num = a.num + 1 + b.num ∧
      n.count = a.num + treeCounts a.children + 1 + (b.num + treeCounts b.children) + e := by
  have hok := hs.children
  have hcount := hs.count_eq_num
  rw [hcut, children_merge] at hok hcount
  obtain ⟨ha, hb⟩ := forall_mem_append.mp hok
  simp only [num_merge, treeCounts, map_append, sum_append] at hcount ⊢
  exact ⟨ha, hb, by simp [hcut], by omega⟩

theorem shape_merge (ha : ∀ c ∈ a.children, Ok L h c) (hb : ∀ c ∈ b.children, Ok L h c)
    (hle : a.num + 1 + b.num ≤ L.maxItems h)
    (hcount : count = a.num + treeCounts a.children + 1 + (b.num + treeCounts b.children) + e) :
    Shape L (⟨count, a.merge k b⟩ : Node α h) e := by
  refine shape_of_num ?_ (num_merge .. ▸ hle) ?_
  · rw [children_merge]
    exact forall_mem_append.mpr ⟨ha, hb⟩
  · simp only [children_merge, num_merge, treeCounts, map_append, sum_append] at hcount ⊢
    omega

end

/-- `Split` cuts a node in the middle, and both halves keep their shape. -/
theorem split_spec (hs : n.Shape L e) (hpos : 0 < n.numItems) :
    ∃ l k r, n.split = some (l, k, r) ∧ l.items.merge k r.items = n.items ∧
      l.numItems = n.numItems / 2 ∧ l.Shape L e ∧ r.Shape L 0 := by
  obtain ⟨k, c, hget, hcut⟩ := n.items.eq_merge_of_lt (i := n.numItems / 2)
    (Nat.div_lt_self hpos (by decide))
  obtain ⟨hleft, hright, hnum, hcount⟩ := hs.cut hcut
  have hle : n.items.num ≤ _ := hs.numItems_le
  simp only [split, hget]
  refine ⟨_, _, _, rfl, hcut.symm, ?_, shape_of_num hleft (by omega) (by omega),
    shape_of_num hright (by omega) rfl⟩
  simp only [numItems, num, length_take]
  omega

section

variable (sep : α) (hd : dest.Shape L e1) (hs : src.Shape L e2) (hone : 1 ≤ count)
  (hcount : count ≤ src.numItems) (hfree : dest.numItems + count ≤ L.maxItems h)
include hd hs hone hcount hfree

theorem moveToLeft_spec :
    ∃ d k s, dest.moveToLeft sep src count = some (d, k, s) ∧
      d.items.merge k s.items = dest.items.merge sep src.items ∧
      d.numItems = dest.numItems + count ∧ s.numItems + count = src.numItems ∧
      d.Shape L e1 ∧ s.Shape L e2 := by
  obtain ⟨k, c, hget, hcut⟩ := src.items.eq_merge_of_lt (i := count - 1)
    (show count - 1 < src.numItems by omega)
  rw [Nat.sub_add_cancel hone] at hcut
  -- the moved items, which the separator joins to those of `dest`
  set m : Alternating α (Child α h) := ⟨src.items.first, src.items.rest.take (count - 1)⟩ with hm
  have hmnum : m.num + 1 = count := by
    simp only [numItems, num] at hcount
    simp only [hm, num, length_take]
    omega
  obtain ⟨hmoved, hrest, hnum, htotal⟩ := hs.cut hcut
  have hsle : src.items.num ≤ _ := hs.numItems_le
  have hdtotal := hd.count_eq_num
  change dest.items.num + count ≤ _ at hfree
  simp only [moveToLeft, hget]
  refine ⟨⟨dest.count + treeCounts m.children + count, dest.items.merge sep m⟩, _,
    ⟨src.count - treeCounts m.children - count, ⟨c, src.items.rest.drop count⟩⟩, rfl, ?_, ?_, ?_,
    shape_merge hd.children hmoved (by omega) (by omega), shape_of_num hrest (by omega) (by omega)⟩
  · rw [merge_assoc, ← hcut]
  · simp only [numItems, num_merge]
    omega
  · simp only [numItems]
    omega

theorem moveToRight_spec :
    ∃ s k d, src.moveToRight sep dest count = some (s, k, d) ∧
      s.items.merge k d.items = src.items.merge sep dest.items ∧
      d.numItems = dest.numItems + count ∧ s.numItems + count = src.numItems ∧
      d.Shape L e1 ∧ s.Shape L e2 := by
  obtain ⟨k, c, hget, hcut⟩ := src.items.eq_merge_of_lt (i := src.numItems - count)
    (show src.numItems - count < src.numItems by omega)
  set m : Alternating α (Child α h) := ⟨c, src.items.rest.drop (src.numItems - count + 1)⟩ with hm
  have hmnum : m.num + 1 = count := by
    simp only [numItems, num] at hcount
    simp only [hm, numItems, num, length_drop]
    omega
  obtain ⟨hrest, hmoved, hnum, htotal⟩ := hs.cut hcut
  have hsle : src.items.num ≤ _ := hs.numItems_le
  have hdtotal := hd.count_eq_num
  change dest.items.num + count ≤ _ at hfree
  simp only [moveToRight, hget]
  refine ⟨⟨src.count - treeCounts m.children - count, _⟩, _,
    ⟨dest.count + treeCounts m.children + count, m.merge sep dest.items⟩, rfl, ?_, ?_, ?_,
    shape_merge hmoved hd.children (by omega) (by omega), shape_of_num hrest (by omega) (by omega)⟩
  · rw [← merge_assoc, ← hcut]
  · simp only [numItems, num_merge]
    omega
  · simp only [numItems] at hnum ⊢
    omega

end

theorem mergeFromRight_spec {l r : Node α h} (k : α) (hl : l.Shape L 0) (hr : r.Shape L 0)
    (hfit : l.numItems + 1 + r.numItems ≤ L.maxItems h) : (l.mergeFromRight k r).Shape L 0 := by
  refine shape_merge hl.children hr.children hfit ?_
  rw [hl.count_eq_num, hr.treeCount_eq, num_add_treeCounts hr.children]
  simp only [toList]
  omega

/-! ## §4 Insertions into a node -/

/-- An insertion next to a surplus: the added count and the surplus make up for the new items. -/
theorem Shape.insertItem (hs : n.Shape L e) {pos d : ℕ} (item : α) {right : Child α h}
    (hright : Ok L h right) (hpos : pos ≤ n.numItems) (hroom : n.numItems < L.maxItems h)
    (hd : e + d = right.treeCount + 1) :
      ((n.insertItem pos item right).increaseTreeCount d).Shape L 0 where
  numItems_le := by
    show (n.items.insert pos item right).num ≤ _
    rw [num_insert _ _ _ hpos]
    exact hroom
  count_eq := by
    show n.count + d = ((n.items.insert pos item right).seq (Child.toList h)).length + 0
    rw [length_seq_insert _ _ _ _ hpos, hs.count_eq, ← hright.treeCount_eq, toList]
    omega
  children := forall_children_insert _ _ _ hpos hright hs.children

theorem Shape.decreaseTreeCount (hs : n.Shape L e) : (n.decreaseTreeCount e).Shape L 0 where
  numItems_le := hs.numItems_le
  count_eq := by
    show n.count - e = _
    rw [hs.count_eq, Nat.add_sub_cancel]
    rfl
  children := hs.children

end Node

end Drakeydb.BPTreeSet
