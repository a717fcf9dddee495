import Drakeydb.BPTreeSet.Paths

/-!
# Insertion

An insertion goes down to a leaf and comes back up. `Inserted.Ok` says what a level hands to the one
above: either it is done, or it is full and an item waits at a position of it. The level above then
makes room next to the full child or splits it; both are new cuts of the same items, so the waiting
item lands where it belongs (`insert_cut`).
-/

namespace Drakeydb.BPTreeSet

open List Option
open Child hiding toList

open Lib (Alternating)
open Lib.Alternating

variable {α : Type} {L : Layout} {h : ℕ}

/-! ## §1 A window of two children -/

/-- The items of a node, with `xs` for those of one child. -/
abbrev around (pre : List (Child α h × α)) (xs : List α) (post : List (α × Child α h)) : List α :=
  seqBefore (Child.toList h) pre ++ (xs ++ seqAfter (Child.toList h) post)

/-- The subtrees on both sides of a place in a node. -/
@[mk_iff]
structure SidesOk (L : Layout) (pre : List (Child α h × α))
    (post : List (α × Child α h)) : Prop where
  before : ∀ d ∈ pre.map Prod.fst, Child.Ok L h d
  after : ∀ d ∈ post.map Prod.snd, Child.Ok L h d

variable {pre : List (Child α h × α)} {c : Child α h} {post : List (α × Child α h)} {xs : List α}

theorem around_cons {k : α} :
    around pre xs ((k, c) :: post) = around pre (xs ++ k :: Child.toList h c) post := by
  simp [around, seqAfter_cons]

theorem around_concat {k : α} :
    around (pre ++ [(c, k)]) xs post = around pre (Child.toList h c ++ k :: xs) post := by
  simp [around, seqBefore_concat]

theorem children_ok_plug : (∀ d ∈ (plug pre c post).children, Ok L h d) ↔ SidesOk L pre post ∧
    Ok L h c := by
  rw [children_plug, forall_mem_append, forall_mem_cons]
  exact ⟨fun ⟨hbefore, hc, hafter⟩ => ⟨⟨hbefore, hafter⟩, hc⟩, fun ⟨⟨hbefore, hafter⟩, hc⟩ =>
    ⟨hbefore, hc, hafter⟩⟩

theorem sidesOk_concat {k : α} : SidesOk L (pre ++ [(c, k)]) post ↔ SidesOk L pre post ∧
    Ok L h c := by
  rw [sidesOk_iff, sidesOk_iff, map_append, forall_mem_append, map_singleton, forall_mem_singleton,
    and_right_comm]

theorem sidesOk_cons {k : α} : SidesOk L pre ((k, c) :: post) ↔ SidesOk L pre post ∧ Ok L h c := by
  rw [sidesOk_iff, sidesOk_iff, map_cons, forall_mem_cons, and_assoc, and_comm (a := Ok L h c)]

namespace Node

variable {n n' : Node α (h + 1)} {pre : List (Child α (h + 1) × α)} {l r : Node α h} {k : α}
  {post : List (α × Child α (h + 1))}

theorem window_plug (hn : n.items = plug pre l ((k, r) :: post)) :
    n.window pre.length = some (l, k, r) := by
  simp [window, hn, child_plug, key_plug, child_plug_succ]

theorem setWindow_plug (hn : n.items = plug pre l ((k, r) :: post)) (w : Node α h × α × Node α h) :
    n.setWindow pre.length w = ⟨n.count, plug pre w.1 ((w.2.1, w.2.2) :: post)⟩ := by
  simp only [setWindow, setChild, setKey, hn, setChild_plug, setKey_plug, setChild_plug_succ]

/-- A node with the same number of items and another content, of which two children and their
    separator make up the middle. -/
structure Refilled (L : Layout) (n n' : Node α (h + 1)) (xs : List α) : Prop where
  count_eq : n'.count = n.count
  numItems_eq : n'.numItems = n.numItems
  children : ∀ d ∈ n'.items.children, Child.Ok L (h + 1) d
  toList_eq : n'.toList = xs

theorem refilled_window (hn : n.items = plug pre l ((k, r) :: post)) (hsides : SidesOk L pre post)
    (k' : α) {l' r' : Node α h} (hl : Ok L (h + 1) l') (hr : Ok L (h + 1) r') :
    Refilled L n ⟨n.count, plug pre l' ((k', r') :: post)⟩
      (around pre (l'.toList ++ k' :: r'.toList) post) where
  count_eq := rfl
  numItems_eq := by rw [numItems, numItems, hn, num_plug, num_plug]; rfl
  children := children_ok_plug.mpr ⟨sidesOk_cons.mpr ⟨hsides, hr⟩, hl⟩
  toList_eq := (toList_of_plug rfl).trans around_cons

/-! ## §2 Room next to a full child -/

variable (item : α)

/-- The insertion at a position of two merged sequences, in whichever part it falls. -/
theorem insert_cut {l r l' r' : Node α h} {k k' : α} {g : ℕ} (right : Child α h)
    (hcut : l'.items.merge k' r'.items = l.items.merge k r.items) :
    let xs := ((l.items.merge k r.items).insert g item right).seq (Child.toList h)
    (g ≤ l'.numItems → (l'.items.insert g item right).seq (Child.toList h) ++ k' ::
      r'.toList = xs) ∧ (l'.numItems < g →
        l'.toList ++ k' ::
          (r'.items.insert (g - l'.numItems - 1) item right).seq (Child.toList h) = xs) := by
  rw [toList, toList, ← hcut, ← seq_merge, ← seq_merge]
  constructor
  · intro hg
    rw [insert_merge_left _ _ _ _ _ hg]
  · intro hg
    rw [← insert_merge_right]
    congr 2
    show l'.numItems + 1 + (g - l'.numItems - 1) = g
    omega

theorem toMove_le (free : ℕ) (farEnd : Bool) : toMove free farEnd ≤ free := by
  unfold toMove
  split_ifs <;> omega

theorem eq_or_toMove_lt {free pos far mv : ℕ} (hmv : toMove free (pos == far) = mv)
    (hpos : 0 < mv) :
    pos = far ∨ mv < free := by
  by_cases hfar : pos = far
  · exact .inl hfar
  · right
    simp only [toMove, beq_false_of_ne hfar, Bool.false_eq_true, if_false] at hmv
    split_ifs at hmv <;> omega

variable {right : Child α h} {pos : ℕ}

/-- Two neighbours after a new cut of their items, with what waited inserted into one of them. The
    count of `s` still has the surplus of what waits. -/
theorem insertShared_ok {s d : Node α h} (hs : s.Shape L right.treeCount) (hd : d.Shape L 0)
    (hright : Ok L h right) (hslow : L.fewest h ≤ s.numItems) (hdlow : L.fewest h ≤ d.numItems)
    (into : Bool) (hpos : if into then pos ≤ s.numItems ∧ s.numItems < L.maxItems h
      else pos ≤ d.numItems ∧ d.numItems < L.maxItems h) :
    Ok L (h + 1) (insertShared s d into pos item right).1 ∧
      Ok L (h + 1) (insertShared s d into pos item right).2 := by
  cases into with
  | true =>
    have hins := hs.insertItem item hright hpos.1 hpos.2 (d := 1) rfl
    refine ⟨ok_succ.mpr ⟨?_, hins⟩, ok_succ.mpr ⟨hdlow, hd⟩⟩
    exact hslow.trans ((Nat.le_succ _).trans (num_insert s.items item right hpos.1).ge)
  | false =>
    have hins := hd.insertItem item hright hpos.1 hpos.2 (Nat.zero_add _)
    refine ⟨ok_succ.mpr ⟨hslow, hs.decreaseTreeCount⟩, ok_succ.mpr ⟨?_, hins⟩⟩
    exact hdlow.trans ((Nat.le_succ _).trans (num_insert d.items item right hpos.1).ge)

section

variable (hn : n.items = plug pre l ((k, r) :: post))
include hn

variable (right) (p : ℕ)

theorem insertRebalanced_self :
    n.insertRebalanced pre.length pre.length p item right =
      some ⟨n.count, plug pre (insertShared l r true p item right).1 ((k, r) :: post)⟩ := by
  simp only [insertRebalanced, ↓reduceIte, hn, child_plug, setChild, setChild_plug]
  rfl

theorem insertRebalanced_self_succ :
    n.insertRebalanced (pre.length + 1) (pre.length + 1) p item right =
      some ⟨n.count, plug pre l ((k, (insertShared r l true p item right).1) :: post)⟩ := by
  simp only [insertRebalanced, ↓reduceIte, hn, child_plug_succ, setChild, setChild_plug_succ]
  rfl

theorem insertRebalanced_right :
    n.insertRebalanced pre.length (pre.length + 1) p item right =
      some ⟨n.count, plug pre (insertShared l r false p item right).1
        ((k, (insertShared l r false p item right).2) :: post)⟩ := by
  simp [insertRebalanced, hn, child_plug, child_plug_succ, setChild, setChild_plug,
    setChild_plug_succ]

theorem insertRebalanced_left :
    n.insertRebalanced (pre.length + 1) pre.length p item right =
      some ⟨n.count, plug pre (insertShared r l false p item right).2
        ((k, (insertShared r l false p item right).1) :: post)⟩ := by
  simp [insertRebalanced, hn, child_plug, child_plug_succ, setChild, setChild_plug_succ,
    setChild_plug]

end

/-- What `RebalanceChild` may report for a full child: no room, or a node in which the item that
waits lands where it belongs. -/
def RoomMade (L : Layout) (n : Node α (h + 1)) (pos : ℕ) (item : α) (right : Child α h)
    (xs : List α) (res : Option (Option (Node α (h + 1) × ℕ × ℕ))) : Prop :=
  res = some none ∨
    ∃ n' target p n'', res = some (some (n', target, p)) ∧
      n'.insertRebalanced pos target p item right = some n'' ∧ Refilled L n n'' xs

variable {c : Node α h} {insertPos : ℕ}

section

variable (hsides : SidesOk L pre post) (hfull : c.numItems = L.maxItems h)
  (hc : c.Shape L right.treeCount) (hright : Ok L h right) (hpos : insertPos ≤ c.numItems)
include hsides hfull hc hright hpos

/-- Some items of the full child on the right go to the left one, and the item that waits is
inserted into one of them. -/
theorem rebalanceWithLeft_spec (hn : n.items = plug pre l ((k, c) :: post)) (hl : Ok L (h + 1) l) :
    RoomMade L n (pre.length + 1) item right
      (around pre
        (l.toList ++ k :: (c.items.insert insertPos item right).seq (Child.toList h)) post)
      (n.rebalanceWithLeft L (pre.length + 1) insertPos) := by
  obtain ⟨hllow, hlshape⟩ := ok_succ.mp hl
  rw [rebalanceWithLeft, if_pos (Nat.succ_pos _), Nat.add_sub_cancel, window_plug hn]
  simp only
  generalize hmv : toMove (l.availableSlotCount L) (insertPos == c.numItems) = mv
  have hfree := toMove_le (l.availableSlotCount L) (insertPos == c.numItems)
  rw [hmv] at hfree
  split
  case isTrue => exact .inl rfl
  case isFalse hmv0 =>
    have hend := eq_or_toMove_lt hmv (Nat.pos_of_ne_zero hmv0)
    unfold availableSlotCount at hfree hend
    obtain ⟨l', k', c', hmove, hcut, hlnum, hcnum, hl', hc'⟩ :=
      moveToLeft_spec k hlshape hc (Nat.pos_of_ne_zero hmv0) (by omega) (by omega)
    have hn' : n.rebalanceChildToLeft (pre.length + 1) mv =
        some ⟨n.count, plug pre l' ((k', c') :: post)⟩ := by
      rw [rebalanceChildToLeft, Nat.add_sub_cancel, window_plug hn]
      simp only [hmove, map_some, setWindow_plug hn]
    have hclow : L.fewest h ≤ c'.numItems := by omega
    have hllow' : L.fewest h ≤ l'.numItems := by omega
    have hins := insert_cut (g := l.numItems + 1 + insertPos) item right hcut
    rw [insert_merge_right, seq_merge] at hins
    rw [hn', map_some]
    by_cases hlt : insertPos < mv
    · rw [if_pos hlt, Nat.add_right_comm l.numItems]
      have hroom : l.numItems + 1 + insertPos ≤ l'.numItems ∧ l'.numItems < L.maxItems h := by omega
      have hok := insertShared_ok item hc' hl' hright hclow hllow' false hroom
      refine .inr ⟨_, _, _, _, rfl, insertRebalanced_left _ _ rfl _, ?_⟩
      rw [toList, ← hins.1 (by omega)]
      exact refilled_window hn hsides _ hok.2 hok.1
    · rw [if_neg hlt]
      have hroom : insertPos - mv ≤ c'.numItems ∧ c'.numItems < L.maxItems h := by omega
      have hok := insertShared_ok item hc' hl' hright hclow hllow' true hroom
      refine .inr ⟨_, _, _, _, rfl, insertRebalanced_self_succ _ _ rfl _, ?_⟩
      rw [toList, ← hins.2 (by omega), show l.numItems + 1 + insertPos - l'.numItems - 1 =
        insertPos - mv by omega]
      exact refilled_window hn hsides _ hok.2 hok.1

theorem rebalanceWithRight_spec (hn : n.items = plug pre c ((k, r) :: post)) (hr : Ok L (h + 1) r) :
    RoomMade L n pre.length item right
      (around pre ((c.items.insert insertPos item right).seq (Child.toList h) ++ k ::
        r.toList) post)
      (n.rebalanceWithRight L pre.length insertPos) := by
  obtain ⟨hrlow, hrshape⟩ := ok_succ.mp hr
  have hnum : pre.length < n.numItems := by
    rw [numItems, hn, num_plug, length_cons]
    omega
  rw [rebalanceWithRight, if_pos hnum, window_plug hn]
  simp only
  generalize hmv : toMove (r.availableSlotCount L) (insertPos == 0) = mv
  have hfree := toMove_le (r.availableSlotCount L) (insertPos == 0)
  rw [hmv] at hfree
  split
  case isTrue => exact .inl rfl
  case isFalse hmv0 =>
    have hend := eq_or_toMove_lt hmv (Nat.pos_of_ne_zero hmv0)
    unfold availableSlotCount at hfree hend
    obtain ⟨c', k', r', hmove, hcut, hrnum, hcnum, hr', hc'⟩ :=
      moveToRight_spec k hrshape hc (Nat.pos_of_ne_zero hmv0) (by omega) (by omega)
    have hn' : n.rebalanceChildToRight pre.length mv =
      some ⟨n.count, plug pre c' ((k', r') :: post)⟩ := by
      rw [rebalanceChildToRight, window_plug hn]
      simp only [hmove, map_some, setWindow_plug hn]
    have hclow : L.fewest h ≤ c'.numItems := by omega
    have hrlow' : L.fewest h ≤ r'.numItems := by omega
    have hins := insert_cut (g := insertPos) item right hcut
    rw [insert_merge_left _ _ _ _ _ hpos, seq_merge] at hins
    rw [hn', map_some]
    by_cases hlt : c.numItems - mv < insertPos
    · rw [if_pos hlt]
      have hroom : insertPos - (c.numItems - mv + 1) ≤ r'.numItems ∧
        r'.numItems < L.maxItems h := by
        omega
      have hok := insertShared_ok item hc' hr' hright hclow hrlow' false hroom
      refine .inr ⟨_, _, _, _, rfl, insertRebalanced_right _ _ rfl _, ?_⟩
      rw [toList, ← hins.2 (by omega), show insertPos - c'.numItems - 1 = insertPos -
        (c.numItems - mv + 1) by omega]
      exact refilled_window hn hsides _ hok.1 hok.2
    · rw [if_neg hlt]
      have hroom : insertPos ≤ c'.numItems ∧ c'.numItems < L.maxItems h := by omega
      have hok := insertShared_ok item hc' hr' hright hclow hrlow' true hroom
      refine .inr ⟨_, _, _, _, rfl, insertRebalanced_self _ _ rfl _, ?_⟩
      rw [toList, ← hins.1 (by omega)]
      exact refilled_window hn hsides _ hok.1 hok.2

/-- **Making room.** Where `RebalanceChild` finds room next to a full child, the item that waits
lands where it belongs. -/
theorem rebalanceChild_spec (hn : n.items = plug pre c post) :
    RoomMade L n pre.length item right
      (around pre ((c.items.insert insertPos item right).seq (Child.toList h)) post)
      (n.rebalanceChild L pre.length insertPos) := by
  have hl : RoomMade L n pre.length item right
      (around pre ((c.items.insert insertPos item right).seq (Child.toList h)) post)
      (n.rebalanceWithLeft L pre.length insertPos) := by
    rcases eq_nil_or_concat pre with rfl | ⟨pre, ⟨l, k⟩, rfl⟩
    · exact .inl rfl
    · rw [concat_eq_append] at *
      obtain ⟨hsides, hl⟩ := sidesOk_concat.mp hsides
      rw [plug_concat] at hn
      rw [around_concat, length_append, length_singleton]
      exact rebalanceWithLeft_spec item hsides hfull hc hright hpos hn hl
  have hr : RoomMade L n pre.length item right
      (around pre ((c.items.insert insertPos item right).seq (Child.toList h)) post)
      (n.rebalanceWithRight L pre.length insertPos) := by
    cases post with
    | nil =>
      refine .inl (if_neg ?_)
      rw [numItems, hn, num_plug]
      exact Nat.lt_irrefl _
    | cons p post =>
      obtain ⟨hsides, hr⟩ := sidesOk_cons.mp hsides
      rw [around_cons]
      exact rebalanceWithRight_spec item hsides hfull hc hright hpos hn hr
  rw [rebalanceChild]
  rcases hl with hl | ⟨n', target, p, n'', hl, hins⟩
  · rw [hl]
    exact hr
  · rw [hl]
    exact .inr ⟨n', target, p, n'', rfl, hins⟩

end

/-! ## §3 Splitting a full node -/

theorem splitInsert_spec {n : Node α h} (hfull : n.numItems = L.maxItems h)
    (hs : n.Shape L right.treeCount) (hright : Ok L h right) (hpos : pos ≤ n.numItems) :
    ∃ l k r, n.splitInsert pos item right = some (l, k, r) ∧ Ok L (h + 1) l ∧
      Ok L (h + 1) r ∧
        l.toList ++ k :: r.toList = (n.items.insert pos item right).seq (Child.toList h) := by
  have hmax := L.ten_le_maxItems h
  obtain ⟨l, k, r, hsplit, hcut, hlnum, hl, hr⟩ := split_spec hs (by omega)
  have hnum := congrArg num hcut
  rw [num_merge] at hnum
  have hllow : L.fewest h ≤ l.numItems := by
    unfold Layout.fewest
    omega
  have hrlow : L.fewest h ≤ r.numItems := by
    unfold Layout.fewest
    simp only [numItems] at *
    omega
  have hins := insert_cut (g := pos) item right (rfl : l.items.merge k r.items = _)
  rw [hcut] at hins
  simp only [splitInsert, hsplit]
  refine ⟨_, _, _, rfl, ?_⟩
  by_cases hle : pos ≤ l.numItems
  · simp only [hle, decide_true, ↓reduceIte]
    have hok := insertShared_ok item hl hr hright hllow hrlow true ⟨hle, by omega⟩
    refine ⟨hok.1, hok.2, ?_⟩
    exact hins.1 hle
  · simp only [hle, decide_false, Bool.false_eq_true, ↓reduceIte]
    have hroom : pos - l.numItems - 1 ≤ r.numItems ∧ r.numItems < L.maxItems h := by
      simp only [numItems] at *
      omega
    have hok := insertShared_ok item hl hr hright hllow hrlow false hroom
    refine ⟨hok.1, hok.2, ?_⟩
    exact hins.2 (Nat.lt_of_not_le hle)

/-! ## §4 One level -/

/-- What a level hands to the one above, with the contents `xs` once the insertion is complete. -/
def Inserted.Ok (L : Layout) (fewest : ℕ) (xs : List α) : Inserted α h → Prop
  | .done n => fewest ≤ n.numItems ∧ n.Shape L 0 ∧ n.toList = xs
  | .full n pos item right =>
    n.numItems = L.maxItems h ∧ pos ≤ n.numItems ∧ Child.Ok L h right ∧
      n.Shape L right.treeCount ∧ (n.items.insert pos item right).seq (Child.toList h) = xs

theorem shape_of_refilled {n n' : Node α (h + 1)} (hs : n.Shape L 0) (hre : Refilled L n n' xs)
    (hlen : xs.length = n.toList.length + 1) : (n'.increaseTreeCount 1).Shape L 0 where
  numItems_le := hre.numItems_eq.trans_le hs.numItems_le
  count_eq := by
    show n'.count + 1 = n'.toList.length + 0
    rw [hre.count_eq, hre.toList_eq, hlen, hs.count_eq]
  children := hre.children

variable {up : Inserted α h}

/-- **One level.** The parent takes what its child hands up. -/
theorem insertUp_spec {n : Node α (h + 1)} {pre : List (Child α (h + 1) × α)}
    {post : List (α × Child α (h + 1))} (hs : n.Shape L 0) (hn : n.items = plug pre c post)
    (hup : up.Ok L (L.fewest h) xs) (hlen : xs.length = c.toList.length + 1) :
    ∃ up', n.insertUp L pre.length up = some up' ∧ up'.Ok L n.numItems (around pre xs post) := by
  have hsides := (children_ok_plug.mp (hn ▸ hs.children)).1
  have htotal : (around pre xs post).length = n.toList.length + 1 := by
    rw [toList_of_plug hn]
    simp only [length_append]
    omega
  have hset : ∀ c', n.setChild pre.length c' = ⟨n.count, plug pre c' post⟩ := fun c' => by
    rw [setChild, hn, setChild_plug]
  have hnum : ∀ c', (plug pre c' post).num = n.numItems := fun c' => by
    rw [numItems, hn, num_plug, num_plug]
  cases up with
  | done c' =>
    obtain ⟨hlow, hshape, rfl⟩ := hup
    have hre : Refilled L n (n.setChild pre.length c') (around pre c'.toList post) := by
      rw [hset]
      refine ⟨rfl, hnum c', ?_, toList_of_plug rfl⟩
      · exact children_ok_plug.mpr ⟨hsides, ok_succ.mpr ⟨hlow, hshape⟩⟩
    exact ⟨_, rfl, hre.numItems_eq.ge, shape_of_refilled hs hre htotal, hre.toList_eq⟩
  | full c' insertPos item right =>
    obtain ⟨hfull, hpos, hright, hshape, rfl⟩ := hup
    simp only [insertUp, hset]
    rcases rebalanceChild_spec (n := ⟨n.count, plug pre c' post⟩) item hsides hfull hshape hright
      hpos rfl with hnone | ⟨n', target, p, n'', hroom, hins, hre⟩
    · rw [hnone]
      obtain ⟨l, k, r, hsplit, hl, hr, hcat⟩ := splitInsert_spec item hfull hshape hright hpos
      have hsetl : setChild ⟨n.count, plug pre c' post⟩ pre.length l =
        ⟨n.count, plug pre l post⟩ := by
        rw [setChild, setChild_plug]
      have hinsert : (insertItem ⟨n.count, plug pre l post⟩ pre.length k r).increaseTreeCount 1 =
          ⟨n.count + 1, plug pre l ((k, r) :: post)⟩ := congrArg (NodeOf.mk _) (insert_plug ..)
      simp only [hsplit, hsetl, hinsert]
      rw [← hcat] at htotal ⊢
      have hseq : (plug pre l ((k, r) :: post)).seq (Child.toList (h + 1)) =
          around pre (l.toList ++ k :: r.toList) post := (seq_plug ..).trans around_cons
      have hlnum := hnum l
      have hprelen : pre.length ≤ n.numItems := by
        rw [numItems, hn, num_plug]
        exact Nat.le_add_right _ _
      split
      case isTrue hroom =>
        rw [numItems, hlnum] at hroom
        have hnum' : (plug pre l ((k, r) :: post)).num = n.numItems + 1 := by
          rw [← hlnum, num_plug, num_plug]
          rfl
        refine ⟨_, rfl, (Nat.le_succ _).trans hnum'.ge, ⟨hnum'.trans_le hroom, ?_, ?_⟩, hseq⟩
        · show n.count + 1 = (seq ..).length + 0
          rw [hseq, htotal, hs.count_eq]
        · exact children_ok_plug.mpr ⟨sidesOk_cons.mpr ⟨hsides, hr⟩, hl⟩
      case isFalse hroom =>
        rw [numItems, hlnum] at hroom
        refine ⟨_, rfl, ?_, hprelen.trans hlnum.ge, hr, ⟨?_, ?_, ?_⟩, ?_⟩
        · rw [numItems, hlnum]
          exact Nat.le_antisymm hs.numItems_le (Nat.le_of_not_lt hroom)
        · rw [numItems, hlnum]
          exact hs.numItems_le
        · show n.count = ((plug pre l post).seq _).length + _
          rw [hr.treeCount_eq, hs.count_eq, seq_plug, toList_succ, toList_succ]
          simp only [length_append, length_cons] at htotal ⊢
          omega
        · exact children_ok_plug.mpr ⟨hsides, hl⟩
        · rw [← hseq, ← insert_plug]
    · rw [hroom]
      simp only [hins, map_some]
      refine ⟨_, rfl, hre.numItems_eq.trans (hnum c') |>.ge, ?_, hre.toList_eq⟩
      have hre' : Refilled L n n'' _ :=
        ⟨hre.count_eq, hre.numItems_eq.trans (hnum c'), hre.children, hre.toList_eq⟩
      exact shape_of_refilled hs hre' htotal

/-! ## §5 The whole way -/

theorem Inserted.Ok.mono {m m' : ℕ} (hup : up.Ok L m xs) (hle : m' ≤ m) : up.Ok L m' xs := by
  cases up with
  | done n => exact ⟨hle.trans hup.1, hup.2⟩
  | full n pos item right => exact hup

/-- **Insertion** at the place a path leads to, below a root or a subtree. -/
theorem insertAt_spec {n : Node α h} {path : Path} {A B : List α} (hat : At n path A B)
    (hleaf : path.length = h + 1) (hs : n.Shape L 0) (item : α) :
    ∃ up, n.insertAt L path item = some up ∧ up.Ok L n.numItems (A ++ item :: B) := by
  induction hat with
  | @leaf n A B hn =>
    have hlen := length_keys n.items
    rw [hn, length_append] at hlen
    have hpos : A.length ≤ n.numItems := by
      rw [numItems, ← hlen]
      exact Nat.le_add_right _ _
    have hins : (n.items.insert A.length item ()).seq (Child.toList 0) = A ++ item :: B := by
      obtain ⟨pre, c, post, hplug, hpre⟩ := n.items.exists_plug hpos
      rw [hplug, keys_plug] at hn
      obtain ⟨rfl, rfl⟩ := append_inj hn ((length_map _).trans hpre)
      rw [seq_of_nil _ (Child.toList 0) fun _ => rfl, ← hpre, hplug, insert_plug, keys_plug]
      rfl
    rw [insertAt]
    split
    case isTrue hfull => exact ⟨_, rfl, hfull, hpos, trivial, hs, hins⟩
    case isFalse hroom =>
      have hlt : n.numItems < L.maxItems 0 := Nat.lt_of_le_of_ne hs.numItems_le hroom
      refine ⟨_, rfl, ?_, hs.insertItem item (trivial : Ok L 0 ()) hpos hlt rfl, hins⟩
      exact (Nat.le_succ _).trans (num_insert n.items item () hpos).ge
  | key n pre c k c' post hn => simp at hleaf
  | @child h n pre c post hn path A B hc ih =>
    have hcok : Ok L (h + 1) c := (children_ok_plug.mp (hn ▸ hs.children)).2
    obtain ⟨hlow, hshape⟩ := ok_succ.mp hcok
    obtain ⟨up, hins, hup⟩ := ih (Nat.succ_injective hleaf) hshape
    obtain ⟨up', hup', hok⟩ := insertUp_spec hs hn (hup.mono hlow) (by
      rw [hc.toList_eq]
      simp only [length_append, length_cons]
      omega)
    refine ⟨up', ?_, ?_⟩
    · rw [insertAt, hn, child_plug]
      simp only [hins, bind_some]
      exact hup'
    · simpa only [around, append_assoc, cons_append] using hok

end Node

end Drakeydb.BPTreeSet
