import Mathlib.Data.List.TakeWhile
import Mathlib.Order.Lattice
import Drakeydb.Lib.Walker

/-!
# Block lists

`SortedVector<T>` and `BlockList<SortedVector<T>>` of `core/search/block_list.{h,cc}`. A sorted
vector has increasing elements, with insertion and removal through `std::lower_bound`. A block list
is a sorted set of elements, cut into such vectors, which are split when they grow and merged with
their left neighbour when they shrink.
-/

namespace Drakeydb.Search

open List

variable {τ : Type} [LinearOrder τ]

def Sorted (v : List τ) : Prop := v.Pairwise (· < ·)

instance (v : List τ) : Decidable (Sorted v) := inferInstanceAs (Decidable (v.Pairwise _))

namespace SortedVector

def lowerBound (v : List τ) (t : τ) : ℕ := (v.takeWhile (· < t)).length

/-- `Insert`; `none` if the element is present. -/
def insert (v : List τ) (t : τ) : Option (List τ) :=
  if v.getLast?.all (· < t) then some (v ++ [t])
  else if v[lowerBound v t]? = some t then none
  else some (v.take (lowerBound v t) ++ t :: v.drop (lowerBound v t))

/-- `Remove`; `none` if the element is not present. -/
def remove (v : List τ) (t : τ) : Option (List τ) :=
  if v[lowerBound v t]? = some t then some (v.eraseIdx (lowerBound v t)) else none

def merge (v other : List τ) : List τ := other.foldl (fun v t => (insert v t).getD v) v

def split (v : List τ) : List τ × List τ := (v.take (v.length / 2), v.drop (v.length / 2))

/-! ## Lemmas -/

theorem take_lowerBound (v : List τ) (t : τ) : v.take (lowerBound v t) = v.takeWhile (· < t) := by
  calc v.take (lowerBound v t)
      = (v.takeWhile (· < t) ++ v.dropWhile (· < t)).take (lowerBound v t) := by simp
    _ = v.takeWhile (· < t) := take_left

theorem drop_lowerBound (v : List τ) (t : τ) : v.drop (lowerBound v t) = v.dropWhile (· < t) := by
  calc v.drop (lowerBound v t)
      = (v.takeWhile (· < t) ++ v.dropWhile (· < t)).drop (lowerBound v t) := by simp
    _ = v.dropWhile (· < t) := drop_left

theorem getElem?_lowerBound (v : List τ) (t : τ) :
    v[lowerBound v t]? = (v.dropWhile (· < t)).head? := by
  simp [← drop_lowerBound]

variable {v : List τ} {t : τ} {x : τ}

/-- In a sorted vector everything from the lower bound on is at least the element. -/
theorem le_of_mem_dropWhile (hv : Sorted v) (hx : x ∈ v.dropWhile (· < t)) : t ≤ x := by
  induction v with
  | nil => cases hx
  | cons y v ih =>
    obtain ⟨hy, hv⟩ := pairwise_cons.mp hv
    by_cases hlt : y < t
    · rw [dropWhile_cons_of_pos (by simpa using hlt)] at hx
      exact ih hv hx
    · rw [dropWhile_cons_of_neg (by simpa using hlt)] at hx
      rcases mem_cons.mp hx with rfl | hx
      · exact le_of_not_gt hlt
      · exact (le_of_not_gt hlt).trans (hy x hx).le

theorem lt_of_mem_takeWhile (hx : x ∈ v.takeWhile (· < t)) : x < t := by
  simpa using mem_takeWhile_imp hx

theorem mem_split_iff : x ∈ v ↔ x ∈ v.takeWhile (· < t) ∨ x ∈ v.dropWhile (· < t) := by
  conv_lhs => rw [← takeWhile_append_dropWhile (p := (· < t)) (l := v)]
  exact mem_append

section

variable (hv : Sorted v)
include hv

/-- The element is present exactly if the lower bound points to it. -/
theorem getElem?_lowerBound_eq_some_iff (t : τ) : v[lowerBound v t]? = some t ↔ t ∈ v := by
  rw [getElem?_lowerBound]
  constructor
  · intro h
    exact (dropWhile_suffix _).subset (mem_of_mem_head? h)
  · intro h
    have hdrop : t ∈ v.dropWhile (· < t) :=
      (mem_split_iff.mp h).resolve_left fun htake => lt_irrefl t (lt_of_mem_takeWhile htake)
    cases hlist : v.dropWhile (· < t) with
    | nil =>
      rw [hlist] at hdrop
      cases hdrop
    | cons y rest =>
      have hsorted : Sorted (y :: rest) := hlist ▸ hv.sublist (dropWhile_sublist _)
      rw [hlist] at hdrop
      rcases mem_cons.mp hdrop with rfl | hrest
      · rfl
      · have hle := le_of_mem_dropWhile hv (hlist ▸ mem_cons_self : y ∈ v.dropWhile (· < t))
        exact absurd (hle.trans_lt ((pairwise_cons.mp hsorted).1 t hrest)) (lt_irrefl t)

theorem takeWhile_append_cons_sorted (ht : t ∉ v) :
    Sorted (v.takeWhile (· < t) ++ t :: v.dropWhile (· < t)) := by
  have hdrop : ∀ x ∈ v.dropWhile (· < t), t < x := fun x hx =>
    lt_of_le_of_ne (le_of_mem_dropWhile hv hx) fun h => ht (h ▸ (dropWhile_suffix _).subset hx)
  apply pairwise_append.mpr
  refine ⟨hv.sublist (takeWhile_sublist _),
    pairwise_cons.mpr ⟨hdrop, hv.sublist (dropWhile_sublist _)⟩, ?_⟩
  intro x hx y hy
  rcases mem_cons.mp hy with rfl | hy
  · exact lt_of_mem_takeWhile hx
  · exact (lt_of_mem_takeWhile hx).trans (hdrop y hy)

/-- A vector whose last element is below the new one has only smaller ones. -/
theorem lt_of_getLast? (h : v.getLast?.all (· < t) = true) : ∀ x ∈ v, x < t := by
  rcases eq_nil_or_concat v with rfl | ⟨init, last, rfl⟩
  · exact forall_mem_nil _
  · rw [concat_eq_append] at hv h ⊢
    have hlast : last < t := by simpa using h
    refine forall_mem_append.mpr ⟨fun x hx => ?_, forall_mem_singleton.mpr hlast⟩
    exact ((pairwise_append.mp hv).2.2 x hx last mem_cons_self).trans hlast

theorem insert_of_mem (ht : t ∈ v) : insert v t = none := by
  have hlast : ¬ v.getLast?.all (· < t) = true := fun h => lt_irrefl t (lt_of_getLast? hv h t ht)
  rw [insert, if_neg hlast, if_pos ((getElem?_lowerBound_eq_some_iff hv t).mpr ht)]

/-- … and puts another one between the smaller and the larger ones. -/
theorem insert_of_not_mem (ht : t ∉ v) :
    insert v t = some (v.takeWhile (· < t) ++ t :: v.dropWhile (· < t)) := by
  rw [insert]
  split
  case isTrue hlast =>
    have hall : ∀ x ∈ v, decide (x < t) = true :=
      fun x hx => decide_eq_true (lt_of_getLast? hv hlast x hx)
    rw [takeWhile_eq_self_iff.mpr hall, dropWhile_eq_nil_iff.mpr hall]
  case isFalse =>
    rw [if_neg fun h => ht ((getElem?_lowerBound_eq_some_iff hv t).mp h), take_lowerBound,
      drop_lowerBound]

/-- **What `Insert` does.** -/
theorem insert_spec (t : τ) : (t ∈ v ∧ insert v t = none) ∨
      (t ∉ v ∧ ∃ v', insert v t = some v' ∧ Sorted v' ∧ v'.length = v.length + 1 ∧
        ∀ x, x ∈ v' ↔ x = t ∨ x ∈ v) := by
  by_cases ht : t ∈ v
  · exact .inl ⟨ht, insert_of_mem hv ht⟩
  · refine .inr ⟨ht, _, insert_of_not_mem hv ht, takeWhile_append_cons_sorted hv ht, ?_,
      fun x => ?_⟩
    · conv_rhs => rw [← takeWhile_append_dropWhile (p := (· < t)) (l := v)]
      rw [length_append, length_append, length_cons]
      omega
    · rw [mem_append, mem_cons, mem_split_iff (v := v) (t := t)]
      exact or_left_comm

/-- **What `Remove` does.** -/
theorem remove_spec (t : τ) : (t ∉ v ∧ remove v t = none) ∨
      (t ∈ v ∧ ∃ v', remove v t = some v' ∧ Sorted v' ∧ v'.length + 1 = v.length ∧
        ∀ x, x ∈ v' ↔ x ≠ t ∧ x ∈ v) := by
  by_cases ht : t ∈ v
  · have hget := (getElem?_lowerBound_eq_some_iff hv t).mpr ht
    obtain ⟨hlt, heq⟩ := List.getElem?_eq_some_iff.mp hget
    refine .inr ⟨ht, _, if_pos hget, hv.sublist (List.eraseIdx_sublist _ _), ?_, fun x => ?_⟩
    · rw [List.length_eraseIdx_of_lt hlt]
      omega
    · have hsplit : v = v.takeWhile (· < t) ++ t :: v.drop (lowerBound v t + 1) := by
        conv_lhs => rw [← List.take_append_drop (lowerBound v t) v, take_lowerBound,
          List.drop_eq_getElem_cons hlt, heq]
      have hafter := hsplit ▸ hv
      obtain ⟨_, hcons, hbefore⟩ := List.pairwise_append.mp hafter
      rw [List.eraseIdx_eq_take_drop_succ, take_lowerBound, List.mem_append]
      conv_rhs => rw [hsplit, List.mem_append, List.mem_cons]
      constructor
      · rintro (hx | hx)
        · exact ⟨(lt_of_mem_takeWhile hx).ne, .inl hx⟩
        · exact ⟨((List.pairwise_cons.mp hcons).1 x hx).ne', .inr (.inr hx)⟩
      · rintro ⟨hne, hx | rfl | hx⟩
        · exact .inl hx
        · exact absurd rfl hne
        · exact .inr hx
  · exact .inl ⟨ht, if_neg fun h => ht ((getElem?_lowerBound_eq_some_iff hv t).mp h)⟩

end

theorem merge_of_lt {other : List τ} (h : Sorted (v ++ other)) : merge v other = v ++ other := by
  induction other generalizing v with
  | nil => exact (append_nil v).symm
  | cons t other ih =>
    have hlast : v.getLast?.all (· < t) = true := by
      cases hget : v.getLast? with
      | none => rfl
      | some last =>
        have hmem := mem_of_getLast? hget
        exact decide_eq_true ((pairwise_append.mp h).2.2 last hmem t mem_cons_self)
    have hstep : insert v t = some (v ++ [t]) := if_pos hlast
    rw [append_cons] at h ⊢
    change merge ((insert v t).getD v) other = _
    rw [hstep]
    exact ih h

omit [LinearOrder τ] in
theorem split_append (v : List τ) : (split v).1 ++ (split v).2 = v := take_append_drop _ _

end SortedVector

open Lib SortedVector

structure BlockList (τ : Type) where
  blockSize : ℕ
  size : ℕ
  blocks : List (List τ)

namespace BlockList

def empty (blockSize : ℕ) : BlockList τ := ⟨blockSize, 0, []⟩

/-- What an iterator runs through. -/
def elems (b : BlockList τ) : List τ := b.blocks.flatten

/-- The test of the `upper_bound` in `FindBlock`: the block does not begin above the element. -/
def beginsBelow (t : τ) (block : List τ) : Bool := !block.head?.any (t < ·)

/-- `FindBlock`, as the number of the block. -/
def findBlock (blocks : List (List τ)) (t : τ) : ℕ :=
  if blocks.getLast?.any fun block => block.head?.any (· ≤ t) then blocks.length - 1
  else (blocks.takeWhile (beginsBelow t)).length - 1

def shouldSplit (blockSize n : ℕ) : Bool := decide (blockSize * 2 ≤ n)

def trySplit (blockSize : ℕ) (blocks : List (List τ)) (i : ℕ) : List (List τ) :=
  match blocks[i]? with
  | none => blocks
  | some v =>
    if v.length < 2 ∨ ¬ shouldSplit blockSize (v.length + 1) then blocks
    else blocks.take i ++ (SortedVector.split v).1 :: (SortedVector.split v).2 ::
      blocks.drop (i + 1)

def tryMerge (blockSize : ℕ) (blocks : List (List τ)) (i : ℕ) : List (List τ) :=
  match blocks[i]? with
  | none => blocks
  | some v =>
    if v.length = 0 then blocks.eraseIdx i
    else if blockSize / 2 ≤ v.length ∨ i = 0 then blocks
    else
      trySplit blockSize
        ((blocks.set (i - 1) (SortedVector.merge (blocks[i - 1]?.getD []) v)).eraseIdx i) (i - 1)

/-- The block for an insertion exists: a new one is put at the end of an empty list. -/
def withBlock (blocks : List (List τ)) (i : ℕ) : List (List τ) :=
  if i = blocks.length then blocks ++ [[]] else blocks

/-- `Insert`; `false` if the element is present. -/
def insert (b : BlockList τ) (t : τ) : BlockList τ × Bool :=
  let i := findBlock b.blocks t
  let blocks := withBlock b.blocks i
  match SortedVector.insert (blocks[i]?.getD []) t with
  | none => (⟨b.blockSize, b.size, blocks⟩, false)
  | some v => (⟨b.blockSize, b.size + 1, trySplit b.blockSize (blocks.set i v) i⟩, true)

def pushBack (b : BlockList τ) (t : τ) : BlockList τ × Bool :=
  let blocks :=
    if b.blocks.getLast?.all fun v => shouldSplit b.blockSize (v.length + 1) then b.blocks ++ [[]]
    else b.blocks
  match SortedVector.insert (blocks.getLast?.getD []) t with
  | none => (⟨b.blockSize, b.size, blocks⟩, false)
  | some v => (⟨b.blockSize, b.size + 1, blocks.dropLast ++ [v]⟩, true)

/-- `Remove`; `false` if the element is not present. -/
def remove (b : BlockList τ) (t : τ) : BlockList τ × Bool :=
  let i := findBlock b.blocks t
  match b.blocks[i]? with
  | none => (b, false)
  | some block =>
    match SortedVector.remove block t with
    | none => (b, false)
    | some v => (⟨b.blockSize, b.size - 1, tryMerge b.blockSize (b.blocks.set i v) i⟩, true)

/-! ## §1 The invariant -/

/-- The blocks are not empty, all together are sorted, and the size is right. -/
structure Inv (b : BlockList τ) : Prop where
  ne_nil : ∀ block ∈ b.blocks, block ≠ []
  sorted : Sorted b.elems
  size_eq : b.size = b.elems.length

variable (blockSize : ℕ)

theorem inv_empty : Inv (empty blockSize : BlockList τ) where
  ne_nil := fun _ h => by cases h
  sorted := List.Pairwise.nil
  size_eq := rfl

/-! ## §2 Finding the block -/

section Find

variable {blocks : List (List τ)} {t : τ}

theorem beginsBelow_cons (x : τ) (v : List τ) : beginsBelow t (x :: v) = decide (x ≤ t) := by
  change (!decide (t < x)) = decide (x ≤ t)
  rw [← decide_not]
  exact decide_eq_decide.mpr not_lt

section

variable (hne : ∀ block ∈ blocks, block ≠ [])
include hne

section

variable (hsorted : Sorted blocks.flatten)
include hsorted

theorem upToSome_beginsBelow : UpToSome (beginsBelow t) blocks := by
  refine (pairwise_flatten.mp hsorted).2.imp_of_mem fun {a b} ha hb hlt hbegins => ?_
  obtain ⟨x, v, rfl⟩ := exists_cons_of_ne_nil (hne a ha)
  obtain ⟨y, w, rfl⟩ := exists_cons_of_ne_nil (hne b hb)
  rw [beginsBelow_cons, decide_eq_true_iff] at hbegins ⊢
  exact (hlt x mem_cons_self y mem_cons_self).le.trans hbegins

theorem findBlock_eq : findBlock blocks t = (blocks.takeWhile (beginsBelow t)).length - 1 := by
  rw [findBlock]
  split
  case isTrue hlast =>
    -- if the last block begins at or below the element, all do
    have hfrom : FromSome (fun block => !beginsBelow t block) blocks :=
      (upToSome_beginsBelow hne hsorted).imp fun h => by simpa using mt h
    obtain ⟨last, hlast, hbegins⟩ := Option.any_eq_true _ _ |>.mp hlast
    have hall := hfrom.eq_false_of_getLast? (by
      obtain ⟨x, v, rfl⟩ := exists_cons_of_ne_nil (hne last (mem_of_getLast? hlast))
      simpa [hlast, beginsBelow_cons] using hbegins)
    rw [takeWhile_eq_self_iff.mpr (by simpa using hall)]
  case isFalse => rfl

/-- **`FindBlock`** cuts the list at a block with only smaller elements before it and only larger
ones after it. -/
theorem findBlock_spec (hblocks : blocks ≠ []) :
    ∃ before block after, blocks = before ++ block :: after ∧ findBlock blocks t = before.length ∧
      (∀ x ∈ before.flatten, x < t) ∧ ∀ x ∈ after.flatten, t < x := by
  rw [findBlock_eq hne hsorted]
  obtain ⟨hblock, hcross⟩ := pairwise_flatten.mp hsorted
  obtain ⟨low, high, rfl, hlow, hhigh⟩ := (upToSome_beginsBelow (t := t) hne hsorted).exists_append
  rw [takeWhile_append_of_neg hlow hhigh]
  have habove : ∀ x ∈ high.flatten, t < x := by
    intro x hx
    obtain ⟨block, hmem, hx⟩ := mem_flatten.mp hx
    obtain ⟨y, v, rfl⟩ := exists_cons_of_ne_nil (hne block (mem_append_right _ hmem))
    have hy : t < y := by simpa [beginsBelow_cons] using hhigh _ hmem
    rcases mem_cons.mp hx with rfl | hx
    · exact hy
    · exact hy.trans ((pairwise_cons.mp (hblock _ (mem_append_right _ hmem))).1 x hx)
  rcases eq_nil_or_concat low with rfl | ⟨before, block, rfl⟩
  · obtain ⟨block, after, rfl⟩ := exists_cons_of_ne_nil hblocks
    exact ⟨[], block, after, rfl, rfl, forall_mem_nil _, fun x hx =>
      habove x (mem_append_right _ hx)⟩
  · rw [concat_eq_append] at *
    refine ⟨before, block, high, by simp, by simp, fun y hy => ?_, habove⟩
    obtain ⟨x, v, rfl⟩ := exists_cons_of_ne_nil
      (hne block (mem_append_left _ mem_append_cons_self))
    have hx : x ≤ t := by simpa [beginsBelow_cons] using hlow _ mem_append_cons_self
    obtain ⟨b, hb, hy⟩ := mem_flatten.mp hy
    have hbefore := (pairwise_append.mp (pairwise_append.mp hcross).1).2.2 b hb _ mem_cons_self
    exact (hbefore y hy x mem_cons_self).trans_le hx

end

end

end Find

/-! ## §3 Splitting and merging blocks -/

section Cut

variable {blocks before after : List (List τ)} {block v : List τ}

omit [LinearOrder τ] in
theorem split_ne_nil (hv : ¬ v.length < 2) :
    (SortedVector.split v).1 ≠ [] ∧ (SortedVector.split v).2 ≠ [] := by
  constructor
  · intro h
    have := congrArg length h
    rw [split, length_take, length_nil] at this
    omega
  · intro h
    have := congrArg length h
    rw [split, length_drop, length_nil] at this
    omega

omit [LinearOrder τ] in
theorem trySplit_spec (blockSize i : ℕ) (hne : ∀ block ∈ blocks, block ≠ []) :
    (trySplit blockSize blocks i).flatten = blocks.flatten ∧
      ∀ block ∈ trySplit blockSize blocks i, block ≠ [] := by
  rw [trySplit]
  split
  · exact ⟨rfl, hne⟩
  case h_2 v hv =>
    split
    · exact ⟨rfl, hne⟩
    case isFalse hlarge =>
      obtain ⟨hi, rfl⟩ := List.getElem?_eq_some_iff.mp hv
      have hparts := split_ne_nil fun h => hlarge (.inl h)
      constructor
      · conv_rhs => rw [← List.take_append_drop i blocks, List.drop_eq_getElem_cons hi]
        rw [List.flatten_append, List.flatten_append, List.flatten_cons, List.flatten_cons,
          List.flatten_cons, ← List.append_assoc (split _).1, split_append]
      · refine forall_mem_append_cons.mpr ⟨hparts.1, forall_mem_append_cons.mpr ⟨hparts.2, ?_⟩⟩
        exact forall_mem_append.mpr ⟨fun w hw => hne w (mem_of_mem_take hw), fun w hw =>
          hne w (mem_of_mem_drop hw)⟩

/-- So does merging a block that has become small with its neighbour. -/
theorem tryMerge_spec (hne : ∀ block ∈ before ++ after, block ≠ [])
    (hsorted : Sorted (before ++ v :: after).flatten) :
    (tryMerge blockSize (before ++ v :: after) before.length).flatten =
      (before ++ v :: after).flatten ∧
      ∀ block ∈ tryMerge blockSize (before ++ v :: after) before.length, block ≠ [] := by
  rw [tryMerge, Lib.getElem?_length]
  dsimp only
  split
  case isTrue hnil =>
    rw [eraseIdx_length, flatten_append, flatten_append, flatten_cons,
      length_eq_zero_iff.mp hnil, nil_append]
    exact ⟨rfl, hne⟩
  case isFalse hpos =>
    have hv : v ≠ [] := fun h => hpos (by rw [h]; rfl)
    split
    case isTrue => exact ⟨rfl, forall_mem_append_cons.mpr ⟨hv, hne⟩⟩
    case isFalse hsmall =>
      rcases eq_nil_or_concat before with rfl | ⟨init, left, rfl⟩
      · exact absurd (.inr rfl) hsmall
      · rw [concat_eq_append] at *
        have hlen : (init ++ [left]).length - 1 = init.length := by
          simp
        have hleft : (init ++ [left] ++ v :: after)[init.length]? = some left := by
          rw [append_assoc]
          exact Lib.getElem?_length ..
        have hmerge : SortedVector.merge left v = left ++ v := by
          apply merge_of_lt
          rw [append_assoc, flatten_append] at hsorted
          have hpart := (pairwise_append.mp hsorted).2.1
          rw [singleton_append, flatten_cons, flatten_cons, ← append_assoc] at hpart
          exact (pairwise_append.mp hpart).1
        have hset : ((init ++ [left] ++ v :: after).set init.length (left ++ v)).eraseIdx
          (init ++ [left]).length =
            init ++ (left ++ v) :: after := by
          simp [eraseIdx_append_of_length_le]
        rw [hlen, hleft, Option.getD_some, hmerge, hset]
        rw [append_assoc] at hne
        obtain ⟨hflat, hne'⟩ := trySplit_spec blockSize init.length
          (forall_mem_append_cons.mpr ⟨append_ne_nil_of_right_ne_nil left hv,
            (forall_mem_append_cons.mp hne).2⟩)
        refine ⟨hflat.trans ?_, hne'⟩
        simp

end Cut

/-! ## §4 The operations -/

section Operations

variable {b : BlockList τ} {before after : List (List τ)} {block v : List τ} {t : τ}

omit [LinearOrder τ] in
theorem flatten_replace (before after : List (List τ)) (v : List τ) :
    (before ++ v :: after).flatten = before.flatten ++ (v ++ after.flatten) := by
  simp

theorem sorted_block (h : Sorted (before ++ v :: after).flatten) : Sorted v := by
  rw [flatten_replace] at h
  exact (pairwise_append.mp (pairwise_append.mp h).2.1).1

section

variable (hsorted : Sorted (before ++ block :: after).flatten)
include hsorted

/-- Elements between those of the other blocks keep all together sorted. -/
theorem sorted_replace (hv : Sorted v)
    (hbetween : ∀ x ∈ v, (∀ y ∈ before.flatten, y < x) ∧ ∀ y ∈ after.flatten, x < y) :
    Sorted (before ++ v :: after).flatten := by
  rw [flatten_replace] at hsorted ⊢
  obtain ⟨hleft, hright, hcross⟩ := pairwise_append.mp hsorted
  obtain ⟨_, hafter, _⟩ := pairwise_append.mp hright
  apply pairwise_append.mpr
  refine ⟨hleft, pairwise_append.mpr ⟨hv, hafter, fun x hx y hy => (hbetween x hx).2 y hy⟩, ?_⟩
  intro y hy x hx
  rcases mem_append.mp hx with hx | hx
  · exact (hbetween x hx).1 y hy
  · exact hcross y hy x (mem_append_right _ hx)

theorem between_of_sorted {x : τ} (hx : x ∈ block) :
    (∀ y ∈ before.flatten, y < x) ∧ ∀ y ∈ after.flatten, x < y := by
  rw [flatten_replace] at hsorted
  obtain ⟨_, hright, hcross⟩ := pairwise_append.mp hsorted
  exact ⟨fun y hy => hcross y hy x (mem_append_left _ hx),
    fun y hy => (pairwise_append.mp hright).2.2 x hx y hy⟩

end

omit [LinearOrder τ] in
theorem mem_replace {x : τ} :
    x ∈ (before ++ v :: after).flatten ↔ x ∈ before.flatten ∨ x ∈ v ∨ x ∈ after.flatten := by
  simp

/-- An element can only be in the block that `FindBlock` gives. -/
theorem mem_found_iff (hlt : ∀ x ∈ before.flatten, x < t) (hgt : ∀ x ∈ after.flatten, t < x) :
    t ∈ (before ++ block :: after).flatten ↔ t ∈ block := by
  rw [mem_replace, or_iff_right fun h => lt_irrefl t (hlt t h), or_iff_left fun h =>
    lt_irrefl t (hgt t h)]

/-- An element put into a block that `FindBlock` gives, or into the only, empty one. -/
theorem insert_at (before after : List (List τ)) (block : List τ)
    (hrest : ∀ w ∈ before ++ after, w ≠ []) (hsorted : Sorted (before ++ block :: after).flatten)
    (hlt : ∀ x ∈ before.flatten, x < t) (hgt : ∀ x ∈ after.flatten, t < x) (ht : t ∉ block)
    (hv : SortedVector.insert block t = some v) :
    Inv ⟨blockSize, (before ++ block :: after).flatten.length + 1,
      trySplit blockSize (before ++ v :: after) before.length⟩ ∧
      ∀ x, x ∈ (trySplit blockSize (before ++ v :: after) before.length).flatten ↔
        x = t ∨ x ∈ (before ++ block :: after).flatten := by
  have hblock := sorted_block hsorted
  obtain ⟨hmem, _⟩ | ⟨_, v', hv', hvsorted, hlen, hvmem⟩ := insert_spec hblock t
  · exact absurd hmem ht
  · cases hv.symm.trans hv'
    have hvne : v ≠ [] := by
      intro h
      rw [h] at hlen
      exact absurd hlen (Nat.succ_ne_zero _).symm
    have hsorted' : Sorted (before ++ v :: after).flatten := by
      apply sorted_replace hsorted hvsorted
      intro x hx
      rcases (hvmem x).mp hx with rfl | hx
      · exact ⟨hlt, hgt⟩
      · exact between_of_sorted hsorted hx
    obtain ⟨hflat, hne⟩ :=
      trySplit_spec blockSize before.length (forall_mem_append_cons.mpr ⟨hvne, hrest⟩)
    refine ⟨⟨hne, ?_, ?_⟩, fun x => ?_⟩
    · rw [elems, hflat]
      exact hsorted'
    · rw [elems, hflat, flatten_replace, flatten_replace]
      simp only [length_append]
      omega
    · simp [hflat, hvmem, or_assoc, or_left_comm]

/-- **`Insert`** keeps the invariant and adds the element. -/
theorem insert_spec (hb : Inv b) (t : τ) :
    Inv (b.insert t).1 ∧ (b.insert t).1.blockSize = b.blockSize ∧
      (∀ x, x ∈ (b.insert t).1.elems ↔ x = t ∨ x ∈ b.elems) ∧
        ((b.insert t).2 = true ↔ t ∉ b.elems) := by
  obtain ⟨blockSize, size, blocks⟩ := b
  obtain ⟨hne, hsorted, hsize⟩ := hb
  dsimp only [elems] at hne hsorted hsize ⊢
  by_cases hblocks : blocks = []
  · subst hblocks
    have hv : SortedVector.insert ([] : List τ) t = some [t] := rfl
    have hspec := insert_at blockSize [] [] [] (fun w hw => by cases hw)
      List.Pairwise.nil (fun x hx => by cases hx) (fun x hx => by cases hx) not_mem_nil hv
    have hinsert : insert ⟨blockSize, size, []⟩ t =
        (⟨blockSize, size + 1, trySplit blockSize [[t]] 0⟩, true) := rfl
    rw [hinsert, hsize]
    exact ⟨hspec.1, rfl, hspec.2, iff_of_true rfl not_mem_nil⟩
  · obtain ⟨before, block, after, rfl, hfind, hlt, hgt⟩ :=
      findBlock_spec (t := t) hne hsorted hblocks
    have hwith : withBlock (before ++ block :: after) before.length = before ++ block :: after := by
      rw [withBlock, if_neg]
      rw [length_append, length_cons]
      omega
    have hblock := sorted_block hsorted
    have hmem : t ∈ (before ++ block :: after).flatten ↔ t ∈ block := mem_found_iff hlt hgt
    rw [insert]
    simp only [hfind, hwith, Lib.getElem?_length, Option.getD_some, set_length]
    by_cases ht : t ∈ block
    · rw [SortedVector.insert_of_mem hblock ht]
      refine ⟨⟨hne, hsorted, hsize⟩, rfl, fun x => ?_, iff_of_false Bool.false_ne_true fun h =>
        h (hmem.mpr ht)⟩
      exact ⟨.inr, fun h => h.elim (fun h => h ▸ hmem.mpr ht) id⟩
    · obtain ⟨hin, _⟩ | ⟨_, v, hv, _⟩ := SortedVector.insert_spec hblock t
      · exact absurd hin ht
      · have hspec := insert_at blockSize before after block
          (forall_mem_append_cons.mp hne).2 hsorted hlt hgt ht hv
        rw [hv, hsize]
        exact ⟨hspec.1, rfl, hspec.2, iff_of_true rfl fun h => ht (hmem.mp h)⟩

/-- **`Remove`** keeps the invariant and takes the element away. -/
theorem remove_spec (hb : Inv b) (t : τ) :
    Inv (b.remove t).1 ∧ (b.remove t).1.blockSize = b.blockSize ∧
      ∀ x, x ∈ (b.remove t).1.elems ↔ x ≠ t ∧ x ∈ b.elems := by
  obtain ⟨blockSize, size, blocks⟩ := b
  have hkeep : t ∉ (BlockList.mk blockSize size blocks).elems → ∀ x,
      x ∈ (BlockList.mk blockSize size blocks).elems ↔
        x ≠ t ∧ x ∈ (BlockList.mk blockSize size blocks).elems := fun ht x =>
    ⟨fun hx => ⟨fun h => ht (h ▸ hx), hx⟩, And.right⟩
  by_cases hblocks : blocks = []
  · subst hblocks
    exact ⟨hb, rfl, hkeep not_mem_nil⟩
  · obtain ⟨before, block, after, rfl, hfind, hlt, hgt⟩ :=
      findBlock_spec (t := t) hb.ne_nil hb.sorted hblocks
    have hsorted : Sorted (before ++ block :: after).flatten := hb.sorted
    have hblock := sorted_block hsorted
    rw [remove]
    simp only [hfind, Lib.getElem?_length, set_length]
    obtain ⟨ht, hnone⟩ | ⟨ht, v, hv, hvsorted, hlen, hvmem⟩ := remove_spec hblock t
    · rw [hnone]
      exact ⟨hb, rfl, hkeep fun h => ht ((mem_found_iff hlt hgt).mp h)⟩
    · rw [hv]
      have hsorted' : Sorted (before ++ v :: after).flatten :=
        sorted_replace hsorted hvsorted fun x hx =>
        between_of_sorted hsorted ((hvmem x).mp hx).2
      obtain ⟨hflat, hne⟩ :=
        tryMerge_spec blockSize (forall_mem_append_cons.mp hb.ne_nil).2 hsorted'
      refine ⟨⟨hne, ?_, ?_⟩, rfl, fun x => ?_⟩
      · rw [elems, hflat]
        exact hsorted'
      · have hsize : size = (before ++ block :: after).flatten.length := hb.size_eq
        rw [elems, hflat, hsize, flatten_replace, flatten_replace]
        simp only [length_append]
        omega
      · rw [elems, hflat, mem_replace, elems, mem_replace, hvmem]
        constructor
        · rintro (hx | ⟨hne, hx⟩ | hx)
          · exact ⟨(hlt x hx).ne, .inl hx⟩
          · exact ⟨hne, .inr (.inl hx)⟩
          · exact ⟨(hgt x hx).ne', .inr (.inr hx)⟩
        · rintro ⟨hne, hx | hx | hx⟩
          · exact .inl hx
          · exact .inr (.inl ⟨hne, hx⟩)
          · exact .inr (.inr hx)

/-- **`PushBack`** of an element above all others. -/
theorem pushBack_spec (hb : Inv b) (ht : ∀ x ∈ b.elems, x < t) :
    Inv (b.pushBack t).1 ∧ (b.pushBack t).1.blockSize = b.blockSize ∧
      (b.pushBack t).1.elems = b.elems ++ [t] := by
  obtain ⟨blockSize, size, blocks⟩ := b
  have hopen : ∃ init last, (if blocks.getLast?.all fun v => shouldSplit blockSize (v.length + 1)
      then blocks ++ [[]] else blocks) = init ++ [last] ∧
        (init ++ [last]).flatten = blocks.flatten ∧
      ∀ w ∈ init, w ≠ [] := by
    split
    case isTrue =>
      refine ⟨blocks, [], rfl, ?_, hb.ne_nil⟩
      rw [flatten_append, flatten_cons, flatten_nil, append_nil, append_nil]
    case isFalse hlast =>
      rcases eq_nil_or_concat blocks with rfl | ⟨init, last, rfl⟩
      · exact absurd rfl hlast
      · rw [concat_eq_append] at *
        exact ⟨init, last, rfl, rfl, fun w hw => hb.ne_nil w (mem_append_left _ hw)⟩
  obtain ⟨init, last, heq, hflat, hne⟩ := hopen
  have hlast : SortedVector.insert last t = some (last ++ [t]) := by
    have hall : last.getLast?.all (· < t) = true := by
      cases hget : last.getLast? with
      | none => rfl
      | some x =>
        apply decide_eq_true
        apply ht
        rw [elems, ← hflat, flatten_append, flatten_cons, flatten_nil, append_nil]
        exact mem_append_right _ (mem_of_getLast? hget)
    exact if_pos hall
  have helems : (init ++ [last ++ [t]]).flatten = blocks.flatten ++ [t] := by
    rw [← hflat]
    simp only [flatten_append, flatten_cons, flatten_nil, append_nil, append_assoc]
  rw [pushBack]
  simp only [heq, getLast?_concat, Option.getD_some, hlast, dropLast_concat]
  refine ⟨⟨?_, ?_, ?_⟩, trivial, helems⟩
  · exact forall_mem_append.mpr ⟨hne, forall_mem_singleton.mpr fun h =>
      cons_ne_nil t [] (append_eq_nil_iff.mp h).2⟩
  · rw [elems, helems]
    exact pairwise_append.mpr ⟨hb.sorted, pairwise_singleton _ _, fun x hx y hy => by
      rw [mem_singleton.mp hy]
      exact ht x hx⟩
  · have hsize : size = blocks.flatten.length := hb.size_eq
    rw [elems, helems, length_append, length_singleton, hsize]

end Operations

end BlockList

end Drakeydb.Search
