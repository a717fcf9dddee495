import Drakeydb.Json.Traverse

/-!
# What the traversal finds

The stack machine, told as a recursion along the path: each segment leads from a node to some nodes,
and the last one is handed to the terminal step. The items of the machine are then worth what the
recursion says, whatever is on the stack below them.
-/

namespace Drakeydb.Json

open Lib.DepthFirst List
open Item hiding next

variable {σ ω : Type} {path : List PathSegment} {terminal : PathSegment → Ref σ → List ω}
  {segment : PathSegment} {item item' : Item σ} {x c : Ref σ} {idx segId : ℕ} {rest : List ω}

/-! ## §1 The recursion -/

/-- The nodes to which one segment leads, as the code selects them. -/
def stepNodes (segment : PathSegment) (x : Ref σ) : List (Ref σ) :=
  match segment with
  | .descent => x.preorder
  | _ => (performStep segment x).map Prod.snd

/-- The terminal step at every node to which the segments before it lead. -/
def gather (terminal : PathSegment → Ref σ → List ω) : List PathSegment → Ref σ → List ω
  | [], _ => []
  | [segment], x => if x.json.isRecursive then terminal segment x else []
  | segment :: next :: path, x =>
    (stepNodes segment x).flatMap (gather terminal (next :: path))

theorem stepNodes_of_ne (h : segment ≠ .descent) (x : Ref σ) :
    stepNodes segment x = (performStep segment x).map Prod.snd := by
  cases segment with
  | descent => exact absurd rfl h
  | identifier name => rfl
  | index expr => rfl
  | wildcard => rfl

section

variable (hx : x.json.isRecursive = false)
include hx

theorem entries_of_scalar : x.entries = [] := by
  obtain ⟨loc, json⟩ := x
  cases json with
  | scalar value => rfl
  | array elems => cases hx
  | object members => cases hx

theorem performStep_of_scalar (segment : PathSegment) : performStep segment x = [] := by
  obtain ⟨loc, json⟩ := x
  cases json with
  | scalar value => cases segment <;> rfl
  | array elems => cases hx
  | object members => cases hx

theorem gather_of_scalar (path : List PathSegment) : gather terminal path x = [] := by
  induction path with
  | nil => rfl
  | cons segment path ih =>
    cases path with
    | nil => rw [gather, hx, if_neg Bool.false_ne_true]
    | cons next path =>
      rw [gather]
      by_cases hdescent : segment = .descent
      · have hchildren : x.children = [] := by rw [Ref.children, entries_of_scalar hx, map_nil]
        subst hdescent
        rw [stepNodes, Ref.preorder_eq, hchildren, flatMap_nil, flatMap_singleton, ih]
      · rw [stepNodes_of_ne hdescent, performStep_of_scalar hx, map_nil, flatMap_nil]

end

/-! ## §2 One node that an item hands out -/

theorem gather_terminal (hidx : idx + 1 = path.length) (hx : x.json.isRecursive = true) :
    gather terminal (path.drop idx) x =
      (path[idx]?.map fun segment => terminal segment x).getD [] := by
  have hlt : idx < path.length := by omega
  rw [drop_eq_getElem_cons hlt, drop_eq_nil_of_le (Nat.le_of_eq hidx.symm), gather, if_pos hx,
    getElem?_eq_getElem hlt]
  rfl

/-- A node that is handed out contributes what is gathered from it. -/
theorem emits_visit (item : Item σ)
    (hround : round path terminal item = visit path terminal c segId item')
    (hseg : segId < path.length) (hchild : segId + 1 < path.length →
      Emits (round path terminal) (.new c segId) (gather terminal (path.drop segId) c))
    (hrest : Emits (round path terminal) item' rest) :
    Emits (round path terminal) item (gather terminal (path.drop segId) c ++ rest) := by
  rw [visit] at hround
  by_cases hrec : c.json.isRecursive = true
  · rw [if_pos hrec] at hround
    by_cases hlast : segId + 1 < path.length
    · rw [if_pos hlast] at hround
      exact .push hround (hchild hlast) hrest
    · rw [if_neg hlast] at hround
      rw [gather_terminal (by omega) hrec]
      exact .emit hround hrest
  · rw [if_neg hrec] at hround
    rw [gather_of_scalar (Bool.eq_false_iff.mpr hrec)]
    exact .emit hround hrest

theorem round_of_advance (item : Item σ) (hseg : path[item.segmentIdx]? = some segment)
    (hadv : item.advance segment = (.ok (some (c, segId)), item')) :
    round path terminal item = visit path terminal c segId item' := by
  rw [round, hseg]
  simp only [hadv]

theorem round_of_exhausted (item : Item σ) (hseg : path[item.segmentIdx]? = some segment)
    (hadv : item.advance segment = (.ok none, item')) : round path terminal item = .pop [] := by
  rw [round, hseg]
  simp only [hadv]

theorem round_of_error (item : Item σ) {status : MatchStatus}
    (hseg : path[item.segmentIdx]? = some segment)
    (hadv : item.advance segment = (.error status, item')) :
      round path terminal item = .pop [] := by
  rw [round, hseg]
  simp only [hadv]

/-! ## §3 The iterators -/

variable {step i : ℕ}

theorem next_eq {state : IterState} : Item.next ⟨x, idx, step, state⟩ i =
      .ok (x.entries[i]?.map fun entry => (entry.2, idx + step)) := rfl

theorem advance_members {it : ℕ} : advance segment ⟨x, idx, step, .members it⟩ =
      if segment.shouldIterateAll then
        (Item.next ⟨x, idx, step, .members it⟩ (it + 1), ⟨x, idx, step, .members (it + 1)⟩)
      else (.ok none, ⟨x, idx, step, .members it⟩) := rfl

theorem advance_elements {it last : ℕ} : advance segment ⟨x, idx, step, .elements it last⟩ =
      if it = last then (.ok none, ⟨x, idx, step, .elements it last⟩)
      else (Item.next ⟨x, idx, step, .elements it last⟩ (it + 1),
        ⟨x, idx, step, .elements (it + 1) last⟩) := rfl

/-- Every child, at the segment an iterating item hands it out for, emits what is gathered from
it. -/
def ChildrenEmit (path : List PathSegment) (terminal : PathSegment → Ref σ → List ω) (x : Ref σ)
    (segId : ℕ) : Prop :=
  ∀ c ∈ x.children, segId + 1 < path.length →
    Emits (round path terminal) (.new c segId) (gather terminal (path.drop segId) c)

theorem children_drop {entry : Hit σ} (hentry : x.entries[i]? = some entry) :
    x.children.drop i = entry.2 :: x.children.drop (i + 1) := by
  obtain ⟨hi, rfl⟩ := List.getElem?_eq_some_iff.mp hentry
  have hi' : i < x.children.length := by rwa [Ref.children, List.length_map]
  rw [List.drop_eq_getElem_cons hi']
  simp only [Ref.children, List.getElem_map]

theorem children_drop_of_none (hnone : x.entries[i]? = none) : x.children.drop i = [] := by
  apply drop_eq_nil_of_le
  rw [Ref.children, length_map]
  exact getElem?_eq_none_iff.mp hnone

theorem mem_children {entry : Hit σ} (hentry : x.entries[i]? = some entry) : entry.2 ∈ x.children :=
  mem_map_of_mem (mem_of_getElem? hentry)

theorem filterMap_range'_getElem? {α : Type} (l : List α) (a : ℕ) :
    ((List.range' a (l.length - a)).filterMap fun i => l[i]?) = l.drop a := by
  induction hleft : l.length - a generalizing a with
  | zero => rw [range'_zero, filterMap_nil, drop_eq_nil_of_le (by omega)]
  | succ left ih =>
    have ha : a < l.length := by omega
    rw [range'_succ, filterMap_cons_some (getElem?_eq_getElem ha), ih (a + 1) (by omega),
      drop_eq_getElem_cons ha]

section

variable (hseg : path[idx]? = some segment) (hstep : idx + step < path.length)
  (hchildren : ChildrenEmit path terminal x (idx + step))
include hseg hstep hchildren

theorem emits_members (hall : segment.shouldIterateAll = true) (it : ℕ) :
    Emits (round path terminal) ⟨x, idx, step, .members it⟩
      ((x.children.drop (it + 1)).flatMap (gather terminal (path.drop (idx + step)))) := by
  cases hentry : x.entries[it + 1]? with
  | none =>
    rw [children_drop_of_none hentry, flatMap_nil]
    apply Emits.pop
    apply round_of_exhausted ⟨x, idx, step, .members it⟩ hseg
    rw [advance_members, if_pos hall, next_eq, hentry]
    rfl
  | some entry =>
    have hrest := emits_members hall (it + 1)
    rw [children_drop hentry, flatMap_cons]
    apply emits_visit ⟨x, idx, step, .members it⟩ _ hstep
      (hchildren entry.2 (mem_children hentry)) hrest
    apply round_of_advance _ hseg
    rw [advance_members, if_pos hall, next_eq, hentry]
    rfl
termination_by x.entries.length - it
decreasing_by
  have := (List.getElem?_eq_some_iff.mp hentry).1
  omega

/-- The iterators over the elements; `last` is the last one visited. -/
theorem emits_elements {it last : ℕ} (hle : it ≤ last) (hlast : last < x.entries.length) :
    Emits (round path terminal) ⟨x, idx, step, .elements it last⟩
      (((List.range' (it + 1) (last - it)).filterMap fun i => x.entries[i]?).flatMap
        fun entry => gather terminal (path.drop (idx + step)) entry.2) := by
  by_cases hend : it = last
  · subst hend
    rw [Nat.sub_self, range'_zero, filterMap_nil, flatMap_nil]
    apply Emits.pop
    apply round_of_exhausted ⟨x, idx, step, .elements it it⟩ hseg
    rw [advance_elements, if_pos rfl]
  · have hlt : it + 1 < x.entries.length := by omega
    have hentry := getElem?_eq_getElem hlt
    have hrest := emits_elements (Nat.succ_le_of_lt (Nat.lt_of_le_of_ne hle hend)) hlast
    have hcount : last - it = (last - (it + 1)) + 1 := by omega
    rw [hcount, range'_succ, filterMap_cons_some hentry, flatMap_cons]
    apply emits_visit ⟨x, idx, step, .elements it last⟩ _ hstep
      (hchildren _ (mem_children hentry)) hrest
    apply round_of_advance _ hseg
    rw [advance_elements, if_neg hend, next_eq, hentry]
    rfl
termination_by last - it

/-- All children, for a wildcard or for a descent that has handed out its own node. -/
theorem emits_initAll (hall : segment.shouldIterateAll = true)
    (hadv : advance segment ⟨x, idx, step, .none⟩ = initAll ⟨x, idx, step, .none⟩) :
    Emits (round path terminal) ⟨x, idx, step, .none⟩
      (x.children.flatMap (gather terminal (path.drop (idx + step)))) := by
  cases hentry : x.entries[0]? with
  | none =>
    have hnil : x.entries = [] :=
      length_eq_zero_iff.mp (Nat.le_zero.mp (getElem?_eq_none_iff.mp hentry))
    rw [Ref.children, hnil, map_nil, flatMap_nil]
    apply Emits.pop
    rw [initAll] at hadv
    split at hadv
    case isTrue => exact round_of_exhausted _ hseg hadv
    case isFalse =>
      split at hadv
      case isTrue => exact round_of_exhausted _ hseg hadv
      case isFalse => exact round_of_error _ hseg hadv
  | some entry =>
    have hne : x.entries ≠ [] := by
      intro hnil
      rw [hnil] at hentry
      cases hentry
    have hnext : Item.next ⟨x, idx, step, .none⟩ 0 = .ok (some (entry.2, idx + step)) := by
      rw [next_eq, hentry]
      rfl
    have hchild := hchildren entry.2 (mem_children hentry)
    have hdrop := children_drop hentry
    rw [drop_zero] at hdrop
    rw [hdrop, flatMap_cons]
    rw [initAll] at hadv
    simp only [if_neg hne, hnext] at hadv
    split at hadv
    case isTrue =>
      exact emits_visit _ (round_of_advance _ hseg hadv) hstep hchild
        (emits_members hseg hstep hchildren hall 0)
    case isFalse hobject =>
      split at hadv
      case isTrue =>
        have hpos : 0 < x.entries.length := length_pos_iff.mpr hne
        have hrest :=
          emits_elements hseg hstep hchildren (Nat.zero_le (x.entries.length - 1)) (by omega)
        have hlist : (((range' (0 + 1) (x.entries.length - 1 - 0)).filterMap
            fun i => x.entries[i]?).flatMap fun entry =>
              gather terminal (path.drop (idx + step)) entry.2) =
            (x.children.drop (0 + 1)).flatMap (gather terminal (path.drop (idx + step))) := by
          rw [Nat.zero_add, Nat.sub_zero, filterMap_range'_getElem?, Ref.children, ← map_drop,
            flatMap_map]
        rw [hlist] at hrest
        exact emits_visit _ (round_of_advance _ hseg hadv) hstep hchild hrest
      case isFalse harray =>
        -- a scalar has no children
        exfalso
        apply hne
        apply entries_of_scalar
        cases hx : x.json with
        | scalar value => rfl
        | array elems => exact absurd (by rw [hx]; rfl) harray
        | object members => exact absurd (by rw [hx]; rfl) hobject

end

/-! ## §4 Items -/

variable {name : String}

theorem advance_found (idx : ℕ) (hobject : x.json.isObject = true) (hfind : x.find name = some i) :
    advance (.identifier name) (.new x idx) =
      (.ok (x.entries[i]?.map fun entry => (entry.2, idx + 1)), ⟨x, idx, 1, .members i⟩) := by
  change init (.identifier name) (.new x idx) = _
  simp only [init, new, if_pos hobject, hfind]

theorem advance_not_found (hobject : x.json.isObject = true) (hfind : x.find name = none) :
    advance (.identifier name) (.new x idx) = (.ok none, .new x idx) := by
  change init (.identifier name) (.new x idx) = _
  simp only [init, new, if_pos hobject, hfind]

theorem emits_identifier (hseg : path[idx]? = some (.identifier name))
    (hstep : idx + 1 < path.length) (hchildren : ChildrenEmit path terminal x (idx + 1)) :
    Emits (round path terminal) (.new x idx)
      (((performStep (.identifier name) x).map Prod.snd).flatMap
        (gather terminal (path.drop (idx + 1)))) := by
  rw [performStep]
  by_cases hobject : x.json.isObject = true
  · cases hfind : x.find name with
    | none => exact .pop (round_of_exhausted (.new x idx) hseg (advance_not_found hobject hfind))
    | some i =>
      have hadv := advance_found idx hobject hfind
      cases hentry : x.entries[i]? with
      | none =>
        rw [hentry] at hadv
        rw [Option.bind_some, hentry]
        exact .pop (round_of_exhausted (.new x idx) hseg hadv)
      | some entry =>
        rw [hentry] at hadv
        rw [Option.bind_some, hentry]
        -- an iterator for a name is exhausted after its one member
        have hdone : Emits (round path terminal) ⟨x, idx, 1, .members i⟩ [] :=
          .pop (round_of_exhausted ⟨x, idx, 1, .members i⟩ hseg rfl)
        exact emits_visit _ (round_of_advance (.new x idx) hseg hadv) hstep
          (hchildren _ (mem_children hentry)) hdone
  · have hfind : x.find name = none := if_neg hobject
    rw [hfind]
    exact .pop (round_of_error (.new x idx) hseg (if_neg hobject))

/-- Where the ends of a normalised index expression lie: it selects positions of the array. -/
def IndexExpr.Within (e : IndexExpr) (n : ℕ) : Prop :=
  0 ≤ (e.normalize n).first ∧
    ((e.normalize n).first ≤ (e.normalize n).second → (e.normalize n).second < n)

variable {expr : IndexExpr}

theorem advance_index (idx : ℕ) (harray : x.json.isArray = true)
    (hempty : (expr.normalize x.entries.length).isEmpty = false) :
    advance (.index expr) (.new x idx) =
      (Item.next (.new x idx) (expr.normalize x.entries.length).first.toNat,
        ⟨x, idx, 1, .elements (expr.normalize x.entries.length).first.toNat
          (expr.normalize x.entries.length).second.toNat⟩) := by
  change (if x.json.isArray then _ else _) = _
  rw [if_pos harray]
  change (if (expr.normalize x.entries.length).isEmpty then _ else _) = _
  rw [hempty]
  rfl

theorem advance_index_empty (idx : ℕ) (harray : x.json.isArray = true)
    (hempty : (expr.normalize x.entries.length).isEmpty = true) :
    advance (.index expr) (.new x idx) = (.error .outOfBounds, .new x idx) := by
  change (if x.json.isArray then _ else _) = _
  rw [if_pos harray]
  change (if (expr.normalize x.entries.length).isEmpty then _ else _) = _
  rw [if_pos hempty]

theorem emits_index (hseg : path[idx]? = some (.index expr))
    (hstep : idx + 1 < path.length) (hchildren : ChildrenEmit path terminal x (idx + 1))
    (hwithin : x.json.isArray = true → expr.Within x.entries.length) :
    Emits (round path terminal) (.new x idx)
      (((performStep (.index expr) x).map Prod.snd).flatMap
        (gather terminal (path.drop (idx + 1)))) := by
  rw [performStep]
  by_cases harray : x.json.isArray = true
  · rw [if_pos harray, Ref.elements]
    obtain ⟨hfirst, hsecond⟩ := hwithin harray
    have hadvance := @advance_index _ x expr idx harray
    have hadvanceEmpty := @advance_index_empty _ x expr idx harray
    generalize expr.normalize x.entries.length = e at hfirst hsecond hadvance hadvanceEmpty ⊢
    obtain ⟨first, second⟩ := e
    dsimp only at hfirst hsecond hadvance ⊢
    cases hempty : (IndexExpr.mk first second).isEmpty with
    | true =>
      have hlt : second < first := of_decide_eq_true hempty
      have hcount : (second + 1 - first).toNat = 0 := by omega
      rw [hcount]
      exact .pop (round_of_error (.new x idx) hseg (hadvanceEmpty hempty))
    | false =>
      have hle : first ≤ second := Int.not_lt.mp (of_decide_eq_false hempty)
      have hcount : (second + 1 - first).toNat = (second.toNat - first.toNat) + 1 := by omega
      have hentry := getElem?_eq_getElem (show first.toNat < x.entries.length by omega)
      have hadv := hadvance hempty
      have hnext : Item.next (.new x idx) first.toNat =
        .ok (some (x.entries[first.toNat].2, idx + 1)) := by
        change Except.ok (Option.map _ (x.entries[first.toNat]?)) = _
        rw [hentry]
        rfl
      rw [hnext] at hadv
      rw [hcount, range'_succ, filterMap_cons_some hentry, map_cons, flatMap_cons, flatMap_map]
      exact emits_visit _ (round_of_advance (.new x idx) hseg hadv) hstep
        (hchildren _ (mem_children hentry))
        (emits_elements hseg hstep hchildren (by omega) (by omega))
  · rw [if_neg harray]
    exact .pop (round_of_error (.new x idx) hseg (if_neg harray))

/-- What the items of a document need: `int` can count the elements of every array. -/
def Ref.Fits (x : Ref σ) : Prop :=
  ∀ y ∈ x.preorder, y.json.isArray = true → y.entries.length ≤ 2 ^ 31 - 1

theorem Ref.mem_preorder_self (x : Ref σ) : x ∈ x.preorder := by
  rw [preorder_eq]
  exact mem_cons_self

theorem Ref.mem_preorder_of_child {c y : Ref σ} (hc : c ∈ x.children) (hy : y ∈ c.preorder) :
    y ∈ x.preorder := by
  rw [preorder_eq]
  exact mem_cons_of_mem _ (mem_flatMap.mpr ⟨c, hc, hy⟩)

theorem Ref.Fits.length_le (h : x.Fits) (harray : x.json.isArray = true) :
    x.entries.length ≤ 2 ^ 31 - 1 :=
  h x x.mem_preorder_self harray

theorem Ref.Fits.child (h : x.Fits) (hc : c ∈ x.children) : c.Fits :=
  fun y hy => h y (mem_preorder_of_child hc hy)

theorem toInt_of_le {n : ℤ} (hnonneg : 0 ≤ n) (h : n ≤ 2 ^ 31 - 1) : toInt n = n := by
  apply Int.bmod_eq_of_le <;> omega

theorem IndexExpr.normalize_eq (e : IndexExpr) {n : ℕ} (hpos : 0 < n) (hn : n ≤ 2 ^ 31 - 1) :
    e.normalize n =
      ⟨if e.first < 0 then max 0 (n + e.first) else e.first,
        if n ≤ e.second then n - 1 else if e.second < 0 then max 0 (n + e.second)
          else e.second⟩ := by
  have hwrap : ∀ i : ℤ, i < 0 → wrap n i = max 0 (n + i) := by
    intro i hi
    rw [wrap]
    split
    case isTrue h => rw [Int.max_eq_left (by omega)]; rfl
    case isFalse h => rw [Int.max_eq_right (by omega), toInt_of_le (by omega) (by omega)]; omega
  rw [normalize, if_neg (Nat.ne_of_gt hpos), toInt_of_le (by omega) (by omega),
    toInt_of_le (n := (n : ℤ) - 1) (by omega) (by omega)]
  simp only [mk.injEq]
  refine ⟨?_, ?_⟩
  · split
    case isTrue h => exact hwrap _ h
    case isFalse => rfl
  · split
    case isTrue => rfl
    case isFalse =>
      split
      case isTrue h => exact hwrap _ h
      case isFalse => rfl

theorem IndexExpr.within (e : IndexExpr) {n : ℕ} (hn : n ≤ 2 ^ 31 - 1) : e.Within n := by
  rcases Nat.eq_zero_or_pos n with rfl | hpos
  · exact ⟨Int.one_nonneg, fun h => absurd (show (1 : ℤ) ≤ 0 from h) (by decide)⟩
  · rw [Within, normalize_eq e hpos hn]
    dsimp only
    constructor
    · split <;> omega
    · split
      case isTrue => omega
      case isFalse => split <;> omega

/-- **An item is worth what the recursion collects**: the segments from its own on, from its
node. -/
theorem emits_new (path : List PathSegment) (terminal : PathSegment → Ref σ → List ω)
    (idx : ℕ) (x : Ref σ) (hidx : idx + 1 < path.length) (hfits : x.Fits) :
    Emits (round path terminal) (.new x idx) (gather terminal (path.drop idx) x) := by
  -- outer induction along the path, inner one down the document, which only a descent needs
  induction hleft : path.length - idx using Nat.strong_induction_on generalizing idx x with
  | _ left ih =>
    induction x using Ref.induction with
    | h x ihx =>
      have hseg : path[idx]? = some (path[idx]) := getElem?_eq_getElem (by omega)
      have hdrop : path.drop idx = path[idx] :: path[idx + 1] :: path.drop (idx + 2) := by
        simp
      have hdrop' : path.drop (idx + 1) = path[idx + 1] :: path.drop (idx + 2) :=
        drop_eq_getElem_cons (by omega)
      have hnext : ∀ y : Ref σ, y.Fits → idx + 1 + 1 < path.length →
          Emits (round path terminal) (.new y (idx + 1))
            (gather terminal (path.drop (idx + 1)) y) :=
        fun y hy hlt => ih (path.length - (idx + 1)) (by omega) (idx + 1) y hlt hy rfl
      have hchildren : ChildrenEmit path terminal x (idx + 1) :=
        fun c hc => hnext c (hfits.child hc)
      rw [hdrop, gather, ← hdrop']
      generalize path[idx] = segment at hseg hdrop ⊢
      cases segment with
      | identifier name => exact emits_identifier hseg hidx hchildren
      | index expr =>
        exact emits_index hseg hidx hchildren fun harray => expr.within (hfits.length_le harray)
      | wildcard =>
        exact emits_initAll hseg hidx hchildren rfl rfl
      | descent =>
        have hself : ∀ c ∈ x.children, gather terminal (path.drop idx) c =
            c.preorder.flatMap (gather terminal (path.drop (idx + 1))) := by
          intro c _
          rw [hdrop, gather, ← hdrop']
          rfl
        have hbelow : ChildrenEmit path terminal x (idx + 0) :=
          fun c hc _ => ihx c hc (hfits.child hc)
        have hrest : Emits (round path terminal) ⟨x, idx, 0, .none⟩ _ :=
          emits_initAll hseg (by omega) hbelow rfl rfl
        rw [Nat.add_zero, flatMap_congr hself] at hrest
        rw [stepNodes, Ref.preorder_eq, flatMap_cons, flatMap_assoc]
        exact emits_visit _ (round_of_advance (.new x idx) hseg rfl) hidx (hnext x hfits) hrest

/-! ## §5 The loop -/

theorem gather_singleton (segment : PathSegment) (x : Ref σ) :
    gather performStep [segment] x = performStep segment x := by
  rw [gather]
  split
  case isTrue => rfl
  case isFalse hscalar => rw [performStep_of_scalar (Bool.eq_false_iff.mpr hscalar)]

/-- **`Traverse` stops**, having called back on what the recursion collects. -/
theorem traverse_spec (root : Ref σ) (hpath : path ≠ []) (hfits : root.Fits) :
    ∃ rounds, ∀ fuel, rounds ≤ fuel →
      traverse fuel path root = some (gather performStep path root) := by
  match path, hpath with
  | [segment], _ =>
    refine ⟨0, fun fuel _ => ?_⟩
    rw [gather_singleton]
    rfl
  | segment :: next :: path, _ =>
    have hlt : 0 + 1 < (segment :: next :: path).length := by
      rw [length_cons, length_cons]
      omega
    exact loop_eq_of_emits (emits_new (segment :: next :: path) performStep 0 root hlt hfits)

end Drakeydb.Json
