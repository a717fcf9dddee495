import Mathlib.Data.List.Basic
import Mathlib.Algebra.Ring.Int.Defs
import Mathlib.Algebra.Ring.Nat
import Drakeydb.Lib.DepthFirst

/-!
# JSON documents, paths and the traversal

A document in the `jsoncons` representation, as far as a path can tell: scalars, arrays and objects.
A node is a subtree together with the place where it stands, so that two nodes with the same value
are still two nodes; it is what a `JsonType*` into the document points to. The place is a location,
the list of child numbers on the way from the root. Replacing the value at a location leaves every
node that is not at or below it as it was, apart from the values of its children.

The segments of a path (`core/json/path.{h,cc}`) and the grammar that builds them
(`jsonpath_grammar.y`). An index expression is kept as a closed interval of `int`s. The lexer takes
indexes of at most nine digits, so the arithmetic on them does not overflow; the length of an array
is converted to `int`. Functions such as `max($.a)` are left out.

`Dfs::Traverse` of `core/json/detail/jsoncons_dfs.{h,cc}`: a stack of items, each with a node, the
number of the path segment it applies to the node, and an iterator over the children that is set up
at the first call. An item for a descent first hands out its own node for the next segment and only
then its children for the same one.
-/

set_option linter.dupNamespace false

namespace Drakeydb.Json

open List

/-- A JSON value; `σ` are the strings, numbers, booleans and null. -/
inductive Json (σ : Type) where
  | scalar (value : σ)
  | array (elems : List (Json σ))
  | object (members : List (String × Json σ))

variable {σ : Type}

namespace Json

/-- The children with their keys; the elements of an array have none. -/
def entries : Json σ → List (Option String × Json σ)
  | scalar _ => []
  | array elems => elems.map fun x => (none, x)
  | object members => members.map fun m => (some m.1, m.2)

def isRecursive : Json σ → Bool
  | scalar _ => false
  | _ => true

def isObject : Json σ → Bool
  | object _ => true
  | _ => false

def isArray : Json σ → Bool
  | array _ => true
  | _ => false

theorem sizeOf_lt_of_mem_entries {x : Json σ} {entry : Option String × Json σ}
    (h : entry ∈ x.entries) : sizeOf entry.2 < sizeOf x := by
  cases x with
  | scalar value => cases h
  | array elems =>
    obtain ⟨y, hy, rfl⟩ := mem_map.mp h
    have := sizeOf_lt_of_mem hy
    simp only [array.sizeOf_spec]
    omega
  | object members =>
    obtain ⟨m, hm, rfl⟩ := mem_map.mp h
    have := sizeOf_lt_of_mem hm
    have hpair : sizeOf m.2 < sizeOf m := by
      cases m
      simp only [Prod.mk.sizeOf_spec]
      omega
    simp only [object.sizeOf_spec]
    omega

end Json

/-- A node: where it stands, as the child numbers from the root, and its value. -/
structure Ref (σ : Type) where
  loc : List ℕ
  json : Json σ

/-- What a callback receives: the key of a member, and the node. -/
abbrev Hit (σ : Type) := Option String × Ref σ

namespace Ref

/-- The children of a node with their keys. -/
def entries (x : Ref σ) : List (Hit σ) :=
  x.json.entries.mapIdx fun i entry => (entry.1, ⟨x.loc ++ [i], entry.2⟩)

def children (x : Ref σ) : List (Ref σ) := x.entries.map Prod.snd

theorem sizeOf_lt_of_mem_children {x c : Ref σ} (h : c ∈ x.children) :
    sizeOf c.json < sizeOf x.json := by
  obtain ⟨hit, hhit, rfl⟩ := mem_map.mp h
  obtain ⟨i, hi, rfl⟩ := mem_mapIdx.mp hhit
  exact Json.sizeOf_lt_of_mem_entries (getElem_mem hi)

/-- A node and all nodes below it: the node first, then child by child. -/
def preorder (x : Ref σ) : List (Ref σ) :=
  x :: x.children.attach.flatMap fun c => preorder c.1
termination_by sizeOf x.json
decreasing_by exact sizeOf_lt_of_mem_children c.2

theorem preorder_eq (x : Ref σ) : x.preorder = x :: x.children.flatMap preorder := by
  rw [preorder]
  congr 1
  conv_rhs => rw [← attach_map_subtype_val x.children, flatMap_map]

theorem induction {P : Ref σ → Prop} (h : ∀ x, (∀ c ∈ x.children, P c) → P x) (x : Ref σ) : P x :=
  h x fun c _ => induction h c
termination_by sizeOf x.json
decreasing_by exact sizeOf_lt_of_mem_children ‹_›

end Ref

/-- What a node is, without its children: a scalar, the length of an array, the keys of an
object. -/
inductive Head (σ : Type) where
  | scalar (value : σ)
  | array (length : ℕ)
  | object (keys : List String)

variable {loc : List ℕ}

namespace Json

/-- The node without its children. -/
def head : Json σ → Head σ
  | scalar value => .scalar value
  | array elems => .array elems.length
  | object members => .object (members.map Prod.fst)

/-- The node at a location. -/
def valueAt (x : Json σ) : List ℕ → Option (Json σ)
  | [] => some x
  | i :: loc => x.entries[i]?.bind fun entry => entry.2.valueAt loc

/-- Another value for one child; the key of a member stays. -/
def setChild (x : Json σ) (i : ℕ) (v : Json σ) : Json σ :=
  match x with
  | scalar value => scalar value
  | array elems => array (elems.set i v)
  | object members => object (members.modify i fun member => (member.1, v))

/-- Another value at a location; nothing happens if there is no such node. -/
def put (x : Json σ) : List ℕ → Json σ → Json σ
  | [], v => v
  | i :: loc, v =>
    match x.entries[i]? with
    | some entry => x.setChild i (entry.2.put loc v)
    | none => x

variable (x : Json σ)

theorem valueAt_append (loc loc' : List ℕ) :
    x.valueAt (loc ++ loc') = (x.valueAt loc).bind fun y => y.valueAt loc' := by
  induction loc generalizing x with
  | nil => rfl
  | cons i loc ih =>
    rw [cons_append, valueAt, valueAt]
    cases x.entries[i]? with
    | none => rfl
    | some entry => exact ih entry.2

theorem valueAt_child (i : ℕ) : x.valueAt [i] = x.entries[i]?.map Prod.snd := by
  rw [valueAt]
  cases x.entries[i]? <;> rfl

theorem head_setChild (i : ℕ) (v : Json σ) : (x.setChild i v).head = x.head := by
  cases x with
  | scalar value => rfl
  | array elems => simp [setChild, head, head]
  | object members =>
    rw [setChild, head, head]
    congr 1
    apply ext_getElem?
    intro j
    rw [getElem?_map, getElem?_map, getElem?_modify]
    cases members[j]? with
    | none => rfl
    | some member =>
      split <;> rfl

theorem entries_setChild (i j : ℕ) (v : Json σ) :
    (x.setChild i v).entries[j]? =
      x.entries[j]?.map fun entry => if i = j then (entry.1, v) else entry := by
  cases x with
  | scalar value => rfl
  | array elems =>
    rw [setChild, entries, entries, getElem?_map, getElem?_map, getElem?_set]
    by_cases h : i = j
    · subst h
      rw [if_pos rfl]
      cases helem : elems[i]? with
      | none => rw [if_neg (Nat.not_lt.mpr (getElem?_eq_none_iff.mp helem))]; rfl
      | some elem => rw [if_pos (List.getElem?_eq_some_iff.mp helem).1]; simp
    · rw [if_neg h]
      cases elems[j]? with
      | none => rfl
      | some elem => simp [h]
  | object members =>
    rw [setChild, entries, entries, getElem?_map, getElem?_map, getElem?_modify]
    cases members[j]? with
    | none => rfl
    | some member =>
      split <;> rfl

/-- **Replacing a node keeps what is outside.** -/
theorem head_put (x v : Json σ) (loc loc' : List ℕ) (hout : ¬ loc <+: loc') :
    ((x.put loc v).valueAt loc').map head = (x.valueAt loc').map head := by
  induction loc generalizing x loc' with
  | nil => exact absurd ( nil_prefix) hout
  | cons i loc ih =>
    rw [put]
    cases hentry : x.entries[i]? with
    | none => rfl
    | some entry =>
      cases loc' with
      | nil => exact congrArg some (head_setChild _ _ _)
      | cons j loc' =>
        rw [valueAt, valueAt]
        simp only [entries_setChild]
        by_cases hij : i = j
        · subst hij
          have hout' : ¬ loc <+: loc' := fun h => hout ((prefix_cons_inj i).mpr h)
          rw [hentry, Option.map_some, if_pos rfl]
          exact ih entry.2 loc' hout'
        · cases x.entries[j]? with
          | none => rfl
          | some other => simp [if_neg hij]

/-- The new value stands where the old one stood. -/
theorem valueAt_put_self (x v : Json σ) {old : Json σ} (hold : x.valueAt loc = some old) :
    (x.put loc v).valueAt loc = some v := by
  induction loc generalizing x with
  | nil => rfl
  | cons i loc ih =>
    obtain ⟨entry, hentry, hvalue⟩ := Option.bind_eq_some_iff.mp hold
    rw [put, hentry]
    simp only [valueAt, entries_setChild, hentry, Option.map_some, if_true, Option.bind_some]
    exact ih entry.2 hvalue

end Json

/-! ## Places -/

/-- The key under which a node stands, and its location. -/
def place (hit : Hit σ) : Option String × List ℕ := (hit.1, hit.2.loc)

variable {x y : Json σ}

section

variable (h : x.head = y.head)
include h

theorem keys_eq_of_head : x.entries.map Prod.fst = y.entries.map Prod.fst := by
  cases x with
  | scalar value =>
    cases y with
    | scalar value' => rfl
    | array elems => cases h
    | object members => cases h
  | array elems =>
    cases y with
    | scalar value => cases h
    | array elems' =>
      simp only [Json.entries, map_map]
      have hlen : elems.length = elems'.length := Head.array.inj h
      change elems.map (fun _ => none) = elems'.map fun _ => none
      rw [map_const', map_const', hlen]
    | object members => cases h
  | object members =>
    cases y with
    | scalar value => cases h
    | array elems => cases h
    | object members' =>
      have hkeys : members.map Prod.fst = members'.map Prod.fst := Head.object.inj h
      have hsome := congrArg (map some) hkeys
      rw [map_map, map_map] at hsome
      simp only [Json.entries, map_map]
      exact hsome

theorem places_eq_of_head :
    (Ref.mk loc x).entries.map place = (Ref.mk loc y).entries.map place := by
  have hplace : ∀ (z : Json σ) (i : ℕ), ((Ref.mk loc z).entries.map place)[i]? =
      (z.entries.map Prod.fst)[i]?.map fun key => (key, loc ++ [i]) := by
    intro z i
    rw [getElem?_map, getElem?_map, Ref.entries, getElem?_mapIdx]
    cases z.entries[i]? <;> rfl
  apply ext_getElem?
  intro i
  rw [hplace, hplace, keys_eq_of_head h]

theorem isObject_eq_of_head : x.isObject = y.isObject := by
  cases x <;> cases y <;> first | rfl | cases h

theorem isArray_eq_of_head : x.isArray = y.isArray := by
  cases x <;> cases y <;> first | rfl | cases h

end

def intMax : ℤ := 2 ^ 31 - 1

/-- A conversion to `int`. -/
def toInt (n : ℤ) : ℤ := Int.bmod n (2 ^ 32)

/-- `IndexExpr`: both ends belong to the range. -/
structure IndexExpr where
  first : ℤ
  second : ℤ
  deriving DecidableEq

namespace IndexExpr

/-- `Empty`. -/
def isEmpty (e : IndexExpr) : Bool := decide (e.second < e.first)

def all : IndexExpr := ⟨0, intMax⟩

def halfOpen (leftClosed rightOpen : ℤ) : IndexExpr := ⟨leftClosed, rightOpen - 1⟩

/-- The lambda `wrap` of `Normalize`. -/
def wrap (arrayLen : ℕ) (negative : ℤ) : ℤ :=
  let positive := -negative
  toInt (if positive > arrayLen then 0 else arrayLen - positive)

def normalize (e : IndexExpr) (arrayLen : ℕ) : IndexExpr :=
  if arrayLen = 0 then ⟨1, 0⟩
  else
    let second :=
      if toInt arrayLen ≤ e.second then toInt (arrayLen - 1)
      else if e.second < 0 then wrap arrayLen e.second
      else e.second
    ⟨if e.first < 0 then wrap arrayLen e.first else e.first, second⟩

end IndexExpr

inductive PathSegment where
  | identifier (name : String)
  | index (expr : IndexExpr)
  | wildcard
  | descent
  deriving DecidableEq

def PathSegment.shouldIterateAll : PathSegment → Bool
  | wildcard => true
  | descent => true
  | _ => false

/-! ## The grammar -/

/-- An index in brackets. -/
inductive Bracket where
  /-- `[*]` -/
  | all
  /-- `[i]` -/
  | single (i : ℤ)
  /-- `[a:b]` -/
  | range (a b : ℤ)
  /-- `[a:]` -/
  | fromOn (a : ℤ)
  /-- `[:b]` -/
  | upTo (b : ℤ)
  deriving DecidableEq

/-- One step of a path as it is written; a quoted name in brackets is an identifier. -/
inductive Step where
  | identifier (name : String)
  | bracket (index : Bracket)
  | wildcard
  | descent
  deriving DecidableEq

/-- The action of `bracket_index`. -/
def Bracket.indexExpr : Bracket → IndexExpr
  | all => .all
  | single i => ⟨i, i⟩
  | range a b => .halfOpen a b
  | fromOn a => ⟨a, intMax⟩
  | upTo b => .halfOpen 0 b

/-- The segment that the grammar adds for a step. -/
def Step.segment : Step → PathSegment
  | identifier name => .identifier name
  | bracket index => .index index.indexExpr
  | wildcard => .wildcard
  | descent => .descent

/-- The paths of `relative_location`: a descent is followed by a step that is none. -/
def Accepted : List Step → Prop
  | [] => True
  | step :: rest => (step = .descent → rest.head?.any (· ≠ .descent) = true) ∧ Accepted rest

instance decidableAccepted : DecidablePred Accepted
  | [] => isTrue trivial
  | step :: rest =>
    have := decidableAccepted rest
    inferInstanceAs (Decidable ((step = .descent → _ = true) ∧ Accepted rest))

open Lib.DepthFirst

/-! ## §1 The last segment -/

/-- `find`: the place of a member. -/
def Ref.find (x : Ref σ) (name : String) : Option ℕ :=
  if x.json.isObject then x.entries.findIdx? fun entry => entry.1 == some name else none

/-- The children of an array at the positions of an index expression. -/
def Ref.elements (x : Ref σ) (expr : IndexExpr) : List (Hit σ) :=
  let index := expr.normalize x.entries.length
  (List.range' index.first.toNat (index.second + 1 - index.first).toNat).filterMap fun i =>
    x.entries[i]?

def performStep (segment : PathSegment) (x : Ref σ) : List (Hit σ) :=
  match segment with
  | .identifier name => ((x.find name).bind fun i => x.entries[i]?).toList
  | .index expr => if x.json.isArray then x.elements expr else []
  | .wildcard => x.entries
  | .descent => x.entries

/-! ## §2 Items -/

/-- `state_`: nothing yet, an iterator over members, or two over elements, the second one the last
    element to visit. -/
inductive IterState where
  | none
  | members (it : ℕ)
  | elements (it last : ℕ)

/-- `JsonconsDfsItem`. -/
structure Item (σ : Type) where
  obj : Ref σ
  segmentIdx : ℕ
  segmentStep : ℕ
  state : IterState

inductive MatchStatus where
  | outOfBounds
  | mismatch

/-- `AdvanceResult`: the next node with its segment, or `none` if the item is exhausted. -/
abbrev AdvanceResult (σ : Type) := Except MatchStatus (Option (Ref σ × ℕ))

namespace Item

def new (obj : Ref σ) (idx : ℕ) : Item σ := ⟨obj, idx, 1, .none⟩

/-- `Next`, for the child with a number. -/
def next (item : Item σ) (i : ℕ) : AdvanceResult σ :=
  .ok (item.obj.entries[i]?.map fun entry => (entry.2, item.segmentIdx + item.segmentStep))

/-- `Init` for a segment that takes all children. -/
def initAll (item : Item σ) : AdvanceResult σ × Item σ :=
  if item.obj.json.isObject then
    if item.obj.entries = [] then (.ok none, item)
    else (item.next 0, { item with state := .members 0 })
  else if item.obj.json.isArray then
    if item.obj.entries = [] then (.ok none, item)
    else (item.next 0, { item with state := .elements 0 (item.obj.entries.length - 1) })
  else (.error .mismatch, item)

def init (segment : PathSegment) (item : Item σ) : AdvanceResult σ × Item σ :=
  match segment with
  | .identifier name =>
    if item.obj.json.isObject then
      match item.obj.find name with
      | some i =>
        (.ok (item.obj.entries[i]?.map fun entry => (entry.2, item.segmentIdx + 1)),
          { item with state := .members i })
      | none => (.ok none, item)
    else (.error .mismatch, item)
  | .index expr =>
    if item.obj.json.isArray then
      let index := expr.normalize item.obj.entries.length
      if index.isEmpty then (.error .outOfBounds, item)
      else (item.next index.first.toNat,
        { item with state := .elements index.first.toNat index.second.toNat })
    else (.error .mismatch, item)
  | .descent =>
    if item.segmentStep = 1 then
      (.ok (some (item.obj, item.segmentIdx + 1)), { item with segmentStep := 0 })
    else item.initAll
  | .wildcard => item.initAll

def advance (segment : PathSegment) (item : Item σ) : AdvanceResult σ × Item σ :=
  match item.state with
  | .none => item.init segment
  | .members it =>
    if segment.shouldIterateAll then (item.next (it + 1), { item with state := .members (it + 1) })
    else (.ok none, item)
  | .elements it last =>
    if it = last then (.ok none, item)
    else (item.next (it + 1), { item with state := .elements (it + 1) last })

end Item

/-! ## §3 The loop -/

/-- What the loop does with a node that an item hands out: `terminal` is called for the last
segment. -/
def visit {ω : Type} (path : List PathSegment) (terminal : PathSegment → Ref σ → List ω)
    (next : Ref σ) (segId : ℕ) (item : Item σ) : Move (Item σ) ω :=
  if next.json.isRecursive then
    if segId + 1 < path.length then .push (.new next segId) item
    else .emit ((path[segId]?.map fun segment => terminal segment next).getD []) item
  else .emit [] item

/-- One round of the loop. -/
def round {ω : Type} (path : List PathSegment) (terminal : PathSegment → Ref σ → List ω)
    (item : Item σ) : Move (Item σ) ω :=
  match path[item.segmentIdx]? with
  | none => .pop []
  | some segment =>
    match item.advance segment with
    | (.ok (some (next, segId)), item) => visit path terminal next segId item
    | _ => .pop []

def traverse (fuel : ℕ) (path : List PathSegment) (root : Ref σ) : Option (List (Hit σ)) :=
  match path with
  | [segment] => some (performStep segment root)
  | _ => loop (round path performStep) fuel [.new root 0] []

def evaluatePath (fuel : ℕ) (path : List PathSegment) (root : Ref σ) : Option (List (Hit σ)) :=
  if path = [] then some [(none, root)] else traverse fuel path root

end Drakeydb.Json
