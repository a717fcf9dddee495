import Drakeydb.Json.Denote
import Drakeydb.Json.Traverse

/-!
# Mutation through a path

`Dfs::Mutate`: the same traversal, but it only collects pointers to the nodes at which the last
segment is to be applied; afterwards the last segment is applied to them one after the other, and
the callback may replace the children it gets. A replaced value stays in its slot, but everything
that stood inside it is destroyed, so a pointer collected before is good as long as no node above it
has been replaced.
-/

namespace Drakeydb.Json

open Lib.DepthFirst List Option

variable {σ : Type}

/-! ## §1 Callbacks -/

/-- What a callback gets. -/
abbrev Argument (σ : Type) := Option String × Json σ

/-- A callback, which knows its earlier arguments; it leaves the node or replaces it. -/
abbrev Callback (σ : Type) := List (Argument σ) → Argument σ → Option (Json σ)

/-- One call: where the node stands, what the callback got and by what it replaced it. -/
structure Call (σ : Type) where
  loc : List ℕ
  arg : Argument σ
  result : Option (Json σ)

/-- The document while it is mutated, with the calls so far. -/
structure Mutation (σ : Type) where
  doc : Json σ
  calls : List (Call σ)

/-- One location lies inside the node at another one. -/
def Inside (outer inner : List ℕ) : Prop := outer <+: inner ∧ outer ≠ inner

instance (outer inner : List ℕ) : Decidable (Inside outer inner) :=
  inferInstanceAs (Decidable (_ ∧ _))

/-- An access to a node that was destroyed. -/
inductive Fault where
  | destroyed
  deriving DecidableEq

namespace Mutation

/-- The nodes that were at a location when the mutation began are gone. -/
def Destroyed (s : Mutation σ) (loc : List ℕ) : Prop :=
  ∃ c ∈ s.calls, c.result.isSome = true ∧ Inside c.loc loc

instance (s : Mutation σ) (loc : List ℕ) : Decidable (s.Destroyed loc) :=
  inferInstanceAs (Decidable (∃ c ∈ s.calls, _))

/-- `cb(key, &value)`. -/
def callAt (cb : Callback σ) (s : Mutation σ) (at_ : Option String × List ℕ) : Mutation σ :=
  match s.doc.valueAt at_.2 with
  | none => s
  | some value =>
    let result := cb (s.calls.map Call.arg) (at_.1, value)
    ⟨(result.map (s.doc.put at_.2)).getD s.doc, s.calls ++ [⟨at_.2, (at_.1, value), result⟩]⟩

/-- `MutateStep`: it goes through the same children as `PerformStep`. -/
def mutateStep (segment : PathSegment) (cb : Callback σ) (s : Mutation σ) (loc : List ℕ) :
    Except Fault (Mutation σ) :=
  if s.Destroyed loc then .error .destroyed
  else
    match s.doc.valueAt loc with
    | none => .error .destroyed
    | some node => .ok (((performStep segment ⟨loc, node⟩).map place).foldl (callAt cb) s)

end Mutation

/-! ## §2 `Mutate` -/

/-- One round of the traversal, with the branch for a node that a failed `Advance` leaves behind. -/
def mutateRound (path : List PathSegment) (item : Item σ) : Move (Item σ) (Ref σ) :=
  match path[item.segmentIdx]? with
  | none => .pop []
  | some segment =>
    match item.advance segment with
    | (.ok (some (next, segId)), item) =>
      if next.json.isRecursive then
        if segId + 1 < path.length then .push (.new next segId) item else .emit [next] item
      else .emit [] item
    | (.ok none, _) => .pop []
    | (.error _, item) =>
      if 0 < item.segmentIdx ∧ path[item.segmentIdx - 1]? = some .descent ∧
        item.segmentStep = 0 then
        if item.segmentIdx + 1 = path.length then .pop [item.obj] else .pop []
      else .pop []

/-- The mutations, after the traversal. -/
def mutateNodes (segment : PathSegment) (cb : Callback σ) (nodes : List (Ref σ)) (s : Mutation σ) :
    Except Fault (Mutation σ) :=
  nodes.foldlM (fun s x => s.mutateStep segment cb x.loc) s

/-- `Dfs::Mutate`; `none` if the rounds do not suffice for the traversal. -/
def mutate (fuel : ℕ) (path : List PathSegment) (cb : Callback σ) (doc : Json σ) :
    Option (Except Fault (Mutation σ)) :=
  match path with
  | [] => none
  | [segment] => some (Mutation.mutateStep segment cb ⟨doc, []⟩ [])
  | segment :: next :: path =>
    (loop (mutateRound (segment :: next :: path)) fuel [.new ⟨[], doc⟩ 0] []).map fun nodes =>
      mutateNodes ((next :: path).getLast (List.cons_ne_nil _ _)) cb nodes ⟨doc, []⟩

def mutatePath (fuel : ℕ) (path : List PathSegment) (cb : Callback σ) (doc : Json σ) :
    Option (Except Fault (Mutation σ)) :=
  if path = [] then some (.ok (Mutation.callAt cb ⟨doc, []⟩ (none, [])))
    else mutate fuel path cb doc

/-! ## §3 The traversal -/

variable (segment : PathSegment) {next : Ref σ} {segId : ℕ}

section Traversal

variable {path : List PathSegment} {item item' child : Item σ}

/-- What every call of `Advance` keeps: the item stays at its segment, and the node it hands out is
for this segment or the next one. -/
structure Steady (item : Item σ) (result : AdvanceResult σ × Item σ) : Prop where
  segmentIdx : result.2.segmentIdx = item.segmentIdx
  segmentStep : result.2.segmentStep ≤ 1
  segId : ∀ c segId, result.1 = .ok (some (c, segId)) → segId ≤ item.segmentIdx + 1

theorem steady_none (hstep : item.segmentStep ≤ 1) : Steady item (.ok none, item) where
  segmentIdx := rfl
  segmentStep := hstep
  segId := fun _ _ h => by cases h

theorem steady_error (hstep : item.segmentStep ≤ 1) (status : MatchStatus) :
    Steady item (.error status, item) where
  segmentIdx := rfl
  segmentStep := hstep
  segId := fun _ _ h => by cases h

theorem steady_entry (item : Item σ) (entry : Option (Hit σ)) {step : ℕ} (hstep : step ≤ 1)
    (hidx : item'.segmentIdx = item.segmentIdx) (hstep' : item'.segmentStep ≤ 1) :
    Steady item (.ok (entry.map fun entry => (entry.2, item.segmentIdx + step)), item') where
  segmentIdx := hidx
  segmentStep := hstep'
  segId := fun c segId h => by
    cases entry with
    | none => cases h
    | some entry =>
      cases h
      exact Nat.add_le_add_left hstep _

section

variable (hstep : item.segmentStep ≤ 1)
include hstep

theorem steady_initAll : Steady item item.initAll := by
  rw [Item.initAll]
  split
  · split
    · exact steady_none hstep
    · exact steady_entry item _ hstep rfl hstep
  · split
    · split
      · exact steady_none hstep
      · exact steady_entry item _ hstep rfl hstep
    · exact steady_error hstep _

theorem steady_init : Steady item (item.init segment) := by
  cases segment with
  | identifier name =>
    rw [Item.init]
    split
    · split
      · exact steady_entry item _ (Nat.le_refl 1) rfl hstep
      · exact steady_none hstep
    · exact steady_error hstep _
  | index expr =>
    simp only [Item.init]
    split
    · split
      · exact steady_error hstep _
      · exact steady_entry item _ hstep rfl hstep
    · exact steady_error hstep _
  | wildcard => exact steady_initAll hstep
  | descent =>
    rw [Item.init]
    split
    · exact steady_entry item (some (none, item.obj)) (Nat.le_refl 1) rfl (Nat.zero_le 1)
    · exact steady_initAll hstep

theorem steady_advance : Steady item (item.advance segment) := by
  rw [Item.advance]
  split
  · exact steady_init segment hstep
  · split
    · exact steady_entry item _ hstep rfl hstep
    · exact steady_none hstep
  · split
    · exact steady_none hstep
    · exact steady_entry item _ hstep rfl hstep

end

/-- Items on the stack are never for the last segment, so a failed `Advance` leaves no node
behind. -/
theorem mutateRound_eq (hidx : item.segmentIdx + 1 < path.length) (hstep : item.segmentStep ≤ 1) :
    mutateRound path item = round path (fun _ x => [x]) item := by
  rw [mutateRound, round, getElem?_eq_getElem (show item.segmentIdx < path.length by omega)]
  have hsteady := steady_advance path[item.segmentIdx] hstep
  dsimp only
  generalize Item.advance path[item.segmentIdx] item = result at hsteady ⊢
  obtain ⟨(status | _ | ⟨next, segId⟩), item'⟩ := result
  · have hlast : ¬ item'.segmentIdx + 1 = path.length := by
      rw [hsteady.segmentIdx]
      omega
    simp only [if_neg hlast, ite_self]
  · rfl
  · have hseg : segId < path.length := Nat.lt_of_le_of_lt (hsteady.segId next segId rfl) hidx
    simp only [visit, getElem?_eq_getElem hseg, map_some, getD_some]

variable {terminal : PathSegment → Ref σ → List (Ref σ)}

theorem round_eq_visit (hstep : item.segmentStep ≤ 1) (h : round path terminal item ≠ .pop []) :
    ∃ next segId item', round path terminal item = visit path terminal next segId item' ∧
      item'.segmentIdx = item.segmentIdx ∧ item'.segmentStep ≤ 1 := by
  rw [round] at h ⊢
  split at h
  · exact absurd rfl h
  · rename_i segment _
    have hsteady := steady_advance segment hstep
    generalize Item.advance segment item = result at hsteady h ⊢
    obtain ⟨(status | _ | ⟨next, segId⟩), item'⟩ := result
    · exact absurd rfl h
    · exact absurd rfl h
    · exact ⟨next, segId, item', rfl, hsteady.segmentIdx, hsteady.segmentStep⟩

theorem visit_emit {new : List (Ref σ)}
    (h : visit path terminal next segId item = .emit new item') :
    item' = item := by
  rw [visit] at h
  split at h
  · split at h
    · cases h
    · cases h
      rfl
  · cases h
    rfl

theorem visit_push (h : visit path terminal next segId item = .push child item') :
    item' = item ∧ child.segmentIdx + 1 < path.length ∧ child.segmentStep ≤ 1 := by
  rw [visit] at h
  split at h
  · split at h
    case isTrue hlt =>
      cases h
      exact ⟨rfl, hlt, Nat.le_refl 1⟩
    case isFalse => cases h
  · cases h

/-- **The traversal of `Mutate`** goes as that of `Traverse`. -/
theorem emits_mutateRound {out : List (Ref σ)} (h : Emits (round path fun _ x => [x]) item out)
    (hidx : item.segmentIdx + 1 < path.length) (hstep : item.segmentStep ≤ 1) :
    Emits (mutateRound path) item out := by
  induction h with
  | pop h => exact .pop ((mutateRound_eq hidx hstep).trans h)
  | emit h hrest ih =>
    obtain ⟨next, segId, item', hvisit, hkeep⟩ :=
      round_eq_visit hstep (fun hpop => by cases h.symm.trans hpop)
    cases visit_emit (hvisit.symm.trans h)
    exact .emit ((mutateRound_eq hidx hstep).trans h) (ih (hkeep.1 ▸ hidx) hkeep.2)
  | push h hchild hrest ihchild ihrest =>
    obtain ⟨next, segId, item', hvisit, hkeep⟩ :=
      round_eq_visit hstep (fun hpop => by cases h.symm.trans hpop)
    obtain ⟨rfl, hpush⟩ := visit_push (hvisit.symm.trans h)
    exact .push ((mutateRound_eq hidx hstep).trans h) (ihchild hpush.1 hpush.2)
      (ihrest (hkeep.1 ▸ hidx) hkeep.2)

end Traversal

/-! ## §4 The children a segment goes through -/

/-- The numbers of the children that `PerformStep` goes through. -/
def stepIndices (segment : PathSegment) (x : Ref σ) : List ℕ :=
  match segment with
  | .identifier name => (x.find name).toList
  | .index expr =>
    if x.json.isArray then
      List.range' (expr.normalize x.entries.length).first.toNat
        ((expr.normalize x.entries.length).second + 1 -
          (expr.normalize x.entries.length).first).toNat
    else []
  | .wildcard => List.range x.entries.length
  | .descent => List.range x.entries.length

theorem filterMap_range_getElem? {α : Type} (l : List α) :
    ((List.range l.length).filterMap fun i => l[i]?) = l := by
  rw [range_eq_range']
  exact filterMap_range'_getElem? l 0

variable (x : Ref σ)

theorem performStep_eq :
    performStep segment x = (stepIndices segment x).filterMap fun i => x.entries[i]? := by
  cases segment with
  | identifier name =>
    rw [performStep, stepIndices]
    cases x.find name with
    | none => rfl
    | some i =>
      rw [bind_some, toList_some]
      cases hentry : x.entries[i]? with
      | none => rw [filterMap_cons_none hentry]; rfl
      | some entry => rw [filterMap_cons_some hentry]; rfl
  | index expr =>
    rw [performStep, stepIndices]
    split <;> rfl
  | wildcard | descent => exact (filterMap_range_getElem? x.entries).symm

theorem length_entries : x.entries.length = x.json.entries.length := length_mapIdx

theorem find_eq (name : String) :
    x.find name = if x.json.isObject then
      (x.json.entries.map Prod.fst).findIdx? fun key => key == some name else none := by
  have hkeys : x.json.entries.map Prod.fst = x.entries.map Prod.fst := by
    apply ext_getElem?
    intro i
    rw [getElem?_map, getElem?_map, Ref.entries, getElem?_mapIdx]
    cases x.json.entries[i]? <;> rfl
  rw [hkeys, findIdx?_map]
  rfl

theorem stepIndices_eq_of_head {x y : Ref σ} (h : x.json.head = y.json.head) :
    stepIndices segment x = stepIndices segment y := by
  have hkeys := keys_eq_of_head h
  have hlen : x.entries.length = y.entries.length := by
    have := congrArg length hkeys
    rw [length_map, length_map] at this
    rw [length_entries, length_entries, this]
  cases segment with
  | identifier name => rw [stepIndices, stepIndices, find_eq, find_eq, hkeys, isObject_eq_of_head h]
  | index expr => rw [stepIndices, stepIndices, hlen, isArray_eq_of_head h]
  | wildcard | descent => rw [stepIndices, stepIndices, hlen]

variable {loc : List ℕ}

theorem places_performStep_of_head {x y : Json σ} (h : x.head = y.head) :
    (performStep segment ⟨loc, x⟩).map place = (performStep segment ⟨loc, y⟩).map place := by
  have hplaces : ∀ z : Json σ, (performStep segment ⟨loc, z⟩).map place =
      (stepIndices segment (Ref.mk loc z)).filterMap fun i =>
        ((Ref.mk loc z).entries.map place)[i]? := by
    intro z
    rw [performStep_eq, map_filterMap]
    simp only [getElem?_map]
  rw [hplaces, hplaces, places_eq_of_head h,
    stepIndices_eq_of_head segment (x := ⟨loc, x⟩) (y := ⟨loc, y⟩) h]

theorem mem_entries_of_performStep {segment : PathSegment} {x : Ref σ} {hit : Hit σ}
    (h : hit ∈ performStep segment x) : hit ∈ x.entries := by
  rw [performStep_eq] at h
  obtain ⟨i, _, hi⟩ := mem_filterMap.mp h
  exact mem_of_getElem? hi

theorem loc_of_mem_entries {x : Ref σ} {hit : Hit σ} (h : hit ∈ x.entries) :
    ∃ i < x.json.entries.length, hit.2.loc = x.loc ++ [i] := by
  obtain ⟨i, hi, rfl⟩ := mem_mapIdx.mp h
  exact ⟨i, hi, rfl⟩

/-! ## §5 The calls for one node -/

/-- Where a call was made. -/
def Call.place (c : Call σ) : Option String × List ℕ := (c.arg.1, c.loc)

/-- A document after some calls. -/
def replay (doc : Json σ) (calls : List (Call σ)) : Json σ :=
  calls.foldl (fun doc c => (c.result.map (doc.put c.loc)).getD doc) doc

variable (doc : Json σ)

theorem head_replay (calls : List (Call σ))
    (h : ∀ c ∈ calls, c.result.isSome = true → ¬ c.loc <+: loc) :
    ((replay doc calls).valueAt loc).map Json.head = (doc.valueAt loc).map Json.head := by
  induction calls generalizing doc with
  | nil => rfl
  | cons c calls ih =>
    have htail := ih ((c.result.map (doc.put c.loc)).getD doc) fun c' hc' =>
      h c' (mem_cons_of_mem c hc')
    refine htail.trans ?_
    cases hresult : c.result with
    | none => rfl
    | some v => exact Json.head_put doc v c.loc loc (h c mem_cons_self (by rw [hresult]; rfl))

theorem replay_of_none {calls : List (Call σ)} (h : ∀ c ∈ calls, c.result = none) :
    replay doc calls = doc := by
  induction calls with
  | nil => rfl
  | cons c calls ih =>
    change replay ((c.result.map (doc.put c.loc)).getD doc) calls = doc
    rw [h c mem_cons_self]
    exact ih fun c' hc' => h c' (mem_cons_of_mem c hc')

/-- From one state to another by calls at some places. -/
structure Extends (cb : Callback σ) (s s' : Mutation σ) (places : List (Option String × List ℕ))
    (new : List (Call σ)) : Prop where
  calls : s'.calls = s.calls ++ new
  doc : s'.doc = replay s.doc new
  places : new.map Call.place = places
  results : ∀ m c, new[m]? = some c →
    ∃ earlier, earlier.length = s.calls.length + m ∧ c.result = cb earlier c.arg

section Calls

variable {cb : Callback σ} {s s' s'' : Mutation σ}

theorem Extends.refl (cb : Callback σ) (s : Mutation σ) : Extends cb s s [] [] where
  calls := (append_nil _).symm
  doc := rfl
  places := rfl
  results := fun m c h => by cases h

theorem Extends.trans {places places' : List (Option String × List ℕ)} {new new' : List (Call σ)}
    (h : Extends cb s s' places new) (h' : Extends cb s' s'' places' new') :
    Extends cb s s'' (places ++ places') (new ++ new') where
  calls := by simp [h'.calls, h.calls]
  doc := by simp [h'.doc, h.doc, replay, replay, replay]
  places := by simp [h.places, h'.places]
  results := fun m c hc => by
    by_cases hm : m < new.length
    · rw [getElem?_append_left hm] at hc
      exact h.results m c hc
    · rw [getElem?_append_right (Nat.le_of_not_lt hm)] at hc
      obtain ⟨earlier, hlen, hresult⟩ := h'.results (m - new.length) c hc
      rw [h.calls, length_append] at hlen
      exact ⟨earlier, by omega, hresult⟩

theorem extends_callAt (cb : Callback σ) {at_ : Option String × List ℕ} {value : Json σ}
    (hvalue : s.doc.valueAt at_.2 = some value) : ∃ c, Extends cb s (s.callAt cb at_)
    [at_] [c] := by
  refine ⟨⟨at_.2, (at_.1, value), cb (s.calls.map Call.arg) (at_.1, value)⟩, ?_⟩
  rw [Mutation.callAt, hvalue]
  refine ⟨rfl, rfl, rfl, fun m c hc => ?_⟩
  cases m with
  | zero =>
    cases hc
    exact ⟨s.calls.map Call.arg, length_map _, rfl⟩
  | succ m => cases hc

variable {node : Json σ}

/-- The calls at some children of one node; the node keeps its head. -/
theorem extends_foldl (cb : Callback σ) (places : List (Option String × List ℕ))
    (hnode : (s.doc.valueAt loc).map Json.head = some node.head)
    (hplaces : ∀ p ∈ places, ∃ i < node.entries.length, p.2 = loc ++ [i]) :
    ∃ new, Extends cb s (places.foldl (Mutation.callAt cb) s) places new := by
  induction places generalizing s with
  | nil => exact ⟨[], .refl cb s⟩
  | cons p places ih =>
    obtain ⟨i, hi, hp⟩ := hplaces p mem_cons_self
    obtain ⟨node', hnode', hhead⟩ := map_eq_some_iff.mp hnode
    have hlen : node'.entries.length = node.entries.length := by
      have := congrArg length (keys_eq_of_head hhead)
      rwa [length_map, length_map] at this
    have hvalue : s.doc.valueAt p.2 = some (node'.entries[i]).2 := by
      rw [hp, Json.valueAt_append, hnode', bind_some, Json.valueAt_child,
        getElem?_eq_getElem (hlen ▸ hi)]
      rfl
    obtain ⟨c, hcall⟩ := extends_callAt cb hvalue
    have hloc : c.loc = loc ++ [i] := by
      have := congrArg Prod.snd (cons.inj hcall.places).1
      exact this.trans hp
    have hkeep : ((s.callAt cb p).doc.valueAt loc).map Json.head = some node.head := by
      rw [hcall.doc, head_replay, hnode]
      intro c' hc' _ hle
      rw [mem_singleton.mp hc', hloc] at hle
      have := hle.length_le
      rw [length_append, length_singleton] at this
      omega
    obtain ⟨new, hrest⟩ := ih hkeep fun p' hp' => hplaces p' (mem_cons_of_mem p hp')
    exact ⟨[c] ++ new, hcall.trans hrest⟩

/-- **The calls made for one node**: one for each child the segment goes through, in this order. -/
theorem Mutation.mutateStep_spec (cb : Callback σ) (hlive : ¬ s.Destroyed loc)
    (hnode : s.doc.valueAt loc = some node) :
    ∃ s' new, s.mutateStep segment cb loc = .ok s' ∧
      Extends cb s s' ((performStep segment ⟨loc, node⟩).map place) new := by
  have hhead : (s.doc.valueAt loc).map Json.head = some node.head := by rw [hnode]; rfl
  obtain ⟨new, hnew⟩ := extends_foldl cb ((performStep segment ⟨loc, node⟩).map place) hhead
    fun p hp => by
      obtain ⟨hit, hhit, rfl⟩ := mem_map.mp hp
      exact loc_of_mem_entries (mem_entries_of_performStep hhit)
  refine ⟨_, new, ?_, hnew⟩
  rw [mutateStep, if_neg hlive, hnode]

/-! ## §6 The calls for all nodes -/

/-- No replacement so far is at or above a location. -/
def Mutation.Clear (s : Mutation σ) (loc : List ℕ) : Prop :=
  ∀ c ∈ s.calls, c.result.isSome = true → ¬ c.loc <+: loc

/-- The places of the children that the segment goes through, node by node. -/
def placesOf (segment : PathSegment) (nodes : List (Ref σ)) : List (Option String × List ℕ) :=
  nodes.flatMap fun x => (performStep segment x).map place

variable {nodes : List (Ref σ)}

/-- **The calls for all nodes**, if every node is clear of replacements when its turn comes. -/
theorem mutateNodes_spec (cb : Callback σ) {doc : Json σ}
    (hnodes : ∀ x ∈ nodes, doc.valueAt x.loc = some x.json) (hdoc : s.doc = replay doc s.calls)
    (hclear : ∀ done x rest, nodes = done ++ x :: rest → ∀ s' new,
      Extends cb s s' (placesOf segment done) new → s'.Clear x.loc) :
    ∃ s' new, mutateNodes segment cb nodes s = .ok s' ∧
      Extends cb s s' (placesOf segment nodes) new := by
  induction nodes generalizing s with
  | nil => exact ⟨s, [], rfl, .refl cb s⟩
  | cons x nodes ih =>
    have hself : s.Clear x.loc := hclear [] x nodes rfl s [] (.refl cb s)
    have hlive : ¬ s.Destroyed x.loc := fun ⟨c, hc, hsome, hinside⟩ => hself c hc hsome hinside.1
    have hhead : (s.doc.valueAt x.loc).map Json.head = some x.json.head := by
      rw [hdoc, head_replay doc s.calls hself, hnodes x mem_cons_self]
      rfl
    obtain ⟨node, hnode, hheads⟩ := map_eq_some_iff.mp hhead
    obtain ⟨s1, new1, hstep, hext⟩ := Mutation.mutateStep_spec segment cb hlive hnode
    rw [places_performStep_of_head segment hheads] at hext
    have hdoc1 : s1.doc = replay doc s1.calls := by
      simp [hext.doc, hext.calls, hdoc, replay, replay, replay]
    obtain ⟨s', new, hrun, hrest⟩ := ih (fun y hy => hnodes y (mem_cons_of_mem x hy)) hdoc1
      fun done y rest hsplit s' new hdone =>
        hclear (x :: done) y rest (congrArg (x :: ·) hsplit) s' (new1 ++ new) (hext.trans hdone)
    refine ⟨s', new1 ++ new, ?_, hext.trans hrest⟩
    rw [mutateNodes, foldlM_cons, hstep]
    exact hrun

theorem callAt_of_isPrefix (cb : Callback σ) (s : Mutation σ) (at_ : Option String × List ℕ) :
    s.calls <+: (s.callAt cb at_).calls := by
  rw [Mutation.callAt]
  split
  · exact prefix_refl _
  · exact prefix_append _ _

theorem foldl_callAt_of_isPrefix (cb : Callback σ) (s : Mutation σ)
    (places : List (Option String × List ℕ)) :
    s.calls <+: (places.foldl (Mutation.callAt cb) s).calls := by
  induction places generalizing s with
  | nil => exact prefix_refl _
  | cons p places ih => exact (callAt_of_isPrefix cb s p).trans (ih _)

theorem mutateNodes_of_isPrefix {segment : PathSegment}
    (h : mutateNodes segment cb nodes s = .ok s') :
    s.calls <+: s'.calls := by
  induction nodes generalizing s with
  | nil =>
    cases h
    exact prefix_refl _
  | cons x nodes ih =>
    rw [mutateNodes, foldlM_cons] at h
    cases hstep : s.mutateStep segment cb x.loc with
    | error fault =>
      rw [hstep] at h
      cases h
    | ok s1 =>
      rw [hstep] at h
      have hfirst : s.calls <+: s1.calls := by
        rw [Mutation.mutateStep] at hstep
        split at hstep
        · cases hstep
        · split at hstep
          · cases hstep
          · cases hstep
            exact foldl_callAt_of_isPrefix cb s _
      exact hfirst.trans (ih h)

end Calls

end Drakeydb.Json
