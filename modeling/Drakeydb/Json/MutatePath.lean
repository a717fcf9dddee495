import Mathlib.Data.List.Perm.Subperm
import Drakeydb.Json.Mutate

/-!
# Which mutations are right

A mutation is right if no destroyed node is accessed, the callback is called once for every node
that the path denotes and no replacement has destroyed, and nothing else changes. For every callback
this holds exactly if the path is straight, denotes no node twice, and none of the collected nodes
lies at or below a child that an earlier one hands to the callback.
-/

namespace Drakeydb.Json

open Lib.DepthFirst List Ref

variable {σ : Type}

/-! ## §1 The nodes that are collected -/

/-- The nodes a step leads to, those that stray included. -/
def Step.reached (x : Ref σ) (step : Step) : List (Ref σ) := step.nodes x ++ step.strays x

/-- The nodes a path leads to, those that stray included. -/
def reach : List Step → Ref σ → List (Ref σ)
  | [], x => [x]
  | .descent :: rest, x => x.preorder.flatMap (reach rest)
  | step :: rest, x => (step.reached x).flatMap (reach rest)

/-- The arrays and objects to which a path leads before its last step. -/
def containers (path : List Step) (x : Ref σ) : List (Ref σ) :=
  (reach path.dropLast x).filter fun y => y.json.isRecursive

variable {x : Ref σ} {y : Ref σ}

theorem Step.reached_subset (step : Step) (hy : y ∈ step.reached x) : y ∈ x.children := by
  rcases mem_append.mp hy with hy | hy
  · exact step.nodes_subset hy
  · exact step.strays_subset hy

theorem reach_cons {step : Step} (hstep : step ≠ .descent) (rest : List Step) (x : Ref σ) :
    reach (step :: rest) x = (step.reached x).flatMap (reach rest) := by
  cases step with
  | descent => exact absurd rfl hstep
  | identifier name => rfl
  | bracket index => rfl
  | wildcard => rfl

variable (path : List Step)

theorem reach_eq_select (hfits : x.Fits) : reach path x = select path x := by
  induction path generalizing x with
  | nil => rfl
  | cons step rest ih =>
    by_cases hstep : step = .descent
    · subst hstep
      exact flatMap_congr fun y hy => ih (hfits.of_mem_preorder hy)
    · rw [reach_cons hstep, select, stepNodes_segment hstep hfits]
      exact flatMap_congr fun y hy => ih (hfits.child (step.reached_subset hy))

theorem select_append (path path' : List Step) (x : Ref σ) :
    select (path ++ path') x = (select path x).flatMap (select path') := by
  induction path generalizing x with
  | nil => exact (flatMap_singleton _ _).symm
  | cons step rest ih =>
    rw [cons_append, select, select, flatMap_assoc]
    exact flatMap_congr fun y _ => ih y

theorem exists_cons_segments (init : List Step) (last : Step) :
    ∃ next path, (init ++ [last]).map Step.segment = next :: path := by
  cases init with
  | nil | cons step init => exact ⟨_, _, rfl⟩

theorem gather_containers (init : List Step) (last : Step) (x : Ref σ) :
    gather (fun _ y => [y]) ((init ++ [last]).map Step.segment) x =
      (select init x).filter fun y => y.json.isRecursive := by
  induction init generalizing x with
  | nil =>
    simp [gather, select, filter_cons]
  | cons step init ih =>
    obtain ⟨next, path, hpath⟩ := exists_cons_segments init last
    rw [cons_append, map_cons, hpath, gather, ← hpath, select, filter_flatMap]
    exact flatMap_congr fun y _ => ih y

/-! ## §2 Nodes of the document -/

theorem valueAt_of_child {doc : Json σ} {c : Ref σ} (hx : doc.valueAt x.loc = some x.json)
    (hc : c ∈ x.children) : doc.valueAt c.loc = some c.json := by
  obtain ⟨hit, hhit, rfl⟩ := mem_map.mp hc
  obtain ⟨i, hi, rfl⟩ := mem_mapIdx.mp hhit
  rw [Json.valueAt_append, hx, Option.bind_some, Json.valueAt_child, getElem?_eq_getElem hi]
  rfl

/-- What goes from a node to its children goes to all nodes that a path leads to. -/
theorem of_mem_reach {P : Ref σ → Prop} (hchild : ∀ x c, P x → c ∈ x.children → P c)
    (path : List Step) (hx : P x) (hy : y ∈ reach path x) : P y := by
  have hpreorder : ∀ x y : Ref σ, P x → y ∈ x.preorder → P y := by
    intro x y hx hy
    induction x using induction with
    | h x ih =>
      rw [preorder_eq] at hy
      rcases mem_cons.mp hy with rfl | hy
      · exact hx
      · obtain ⟨c, hc, hy⟩ := mem_flatMap.mp hy
        exact ih c hc (hchild x c hx hc) hy
  induction path generalizing x with
  | nil => rwa [mem_singleton.mp hy]
  | cons step rest ih =>
    by_cases hstep : step = .descent
    · subst hstep
      obtain ⟨z, hz, hy⟩ := mem_flatMap.mp hy
      exact ih (hpreorder x z hx hz) hy
    · rw [reach_cons hstep] at hy
      obtain ⟨z, hz, hy⟩ := mem_flatMap.mp hy
      exact ih (hchild x z hx (step.reached_subset hz)) hy

/-! ## §3 The property and the condition -/

/-- **A right mutation** of a document. -/
structure MutatesRight (path : List Step) (doc : Json σ) (s : Mutation σ) : Prop where
  /-- No node gets two calls. -/
  once : (s.calls.map Call.loc).Nodup
  /-- A call is for a node that the path denotes … -/
  only : ∀ c ∈ s.calls, ∃ x ∈ denote path ⟨[], doc⟩, x.loc = c.loc
  /-- … and not for one that stands in a value the callback itself has put there. -/
  fresh : s.calls.Pairwise fun c c' => c.result.isSome = true → ¬ Inside c.loc c'.loc
  /-- Every node that the path denotes gets its call, unless it is inside a replaced one. -/
  all : ∀ x ∈ denote path ⟨[], doc⟩, x.loc ∈ s.calls.map Call.loc ∨
    ∃ c ∈ s.calls, c.result.isSome = true ∧ Inside c.loc x.loc
  /-- Outside the denoted nodes nothing changes. -/
  frame : ∀ loc, (∀ x ∈ denote path ⟨[], doc⟩, ¬ x.loc <+: loc) →
    (s.doc.valueAt loc).map Json.head = (doc.valueAt loc).map Json.head

/-- The path is straight, denotes no node twice, and no container is at or below a child that the
last step finds in an earlier one. -/
def Apart (path : List Step) (x : Ref σ) : Prop :=
  Straight path x ∧ ((denote path x).map Ref.loc).Nodup ∧
    (containers path x).Pairwise fun y z =>
      ∀ last ∈ path.getLast?, ∀ c ∈ last.reached y, ¬ c.loc <+: z.loc

/-! ## §4 `MutatePath` is the traversal and then the calls -/

/-- The nodes that `Mutate` collects: for a path of one step the root, whatever it is. -/
def collected (init : List Step) (x : Ref σ) : List (Ref σ) :=
  if init = [] then [x] else (reach init x).filter fun y => y.json.isRecursive

theorem mutatePath_spec (init : List Step) (last : Step) (cb : Callback σ) {doc : Json σ}
    (hfits : (mk [] doc).Fits) :
    ∃ rounds, ∀ fuel, rounds ≤ fuel →
      mutatePath fuel ((init ++ [last]).map Step.segment) cb doc =
        some (mutateNodes last.segment cb (collected init ⟨[], doc⟩) ⟨doc, []⟩) := by
  cases init with
  | nil =>
    refine ⟨0, fun fuel _ => congrArg some ?_⟩
    exact (bind_pure _).symm
  | cons step init =>
    obtain ⟨next, path, hpath⟩ := exists_cons_segments init last
    have hwhole : ((step :: init) ++ [last]).map Step.segment = step.segment :: next :: path :=
      congrArg (step.segment :: ·) hpath
    have hlt : 0 + 1 < (step.segment :: next :: path).length := by
      rw [length_cons, length_cons]
      omega
    have hlast : (next :: path).getLast (cons_ne_nil _ _) = last.segment := by
      simp [← hpath]
    have hemits := emits_mutateRound (emits_new (step.segment :: next :: path) (fun _ y => [y]) 0
      ⟨[], doc⟩ hlt hfits) hlt (Nat.le_refl 1)
    obtain ⟨rounds, hloop⟩ := loop_eq_of_emits hemits
    refine ⟨rounds, fun fuel hle => ?_⟩
    rw [drop_zero, ← hwhole, gather_containers] at hloop
    rw [hwhole, mutatePath, if_neg (cons_ne_nil _ _), mutate, ← hwhole, hloop fuel hle, hlast,
      collected, if_neg (cons_ne_nil _ _), reach_eq_select _ hfits]
    rfl

section Collected

variable {init : List Step} {last : Step} {doc : Json σ} {x : Ref σ}

theorem valueAt_of_collected (init : List Step) (hx : x ∈ collected init ⟨[], doc⟩) :
    doc.valueAt x.loc = some x.json := by
  rw [collected] at hx
  split at hx
  · rw [mem_singleton.mp hx]
    rfl
  · exact of_mem_reach (fun _ _ => valueAt_of_child) init rfl (mem_filter.mp hx).1

theorem fits_of_collected (hfits : (mk [] doc).Fits) (hx : x ∈ collected init ⟨[], doc⟩) :
    x.Fits := by
  rw [collected] at hx
  split at hx
  · rwa [mem_singleton.mp hx]
  · exact of_mem_reach (fun _ _ => Fits.child) init hfits (mem_filter.mp hx).1

theorem flatMap_filter_isRecursive (segment : PathSegment) (nodes : List (Ref σ)) :
    (nodes.filter fun y => y.json.isRecursive).flatMap (performStep segment) =
      nodes.flatMap (performStep segment) := by
  induction nodes with
  | nil => rfl
  | cons x nodes ih =>
    rw [filter_cons, flatMap_cons]
    split
    case isTrue => simp [ih]
    case isFalse hscalar => simp [ih, performStep_of_scalar (Bool.eq_false_iff.mpr hscalar)]

theorem last_ne_descent (hpath : Accepted (init ++ [last])) : last ≠ .descent := by
  induction init with
  | nil =>
    rintro rfl
    exact absurd (hpath.1 rfl) Bool.false_ne_true
  | cons step init ih => exact ih hpath.2

theorem segment_ne_descent {step : Step} (h : step ≠ .descent) : step.segment ≠ .descent := by
  cases step with
  | descent => exact absurd rfl h
  | identifier name | bracket index | wildcard => exact PathSegment.noConfusion

theorem map_snd_placesOf (hlast : last ≠ .descent) (hfits : (mk [] doc).Fits) :
    (placesOf last.segment (collected init ⟨[], doc⟩)).map Prod.snd =
      (select (init ++ [last]) ⟨[], doc⟩).map loc := by
  have hstep : ∀ x : Ref σ, (performStep last.segment x).map Prod.snd = select [last] x := by
    intro x
    rw [← stepNodes_of_ne (segment_ne_descent hlast)]
    exact (flatMap_singleton' _).symm
  have hnodes : (collected init ⟨[], doc⟩).flatMap (performStep last.segment) =
      (select init ⟨[], doc⟩).flatMap (performStep last.segment) := by
    rw [collected]
    split
    case isTrue hnil => rw [hnil]; rfl
    case isFalse => rw [flatMap_filter_isRecursive, reach_eq_select init hfits]
  have hplaces : placesOf last.segment (collected init ⟨[], doc⟩) =
      ((collected init ⟨[], doc⟩).flatMap (performStep last.segment)).map place := by
    rw [placesOf, map_flatMap]
  rw [hplaces, hnodes, map_map, select_append, ← flatMap_congr fun x _ => hstep x,
    ← map_flatMap, map_map]
  rfl

theorem map_performStep (hlast : last ≠ .descent) (hfits : x.Fits) :
    (performStep last.segment x).map Prod.snd = last.reached x := by
  rw [← stepNodes_of_ne (segment_ne_descent hlast), stepNodes_segment hlast hfits]
  rfl

/-! ## §5 Mutations that are right -/

/-- No collected node is at or below a child that an earlier one hands to the callback. -/
def Separate (segment : PathSegment) (nodes : List (Ref σ)) : Prop :=
  nodes.Pairwise fun y z => ∀ hit ∈ performStep segment y, ¬ hit.2.loc <+: z.loc

theorem mem_reached_iff (hlast : last ≠ .descent) {c : Ref σ} (hfits : x.Fits) :
    c ∈ last.reached x ↔ ∃ hit ∈ performStep last.segment x, hit.2 = c := by
  rw [← map_performStep hlast hfits, mem_map]

theorem separate_iff (hlast : last ≠ .descent) (hfits : (mk [] doc).Fits) :
    Separate last.segment (collected init ⟨[], doc⟩) ↔
      (containers (init ++ [last]) ⟨[], doc⟩).Pairwise fun y z =>
        ∀ step ∈ (init ++ [last]).getLast?, ∀ c ∈ step.reached y, ¬ c.loc <+: z.loc := by
  have hgetLast : (init ++ [last]).getLast? = some last := getLast?_concat
  have hdrop : (init ++ [last]).dropLast = init := dropLast_concat
  rw [containers, hdrop, hgetLast, Separate]
  by_cases hinit : init = []
  · subst hinit
    exact ⟨fun _ => (pairwise_singleton _ _).filter _, fun _ => pairwise_singleton _ _⟩
  · have hnodes : collected init ⟨[], doc⟩ = (reach init ⟨[], doc⟩).filter fun y =>
      y.json.isRecursive :=
      if_neg hinit
    rw [← hnodes]
    apply List.Pairwise.iff_of_mem
    intro y z hy _
    have hreached := fun c => mem_reached_iff hlast (c := c) (fits_of_collected hfits hy)
    constructor
    · intro hsep step hstep c hc
      cases hstep
      obtain ⟨hit, hhit, rfl⟩ := (hreached c).mp hc
      exact hsep hit hhit
    · intro hsep hit hhit
      exact hsep last rfl hit.2 ((hreached hit.2).mpr ⟨hit, hhit, rfl⟩)

variable {segment : PathSegment} {nodes : List (Ref σ)}

theorem mem_placesOf {p : Option String × List ℕ} (hp : p ∈ placesOf segment nodes) :
    ∃ x ∈ nodes, ∃ hit ∈ performStep segment x, place hit = p := by
  obtain ⟨x, hx, hp⟩ := mem_flatMap.mp hp
  obtain ⟨hit, hhit, rfl⟩ := mem_map.mp hp
  exact ⟨x, hx, hit, hhit, rfl⟩

variable {hit : Hit σ}

theorem not_inside_of_performStep {outer : List ℕ} (hhit : hit ∈ performStep segment x)
    (h : ¬ outer <+: x.loc) : ¬ Inside outer hit.2.loc := by
  obtain ⟨i, _, hi⟩ := loc_of_mem_entries (mem_entries_of_performStep hhit)
  rw [hi]
  exact fun ⟨hle, hne⟩ => (prefix_concat_iff.mp hle).elim hne h

/-- With separate nodes no call is made inside the place of an earlier one. -/
theorem pairwise_placesOf (hsep : Separate segment nodes) :
    (placesOf segment nodes).Pairwise fun p q => ¬ Inside p.2 q.2 := by
  apply pairwise_flatMap.mpr
  constructor
  · intro x _
    apply pairwise_map.mpr
    apply pairwise_of_forall_mem_list
    intro hit hhit hit' hhit'
    obtain ⟨i, _, hi⟩ := loc_of_mem_entries (mem_entries_of_performStep hhit)
    apply not_inside_of_performStep hhit'
    intro hle
    have := (hi ▸ hle : x.loc ++ [i] <+: x.loc).length_le
    rw [length_append, length_singleton] at this
    omega
  · apply hsep.imp
    intro y z hyz p hp q hq
    obtain ⟨hit, hhit, rfl⟩ := mem_map.mp hp
    obtain ⟨hit', hhit', rfl⟩ := mem_map.mp hq
    exact not_inside_of_performStep hhit' (hyz hit hhit)

variable {places : List (Option String × List ℕ)}

theorem map_loc_of_places {calls : List (Call σ)}
    (h : calls.map Call.place = places) : calls.map Call.loc = places.map Prod.snd := by
  rw [← h, map_map]
  rfl

/-- **If the nodes are apart, every mutation is right.** -/
theorem mutatesRight_of_apart (hpath : Accepted (init ++ [last])) (hfits : (mk [] doc).Fits)
    (hapart : Apart (init ++ [last]) (mk [] doc)) (cb : Callback σ) :
    ∃ s, mutateNodes last.segment cb (collected init ⟨[], doc⟩) ⟨doc, []⟩ = .ok s ∧
      MutatesRight (init ++ [last]) doc s := by
  obtain ⟨hstraight, hnodup, hpairwise⟩ := hapart
  have hlast := last_ne_descent hpath
  have hsep := (separate_iff hlast hfits).mpr hpairwise
  have hselect := (select_eq_denote_iff (init ++ [last]) hfits).mpr hstraight
  obtain ⟨s, new, hrun, hext⟩ := mutateNodes_spec (s := ⟨doc, []⟩) last.segment cb
    (fun x hx => valueAt_of_collected init hx) rfl (by
      -- a replaced node is a child of a node done before, and so not above the next one
      intro done x rest hsplit s' new hext c hc _ hle
      rw [hext.calls, nil_append] at hc
      obtain ⟨y, hy, hit, hhit, hplace⟩ := mem_placesOf (hext.places ▸ mem_map_of_mem hc)
      have hloc : hit.2.loc = c.loc := congrArg Prod.snd hplace
      rw [Separate, hsplit] at hsep
      exact (pairwise_append.mp hsep).2.2 y hy x mem_cons_self hit hhit (hloc ▸ hle))
  have hcalls : s.calls = new := hext.calls.trans (nil_append _)
  have hlocs : s.calls.map Call.loc = (denote (init ++ [last]) ⟨[], doc⟩).map loc := by
    rw [hcalls, map_loc_of_places hext.places, map_snd_placesOf hlast hfits, hselect]
  have honly : ∀ c ∈ s.calls, ∃ x ∈ denote (init ++ [last]) ⟨[], doc⟩, x.loc = c.loc := by
    intro c hc
    exact mem_map.mp (hlocs ▸ mem_map_of_mem hc)
  refine ⟨s, hrun, ⟨hlocs ▸ hnodup, honly, ?_, ?_, ?_⟩⟩
  · have hpairs := pairwise_placesOf hsep
    rw [← hext.places, ← hcalls] at hpairs
    apply (pairwise_map.mp hpairs).imp
    intro c c' hnot _
    exact hnot
  · intro x hx
    exact .inl (hlocs ▸ mem_map_of_mem hx)
  · intro loc hout
    rw [hext.doc, head_replay]
    intro c hc _ hle
    obtain ⟨x, hx, hloc⟩ := honly c (hcalls ▸ hc)
    exact hout x hx (hloc ▸ hle)

/-! ## §6 Mutations that are not -/

/-- The callback that leaves every node. -/
def leave : Callback σ := fun _ _ => none

/-- The callback that replaces one node, that of the call with a number. -/
def replaceAt (k : ℕ) (v : Json σ) : Callback σ := fun earlier _ =>
  if earlier.length = k then some v else none

/-- A callback that leaves every node gets those that are selected. -/
theorem mutateNodes_leave (init : List Step) (hlast : last ≠ .descent) (hfits : (mk [] doc).Fits) :
    ∃ s, mutateNodes last.segment leave (collected init ⟨[], doc⟩) ⟨doc, []⟩ = .ok s ∧
      (∀ c ∈ s.calls, c.result = none) ∧
      s.calls.map Call.loc = (select (init ++ [last]) ⟨[], doc⟩).map loc := by
  have hnone : ∀ {s : Mutation σ} {places new}, Extends leave ⟨doc, []⟩ s places new →
      ∀ c ∈ s.calls, c.result = none := by
    intro s places new hext c hc
    rw [hext.calls, nil_append] at hc
    obtain ⟨m, hm⟩ := mem_iff_getElem?.mp hc
    obtain ⟨_, _, hresult⟩ := hext.results m c hm
    exact hresult
  obtain ⟨s, new, hrun, hext⟩ := mutateNodes_spec (s := ⟨doc, []⟩) last.segment leave
    (fun x hx => valueAt_of_collected init hx) rfl (by
      intro done x rest _ s' new hext c hc hsome
      rw [hnone hext c hc] at hsome
      cases hsome)
  refine ⟨s, hrun, hnone hext, ?_⟩
  simp [hext.calls, map_loc_of_places hext.places, map_snd_placesOf hlast hfits]

theorem straight_of_leave (hlast : last ≠ .descent) (hfits : (mk [] doc).Fits)
    (hright : ∃ s, mutateNodes last.segment leave (collected init ⟨[], doc⟩) ⟨doc, []⟩ = .ok s ∧
      MutatesRight (init ++ [last]) doc s) :
    Straight (init ++ [last]) (mk [] doc) ∧
      ((denote (init ++ [last]) (mk [] doc)).map loc).Nodup := by
  obtain ⟨s, hrun, hs⟩ := hright
  obtain ⟨s', hrun', hnone, hlocs⟩ := mutateNodes_leave init hlast hfits
  cases hrun.symm.trans hrun'
  have hsub := denote_sublist_select (init ++ [last]) hfits
  have hnodup : ((select (init ++ [last]) (mk [] doc)).map loc).Nodup := hlocs ▸ hs.once
  have hsubset : ((select (init ++ [last]) (mk [] doc)).map loc) ⊆
      (denote (init ++ [last]) (mk [] doc)).map loc := by
    intro loc hloc
    obtain ⟨c, hc, rfl⟩ := mem_map.mp (hlocs ▸ hloc)
    obtain ⟨x, hx, hxc⟩ := hs.only c hc
    exact hxc ▸ mem_map_of_mem hx
  have hlen := (subperm_of_subset hnodup hsubset).length_le
  rw [length_map, length_map] at hlen
  have heq := hsub.eq_of_length_le hlen
  refine ⟨(select_eq_denote_iff _ hfits).mp heq.symm, ?_⟩
  rwa [heq]

variable {new : List (Call σ)} {s : Mutation σ} {v : Json σ} {c : Call σ} {k : ℕ}

section

variable (hext : Extends (replaceAt k v) ⟨doc, []⟩ s places new)
include hext

/-- With the callback that replaces one node, only the call with that number replaces. -/
theorem result_replaceAt {m : ℕ} (hc : new[m]? = some c) : c.result = if m = k then some v
    else none := by
  obtain ⟨earlier, hlen, hresult⟩ := hext.results m c hc
  rw [hresult, replaceAt, hlen]
  simp

theorem replay_replaceAt (hc : new[k]? = some c) : s.doc = doc.put c.loc v := by
  obtain ⟨hlt, rfl⟩ := List.getElem?_eq_some_iff.mp hc
  have hother : ∀ m c', m ≠ k → new[m]? = some c' → c'.result = none := by
    intro m c' hne hc'
    rw [result_replaceAt hext hc', if_neg hne]
  have hbefore : ∀ c' ∈ new.take k, c'.result = none := by
    intro c' hc'
    obtain ⟨m, hm, rfl⟩ := List.mem_take_iff_getElem.mp hc'
    exact hother m _ (by omega) (List.getElem?_eq_getElem (by omega))
  have hafter : ∀ c' ∈ new.drop (k + 1), c'.result = none := by
    intro c' hc'
    obtain ⟨m, hm⟩ := List.mem_iff_getElem?.mp hc'
    rw [List.getElem?_drop] at hm
    exact hother _ _ (by omega) hm
  have hself : new[k].result = some v := by rw [result_replaceAt hext hc, if_pos rfl]
  have hsplit : new = new.take k ++ new[k] :: new.drop (k + 1) := by
    rw [← List.drop_eq_getElem_cons hlt, List.take_append_drop]
  rw [hext.doc]
  conv_lhs => rw [hsplit]
  rw [replay, List.foldl_append, List.foldl_cons]
  change replay (new[k].result.map (Json.put (replay doc (new.take k)) _) |>.getD _)
    (new.drop (k + 1)) = _
  rw [replay_of_none doc hbefore, hself, replay_of_none _ hafter]
  rfl

end

theorem exists_mem_performStep (hhit : hit ∈ performStep segment x) (loc : List ℕ) :
    ∃ hit', hit' ∈ performStep segment ⟨loc, x.json⟩ := by
  rw [performStep_eq] at hhit
  obtain ⟨i, hi, hentry⟩ := mem_filterMap.mp hhit
  have hlt : i < (mk loc x.json).entries.length := by
    rw [length_entries, ← length_entries x]
    exact (List.getElem?_eq_some_iff.mp hentry).1
  refine ⟨(mk loc x.json).entries[i], ?_⟩
  rw [performStep_eq, stepIndices_eq_of_head segment (x := ⟨loc, x.json⟩) (y := x) rfl]
  exact mem_filterMap.mpr ⟨i, hi, getElem?_eq_getElem hlt⟩

/-- A collected node at or below a child that an earlier one hands out: some mutation goes wrong. -/
theorem exists_wrong {done between : List (Ref σ)} (rest : List (Ref σ)) {z : Ref σ}
    (hnodes : ∀ y ∈ done ++ x :: between, doc.valueAt y.loc = some y.json)
    (hhit : hit ∈ performStep segment x) (hz : hit.2.loc <+: z.loc)
    (hbetween : ∀ y ∈ between, ¬ hit.2.loc <+: y.loc) :
    ∃ cb : Callback σ, ∀ s,
      mutateNodes segment cb ((done ++ x :: between) ++ z :: rest) ⟨doc, []⟩ = .ok s →
      ¬ MutatesRight path doc s := by
  obtain ⟨j, hj⟩ := mem_iff_getElem?.mp (mem_map_of_mem (f := place) hhit)
  have hget : ∀ more, (placesOf segment (done ++ x :: more))[(placesOf segment done).length + j]? =
      some (place hit) := by
    intro more
    rw [placesOf, flatMap_append, flatMap_cons, ← placesOf,
      getElem?_append_right (Nat.le_add_right ..),
      Nat.add_sub_cancel_left, getElem?_append_left (List.getElem?_eq_some_iff.mp hj).1, hj]
  have hle : (placesOf segment done).length ≤ (placesOf segment done).length + j :=
    Nat.le_add_right ..
  generalize (placesOf segment done).length + j = k at hget hle
  refine ⟨replaceAt k x.json, fun s hs hright => ?_⟩
  -- the calls until it is the turn of `z`
  have hclear : ∀ done' y rest', done ++ x :: between = done' ++ y :: rest' → ∀ s' new,
      Extends (replaceAt k x.json) ⟨doc, []⟩ s' (placesOf segment done') new → s'.Clear y.loc := by
    intro done' y rest' hsplit s' new hext c hc hsome hyc
    rw [hext.calls, nil_append] at hc
    obtain ⟨m, hm⟩ := mem_iff_getElem?.mp hc
    have hmk : m = k := by
      by_contra hne
      rw [result_replaceAt hext hm, if_neg hne] at hsome
      cases hsome
    subst hmk
    have hplace : (placesOf segment done')[m]? = some c.place := by
      rw [← hext.places, getElem?_map, hm]
      rfl
    have hlt := (List.getElem?_eq_some_iff.mp hplace).1
    rcases append_eq_append_iff.mp hsplit with ⟨mid, rfl, hmid⟩ | ⟨mid, rfl, _⟩
    · cases mid with
      | nil =>
        rw [append_nil] at hlt
        omega
      | cons w mid =>
        obtain ⟨rfl, rfl⟩ := cons.inj hmid
        rw [hget mid] at hplace
        have hloc : hit.2.loc = c.loc := congrArg Prod.snd (Option.some.inj hplace)
        exact hbetween y (mem_append_cons_self) (hloc ▸ hyc)
    · rw [placesOf, flatMap_append, length_append] at hle
      rw [placesOf] at hlt
      omega
  obtain ⟨s1, new, hrun, hext⟩ := mutateNodes_spec (s := ⟨doc, []⟩) segment _ hnodes rfl hclear
  have hcalls : s1.calls = new := hext.calls.trans (nil_append _)
  -- the call that replaced
  obtain ⟨c, hc, hplace⟩ : ∃ c, new[k]? = some c ∧ c.place = place hit := by
    have hk := hget between
    rw [← hext.places, getElem?_map] at hk
    exact Option.map_eq_some_iff.mp hk
  have hloc : c.loc = hit.2.loc := congrArg Prod.snd hplace
  have hmem : c ∈ s1.calls := hcalls ▸ mem_of_getElem? hc
  have hsome : c.result.isSome = true := by rw [result_replaceAt hext hc, if_pos rfl]; rfl
  rw [mutateNodes, foldlM_append] at hs
  change (mutateNodes segment (replaceAt k x.json) (done ++ x :: between) ⟨doc, []⟩ >>= fun s =>
    mutateNodes segment (replaceAt k x.json) (z :: rest) s) = .ok s at hs
  rw [hrun] at hs
  change (s1.mutateStep segment (replaceAt k x.json) z.loc >>= fun s =>
    mutateNodes segment (replaceAt k x.json) rest s) = .ok s at hs
  by_cases hdestroyed : s1.Destroyed z.loc
  · rw [Mutation.mutateStep, if_pos hdestroyed] at hs
    cases hs
  · -- the node itself was replaced: the last segment is applied to the new value
    have hzloc : c.loc = z.loc := by
      by_contra hne
      exact hdestroyed ⟨c, hmem, hsome, hloc ▸ hz, hne⟩
    have hold : doc.valueAt z.loc = some hit.2.json := by
      rw [← hzloc, hloc]
      have hx := hnodes x (mem_append_cons_self)
      exact valueAt_of_child hx (mem_map_of_mem (mem_entries_of_performStep hhit))
    have hnode : s1.doc.valueAt z.loc = some x.json := by
      rw [replay_replaceAt hext hc, hzloc]
      exact Json.valueAt_put_self doc x.json hold
    obtain ⟨s2, new2, hstep, hext2⟩ :=
      Mutation.mutateStep_spec segment (replaceAt k x.json) hdestroyed hnode
    rw [hstep] at hs
    obtain ⟨hit', hhit'⟩ := exists_mem_performStep hhit z.loc
    obtain ⟨c', hc', hplace'⟩ := mem_map.mp (hext2.places ▸ mem_map_of_mem (f := place) hhit')
    obtain ⟨j, _, hj⟩ := loc_of_mem_entries (mem_entries_of_performStep hhit')
    have hloc' : c'.loc = z.loc ++ [j] := (congrArg Prod.snd hplace').trans hj
    have hfresh := hright.fresh.sublist (mutateNodes_of_isPrefix hs).sublist
    rw [hext2.calls] at hfresh
    apply (pairwise_append.mp hfresh).2.2 c hmem c' hc' hsome
    rw [hzloc, hloc']
    refine ⟨prefix_append _ _, fun heq => ?_⟩
    have := congrArg length heq
    rw [length_append, length_singleton] at this
    omega

/-- **If every mutation is right, the nodes are apart.** -/
theorem apart_of_mutatesRight (hpath : Accepted (init ++ [last])) (hfits : (mk [] doc).Fits)
    (hright : ∀ cb : Callback σ, ∃ s,
      mutateNodes last.segment cb (collected init ⟨[], doc⟩) ⟨doc, []⟩ = .ok s ∧
        MutatesRight (init ++ [last]) doc s) : Apart (init ++ [last]) (mk [] doc) := by
  have hlast := last_ne_descent hpath
  obtain ⟨hstraight, hnodup⟩ := straight_of_leave hlast hfits (hright leave)
  refine ⟨hstraight, hnodup, (separate_iff hlast hfits).mp (pairwise_iff_forall_sublist.mpr ?_)⟩
  intro x z hsub hit hhit hle
  obtain ⟨pre, post, hsplit, hx, hz⟩ := cons_sublist_iff.mp hsub
  obtain ⟨done, mid, rfl⟩ := append_of_mem hx
  -- the first collected node that is at or below the child
  obtain ⟨w, hw⟩ := Option.isSome_iff_exists.mp (find?_isSome.mpr
    ⟨z, mem_append_right mid (singleton_sublist.mp hz), decide_eq_true hle⟩ :
      ((mid ++ post).find? fun y => decide (hit.2.loc <+: y.loc)).isSome = true)
  obtain ⟨hwle, between, rest, hrest, hbetween⟩ := find?_eq_some_iff_append.mp hw
  have hcollected : collected init ⟨[], doc⟩ = (done ++ x :: between) ++ w :: rest := by
    rw [hsplit, append_assoc, append_assoc, cons_append, cons_append, hrest]
  obtain ⟨cb, hwrong⟩ := exists_wrong (init ++ [last]) rest
    (fun y hy => valueAt_of_collected init (hcollected ▸ mem_append_left _ hy)) hhit
    (of_decide_eq_true hwle) fun y hy => by simpa using hbetween y hy
  obtain ⟨s, hs, hsright⟩ := hright cb
  exact hwrong s (hcollected ▸ hs) hsright

end Collected

/-! ## §7 `MutatePath` -/

theorem callAt_root (cb : Callback σ) (doc : Json σ) :
    MutatesRight [] doc (Mutation.callAt cb ⟨doc, []⟩ (none, [])) where
  once := pairwise_singleton _ _
  only := fun c hc => ⟨⟨[], doc⟩, mem_cons_self, by rw [mem_singleton.mp hc]⟩
  fresh := pairwise_singleton _ _
  all := fun x hx => .inl (by rw [mem_singleton.mp hx]; exact mem_cons_self)
  frame := fun loc hout => absurd nil_prefix (hout ⟨[], doc⟩ mem_cons_self)

theorem apart_nil (x : Ref σ) : Apart [] x :=
  ⟨trivial, pairwise_singleton _ _, pairwise_of_forall_mem_list fun _ _ _ _ last h => by cases h⟩

/-- **For which documents and paths every mutation is right**: no destroyed node is accessed and the
    callback gets every denoted node that is still there, once, and nothing else. -/
theorem mutatePath_right_iff (path : List Step) (hpath : Accepted path) (doc : Json σ)
    (hfits : (Ref.mk [] doc).Fits) :
    (∀ cb : Callback σ, ∃ rounds, ∀ fuel, rounds ≤ fuel →
      ∃ s, mutatePath fuel (path.map Step.segment) cb doc = some (.ok s) ∧
        MutatesRight path doc s) ↔
      Apart path ⟨[], doc⟩ := by
  rcases eq_nil_or_concat path with rfl | ⟨init, last, rfl⟩
  · exact ⟨fun _ => apart_nil _, fun _ cb => ⟨0, fun _ _ => ⟨_, rfl, callAt_root cb doc⟩⟩⟩
  · rw [concat_eq_append] at hpath ⊢
    constructor
    · intro hright
      apply apart_of_mutatesRight hpath hfits
      intro cb
      obtain ⟨rounds, hspec⟩ := mutatePath_spec init last cb hfits
      obtain ⟨rounds', hcb⟩ := hright cb
      obtain ⟨s, hs, hsright⟩ := hcb (max rounds rounds') (Nat.le_max_right _ _)
      rw [hspec _ (Nat.le_max_left _ _)] at hs
      exact ⟨s, Option.some.inj hs, hsright⟩
    · intro hapart cb
      obtain ⟨rounds, hspec⟩ := mutatePath_spec init last cb hfits
      obtain ⟨s, hs, hsright⟩ := mutatesRight_of_apart hpath hfits hapart cb
      exact ⟨rounds, fun fuel hle => ⟨s, (hspec fuel hle).trans (congrArg some hs), hsright⟩⟩

/-- `$.a[-1]` on `{"a": [1, 2]}`. -/
theorem mutatePath_right_member_element :
    ∃ rounds, ∀ fuel, rounds ≤ fuel →
      ∃ s, mutatePath fuel ([Step.identifier "a", .bracket (.single (-1))].map Step.segment)
          (fun _ _ => some (.scalar 7)) memberOfTwo.json = some (.ok s) ∧
        MutatesRight [.identifier "a", .bracket (.single (-1))] memberOfTwo.json s :=
  (mutatePath_right_iff [.identifier "a", .bracket (.single (-1))] (by decide) memberOfTwo.json
    memberOfTwo_fits).mpr ⟨memberOfTwo_straight, pairwise_singleton _ _, pairwise_singleton _ _⟩ _

/-- `JSON.SET` of `$..a` on `{"a": {"a": {"a": 1}}}`: the first replacement destroys the third of
the collected nodes. -/
theorem mutatePath_destroyed :
    Accepted [.descent, .identifier "a"] ∧
    ∀ more, mutatePath (more + 20) ([Step.descent, .identifier "a"].map Step.segment)
      (fun _ _ => some (.scalar 7))
      (.object [("a", .object [("a", .object [("a", .scalar (1 : ℕ))])])]) =
        some (.error .destroyed) :=
  ⟨by decide, fun _ => rfl⟩

end Drakeydb.Json
