import Drakeydb.Json.MutatePath

/-!
# Mutations that replace scalars

A callback that replaces nothing but scalars, and by scalars, destroys no node: nothing stands
inside a scalar. Every such mutation calls back on the selected nodes, one after the other.
-/

namespace Drakeydb.Json

open List Option

variable {σ : Type}

/-! ## §1 Shapes -/

/-- A node as far as a path can tell: scalars are all alike. -/
def Head.shape : Head σ → Option (Head σ)
  | .scalar _ => none
  | head => some head

/-- The two documents differ in scalars only. -/
def SameShape (doc doc' : Json σ) : Prop :=
  ∀ loc, (doc'.valueAt loc).map (fun x => x.head.shape) = (doc.valueAt loc).map fun x =>
    x.head.shape

theorem SameShape.refl (doc : Json σ) : SameShape doc doc := fun _ => rfl

variable {doc : Json σ}

theorem SameShape.trans {doc' doc'' : Json σ} (h : SameShape doc doc') (h' : SameShape doc' doc'') :
    SameShape doc doc'' :=
  fun loc => (h' loc).trans (h loc)

variable {x : Json σ} {value : σ}

theorem eq_nil_of_valueAt_scalar {loc : List ℕ} (h : (Json.scalar value).valueAt loc = some x) :
    loc = [] ∧ x = .scalar value := by
  cases loc with
  | nil => exact ⟨rfl, (some.inj h).symm⟩
  | cons i loc => cases h

theorem exists_scalar_of_not_isRecursive (h : x.isRecursive = false) :
    ∃ value, x = .scalar value := by
  cases x with
  | scalar value => exact ⟨value, rfl⟩
  | array elems => cases h
  | object members => cases h

theorem sameShape_put {loc : List ℕ} {old : σ} (value : σ)
    (hold : doc.valueAt loc = some (.scalar old)) : SameShape doc
    (doc.put loc (.scalar value)) := by
  intro loc'
  by_cases hle : loc <+: loc'
  · obtain ⟨rest, rfl⟩ := hle
    rw [Json.valueAt_append, Json.valueAt_append, Json.valueAt_put_self doc _ hold, hold]
    cases rest <;> rfl
  · have hhead := Json.head_put doc (.scalar value) loc loc' hle
    have hshape := congrArg (Option.map Head.shape) hhead
    rwa [Option.map_map, Option.map_map] at hshape

/-! ## §2 The calls -/

/-- Only scalars are replaced, and by scalars. -/
def ScalarsOnly (cb : Callback σ) : Prop :=
  ∀ earlier arg v, cb earlier arg = some v → arg.2.isRecursive = false ∧ v.isRecursive = false

/-- A mutation that has replaced scalars only. -/
structure Edited (doc : Json σ) (s : Mutation σ) : Prop where
  shape : SameShape doc s.doc
  calls : ∀ c ∈ s.calls, c.result.isSome = true → ∃ value, doc.valueAt c.loc = some (.scalar value)

section Edits

variable {cb : Callback σ} {doc : Json σ} {s : Mutation σ}

theorem edited_refl (doc : Json σ) : Edited doc ⟨doc, []⟩ :=
  ⟨.refl doc, forall_mem_nil _⟩

variable {loc : List ℕ}

theorem Edited.scalar_before (h : Edited doc s)
    (hvalue : s.doc.valueAt loc = some (.scalar value)) :
    ∃ old, doc.valueAt loc = some (.scalar old) := by
  have hshape := h.shape loc
  rw [hvalue] at hshape
  cases hold : doc.valueAt loc with
  | none =>
    rw [hold] at hshape
    cases hshape
  | some old =>
    rw [hold] at hshape
    cases old with
    | scalar old => exact ⟨old, rfl⟩
    | array elems => cases hshape
    | object members => cases hshape

theorem Edited.callAt (hcb : ScalarsOnly cb) (h : Edited doc s) (at_ : Option String × List ℕ) :
    Edited doc (s.callAt cb at_) := by
  rw [Mutation.callAt]
  cases hvalue : s.doc.valueAt at_.2 with
  | none => exact h
  | some x =>
    dsimp only
    cases hresult : cb (s.calls.map Call.arg) (at_.1, x) with
    | none =>
      exact ⟨h.shape,
        forall_mem_append.mpr ⟨h.calls, forall_mem_singleton.mpr fun hsome => by cases hsome⟩⟩
    | some v =>
      obtain ⟨hx, hv⟩ := hcb _ _ _ hresult
      obtain ⟨old, rfl⟩ := exists_scalar_of_not_isRecursive hx
      obtain ⟨new, rfl⟩ := exists_scalar_of_not_isRecursive hv
      exact ⟨h.shape.trans (sameShape_put new hvalue),
        forall_mem_append.mpr ⟨h.calls, forall_mem_singleton.mpr fun _ => h.scalar_before hvalue⟩⟩

theorem Edited.foldl (hcb : ScalarsOnly cb) (h : Edited doc s)
    (places : List (Option String × List ℕ)) :
    Edited doc (places.foldl (Mutation.callAt cb) s) := by
  induction places generalizing s with
  | nil => exact h
  | cons p places ih => exact ih (h.callAt hcb p)

theorem Edited.not_destroyed (h : Edited doc s) (hx : doc.valueAt loc = some x) :
    ¬ s.Destroyed loc := by
  rintro ⟨c, hc, hsome, ⟨rest, rfl⟩, hne⟩
  obtain ⟨value, hvalue⟩ := h.calls c hc hsome
  rw [Json.valueAt_append, hvalue] at hx
  obtain ⟨rfl, -⟩ := eq_nil_of_valueAt_scalar hx
  exact hne (append_nil _).symm

theorem Edited.places (h : Edited doc s) (segment : PathSegment) (hx : doc.valueAt loc = some x) :
    ∃ x', s.doc.valueAt loc = some x' ∧
      (performStep segment ⟨loc, x'⟩).map place = (performStep segment ⟨loc, x⟩).map place := by
  have hshape := h.shape loc
  rw [hx] at hshape
  obtain ⟨x', hx', hshape⟩ := map_eq_some_iff.mp hshape
  refine ⟨x', hx', ?_⟩
  by_cases hrec : x.isRecursive = true
  · apply places_performStep_of_head
    cases x with
    | scalar value => cases hrec
    | array elems | object members => cases x' <;> simp_all [Json.head, Head.shape]
  · obtain ⟨value, rfl⟩ := exists_scalar_of_not_isRecursive (Bool.eq_false_iff.mpr hrec)
    have hrec' : x'.isRecursive = false := by
      cases x' with
      | scalar value' => rfl
      | array elems => cases hshape
      | object members => cases hshape
    rw [performStep_of_scalar hrec', performStep_of_scalar rfl]

theorem mutateNodes_scalars (hcb : ScalarsOnly cb) (segment : PathSegment) {nodes : List (Ref σ)}
    (hnodes : ∀ x ∈ nodes, doc.valueAt x.loc = some x.json) (h : Edited doc s) :
    mutateNodes segment cb nodes s =
      .ok ((placesOf segment nodes).foldl (Mutation.callAt cb) s) := by
  induction nodes generalizing s with
  | nil => rfl
  | cons x nodes ih =>
    have hx := hnodes x mem_cons_self
    obtain ⟨x', hx', hplaces⟩ := h.places segment hx
    have hstep : s.mutateStep segment cb x.loc =
        .ok (((performStep segment x).map place).foldl (Mutation.callAt cb) s) := by
      rw [Mutation.mutateStep, if_neg (h.not_destroyed hx), hx']
      exact congrArg (fun places => Except.ok (places.foldl (Mutation.callAt cb) s)) hplaces
    rw [mutateNodes, foldlM_cons, hstep, placesOf, flatMap_cons, foldl_append]
    exact ih (fun y hy => hnodes y (mem_cons_of_mem x hy)) (h.foldl hcb _)

end Edits

/-! ## §3 `MutatePath` -/

/-- The places of the selected nodes. -/
def selectedPlaces (path : List Step) (doc : Json σ) : List (Option String × List ℕ) :=
  path.getLast?.elim [(none, [])] fun last =>
    placesOf last.segment (collected path.dropLast ⟨[], doc⟩)

/-- **A mutation that replaces scalars** is the calls at the selected places. -/
theorem mutatePath_scalars {cb : Callback σ} (hcb : ScalarsOnly cb) (path : List Step)
    (hfits : (Ref.mk [] doc).Fits) :
    ∃ rounds, ∀ fuel, rounds ≤ fuel → mutatePath fuel (path.map Step.segment) cb doc =
      some (.ok ((selectedPlaces path doc).foldl (Mutation.callAt cb) ⟨doc, []⟩)) := by
  rcases eq_nil_or_concat path with rfl | ⟨init, last, rfl⟩
  · exact ⟨0, fun _ _ => rfl⟩
  · rw [concat_eq_append]
    obtain ⟨rounds, hspec⟩ := mutatePath_spec init last cb hfits
    refine ⟨rounds, fun fuel hle => ?_⟩
    rw [hspec fuel hle,
      mutateNodes_scalars hcb last.segment (fun x hx => valueAt_of_collected init hx)
      (edited_refl doc), selectedPlaces, getLast?_concat, dropLast_concat]
    rfl

variable {path : List Step}

theorem map_snd_selectedPlaces (hpath : Accepted path) (hfits : (Ref.mk [] doc).Fits) :
    (selectedPlaces path doc).map Prod.snd = (select path ⟨[], doc⟩).map Ref.loc := by
  rcases eq_nil_or_concat path with rfl | ⟨init, last, rfl⟩
  · rfl
  · rw [concat_eq_append] at hpath ⊢
    rw [selectedPlaces, getLast?_concat, dropLast_concat]
    exact map_snd_placesOf (last_ne_descent hpath) hfits

theorem valueAt_of_select (hfits : (Ref.mk [] doc).Fits) {x : Ref σ}
    (hx : x ∈ select path ⟨[], doc⟩) :
    doc.valueAt x.loc = some x.json := by
  rw [← reach_eq_select path hfits] at hx
  exact of_mem_reach (fun _ _ => valueAt_of_child) path rfl hx

end Drakeydb.Json
