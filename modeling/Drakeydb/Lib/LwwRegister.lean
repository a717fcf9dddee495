import Mathlib.Data.List.Basic
import Mathlib.Order.Lattice

/-!
# Last-Writer-Wins Registers

A register holds at most one entry. An incoming entry replaces the stored one exactly when
the register is empty or the incoming rank is strictly greater, so the stored side wins ties.
Nothing here mentions stamps, tables or nodes: entries are arbitrary, ranks live in any
linear order.
-/

namespace Drakeydb.Lib

open List

variable {ε ρ : Type*} [LinearOrder ρ] (rank : ε → ρ)

/-! ## §1 Offers -/

section

variable (stored : Option ε)

/-- Does the incoming entry replace the stored one?  Ties keep the stored entry. -/
def accepts (e : ε) : Bool :=
  match stored with
  | none => true
  | some s => decide (rank s < rank e)

/-- Offer one entry to the register. -/
def offer (e : ε) : Option ε :=
  if accepts rank stored e then some e else stored

/-- Offer the entries of a list from left to right. -/
def offerAll (es : List ε) : Option ε :=
  es.foldl (offer rank) stored

@[simp] theorem offer_none (e : ε) : offer rank none e = some e := rfl

theorem offer_some_of_lt {s e : ε} (h : rank s < rank e) : offer rank (some s) e = some e := by
  simp [offer, accepts, h]

theorem offer_some_of_le {s e : ε} (h : rank e ≤ rank s) : offer rank (some s) e = some s := by
  simp [offer, accepts, not_lt.mpr h]

@[simp] theorem offerAll_nil : offerAll rank stored [] = stored := rfl

@[simp] theorem offerAll_cons (e : ε) (es : List ε) :
    offerAll rank stored (e :: es) = offerAll rank (offer rank stored e) es := rfl

theorem offerAll_append (es fs : List ε) :
    offerAll rank stored (es ++ fs) = offerAll rank (offerAll rank stored es) fs :=
  foldl_append

/-! ## §2 Winners -/

/-- `w` is what a register that started with `stored` may hold once every entry of `es` was
    offered: it is the start or an offered entry, it dominates everything seen, and the start
    only lost to a strictly greater rank. -/
structure IsWinner (es : List ε) (w : Option ε) : Prop where
  /-- The register never invents an entry. -/
  mem : w = stored ∨ ∃ e ∈ es, w = some e
  /-- No offered entry outranks the winner. -/
  dominates : ∀ e ∈ es, ∃ v, w = some v ∧ rank e ≤ rank v
  /-- A start that was replaced was strictly outranked. -/
  start : w = stored ∨ ∀ s, stored = some s → ∃ v, w = some v ∧ rank s < rank v

end

variable {rank} {stored : Option ε} {es : List ε}

theorem IsWinner.step {e : ε} {w : Option ε}
    (h : IsWinner rank (offer rank stored e) es w) : IsWinner rank stored (e :: es) w := by
  -- split on what the first offer did; a later winner dominates whatever it left
  have hcase : (offer rank stored e = some e ∧ ∀ s, stored = some s → rank s < rank e) ∨
      (offer rank stored e = stored ∧ ∃ s, stored = some s ∧ rank e ≤ rank s) := by
    cases stored with
    | none => exact Or.inl ⟨rfl, fun s hs => by cases hs⟩
    | some s =>
      rcases lt_or_ge (rank s) (rank e) with hlt | hge
      · refine Or.inl ⟨offer_some_of_lt rank hlt, ?_⟩
        intro s' hs'
        cases hs'
        exact hlt
      · exact Or.inr ⟨offer_some_of_le rank hge, s, rfl, hge⟩
  rcases hcase with ⟨ho, hlt⟩ | ⟨ho, s, hs, hle⟩
  · rw [ho] at h
    have hw : ∃ v, w = some v ∧ rank e ≤ rank v := by
      rcases h.start with hw | hw
      · exact ⟨e, hw, le_rfl⟩
      · obtain ⟨v, hv, hlt'⟩ := hw e rfl
        exact ⟨v, hv, hlt'.le⟩
    refine ⟨?_, ?_, ?_⟩
    · rcases h.mem with hw' | ⟨e', he', hw'⟩
      · exact Or.inr ⟨e, mem_cons_self, hw'⟩
      · exact Or.inr ⟨e', mem_cons_of_mem _ he', hw'⟩
    · exact forall_mem_cons.mpr ⟨hw, h.dominates⟩
    · refine Or.inr fun s hs => ?_
      obtain ⟨v, hv, hle⟩ := hw
      exact ⟨v, hv, (hlt s hs).trans_le hle⟩
  · rw [ho] at h
    refine ⟨?_, ?_, h.start⟩
    · rcases h.mem with hw' | ⟨e', he', hw'⟩
      · exact Or.inl hw'
      · exact Or.inr ⟨e', mem_cons_of_mem _ he', hw'⟩
    · intro e' he'
      rcases mem_cons.mp he' with rfl | he'
      · rcases h.start with hw | hw
        · exact ⟨s, hw.trans hs, hle⟩
        · obtain ⟨v, hv, hlt'⟩ := hw s hs
          exact ⟨v, hv, hle.trans hlt'.le⟩
      · exact h.dominates e' he'

/-- Folding offers leaves a winner. -/
theorem offerAll_isWinner (stored : Option ε) (es : List ε) :
    IsWinner rank stored es (offerAll rank stored es) := by
  induction es generalizing stored with
  | nil => exact ⟨Or.inl rfl, forall_mem_nil _, Or.inl rfl⟩
  | cons e es ih => exact (ih (offer rank stored e)).step

/-! ## §3 Uniqueness: order and repetition do not matter -/

/-- With pairwise different ranks the winner is determined by the set of offered entries. -/
theorem IsWinner.unique {w w' : Option ε} {fs : List ε} (hset : ∀ e, e ∈ es ↔ e ∈ fs)
    (hinj : ∀ e ∈ es, ∀ f ∈ es, rank e = rank f → e = f)
    (h : IsWinner rank stored es w) (h' : IsWinner rank stored fs w') : w = w' := by
  -- an offered winner beats a start that survived, unless both are the start
  have start_case : ∀ {es' : List ε} {u u' : Option ε}, IsWinner rank stored es' u →
      (∀ e, e ∈ es → e ∈ es') → u = stored → (∃ e ∈ es, u' = some e) →
      (u' = stored ∨ ∀ s, stored = some s → ∃ v, u' = some v ∧ rank s < rank v) → u = u' := by
    intro es' u u' hu hsub hus hmem hst
    obtain ⟨e, he, rfl⟩ := hmem
    obtain ⟨v, hv, hle⟩ := hu.dominates e (hsub e he)
    rcases hst with hst | hst
    · exact hus.trans hst.symm
    · obtain ⟨v', hv', hlt⟩ := hst v (hus ▸ hv)
      cases hv'
      exact absurd hle (not_le.mpr hlt)
  rcases h.mem with hw | ⟨e, he, hw⟩
  · rcases h'.mem with hw' | ⟨f, hf, hw'⟩
    · exact hw.trans hw'.symm
    · exact start_case h (fun _ he => he) hw ⟨f, (hset f).mpr hf, hw'⟩ h'.start
  · rcases h'.mem with hw' | ⟨f, hf, hw'⟩
    · exact (start_case h' (fun e he => (hset e).mp he) hw' ⟨e, he, hw⟩ h.start).symm
    · subst hw hw'
      obtain ⟨v, hv, hle⟩ := h.dominates f ((hset f).mpr hf)
      obtain ⟨v', hv', hle'⟩ := h'.dominates e ((hset e).mp he)
      cases hv
      cases hv'
      rw [hinj e he f ((hset f).mpr hf) (le_antisymm hle' hle)]

/-- **Order and repetition are irrelevant**: two lists with the same entries leave the same
    register. -/
theorem offerAll_congr {fs : List ε} (hset : ∀ e, e ∈ es ↔ e ∈ fs)
    (hinj : ∀ e ∈ es, ∀ f ∈ es, rank e = rank f → e = f) :
    offerAll rank stored es = offerAll rank stored fs :=
  (offerAll_isWinner stored es).unique hset hinj (offerAll_isWinner stored fs)

end Drakeydb.Lib
