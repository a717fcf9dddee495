import Mathlib.Algebra.BigOperators.Pi

/-!
# Partial Indexes

A partial index tracks a multiset of residents by a bounded number of references and, for the
residents it has no reference for, by a counter. A flag summarises whether there is any resident
at all. References may be stale: what is required is that they and the counter together cover the
residents. `Tracks` is that relation; the lemmas say how it moves when a resident is added or
removed together with its reference, or together with one unit of the counter.
-/

namespace Drakeydb.Lib

open Multiset

variable {α : Type*} [DecidableEq α]

/-- `refs`, `overflow` and `flag` track `residents`: every resident without a reference is paid for
    by the counter, the flag is set as soon as there is a resident, and at most `slack` references
    or units of the counter are stale. -/
structure Tracks (slack : ℕ) (residents refs : Multiset α) (overflow : ℕ) (flag : Bool) :
    Prop where
  covered : card (residents - refs) ≤ overflow
  flagged : residents ≠ 0 → flag = true
  headroom : overflow + card refs ≤ card residents + slack

namespace Tracks

variable {slack overflow : ℕ} {residents refs : Multiset α} {flag : Bool} {x : α}

theorem empty : Tracks slack (0 : Multiset α) 0 0 false where
  covered := by simp
  flagged := fun h => absurd rfl h
  headroom := by simp

/-- **Completeness of the references**: with the counter at zero every resident has one. -/
theorem mem_refs (h : Tracks slack residents refs 0 flag) (hx : x ∈ residents) : x ∈ refs := by
  have hnone : residents - refs = 0 := card_eq_zero.mp (Nat.le_zero.mp h.covered)
  have hle : residents ≤ 0 + refs := Multiset.sub_le_iff_le_add.mp hnone.le
  exact mem_of_le (zero_add refs ▸ hle) hx

section

variable (h : Tracks slack residents refs overflow flag)
include h

/-- A new resident that gets a reference. -/
theorem add_ref : Tracks slack (x ::ₘ residents) (x ::ₘ refs) overflow true where
  covered := by simpa [sub_cons] using h.covered
  flagged := fun _ => rfl
  headroom := by
    have := h.headroom
    simp only [card_cons]
    omega

theorem add_overflow : Tracks slack (x ::ₘ residents) refs (overflow + 1) true where
  covered := by
    -- the new resident adds at most one to what the references leave uncovered
    calc card (x ::ₘ residents - refs)
        ≤ card (x ::ₘ (residents - refs)) := by
          apply card_le_card
          rw [← singleton_add, ← singleton_add]
          exact add_tsub_le_assoc
      _ = card (residents - refs) + 1 := card_cons ..
      _ ≤ overflow + 1 := Nat.succ_le_succ h.covered
  flagged := fun _ => rfl
  headroom := by
    have := h.headroom
    simp only [card_cons]
    omega

end

/-- What the flag becomes after a removal: it falls exactly when nothing is left to point at. -/
theorem flagged_of_covered (hcov : card (residents - refs) ≤ overflow) (hflag : flag = true) :
    residents ≠ 0 → (flag && !decide (refs = 0 ∧ overflow = 0)) = true := by
  intro hne
  rw [hflag, Bool.true_and, Bool.not_eq_true', decide_eq_false_iff_not]
  rintro ⟨rfl, rfl⟩
  rw [Multiset.sub_zero, Nat.le_zero, card_eq_zero] at hcov
  exact hne hcov

theorem remove_ref (h : Tracks slack (x ::ₘ residents) (x ::ₘ refs) overflow flag) :
    Tracks slack residents refs overflow (flag && !decide (refs = 0 ∧ overflow = 0)) := by
  have hcov : card (residents - refs) ≤ overflow := by simpa [sub_cons] using h.covered
  refine ⟨hcov, flagged_of_covered hcov (h.flagged (cons_ne_zero)), ?_⟩
  have := h.headroom
  simp only [card_cons] at this
  omega

/-- A resident without a reference leaves: the counter was positive and goes down. -/
theorem remove_overflow (h : Tracks slack (x ::ₘ residents) refs overflow flag) (hx : x ∉ refs) :
    0 < overflow ∧
      Tracks slack residents refs (overflow - 1)
        (flag && !decide (refs = 0 ∧ overflow - 1 = 0)) := by
  -- the leaving resident was itself among the uncovered ones
  have hsub : x ::ₘ residents - refs = x ::ₘ (residents - refs) := by
    ext a
    by_cases ha : a = x
    · subst ha
      simp [count_eq_zero_of_notMem hx]
    · simp [ha]
  have hcard : card (residents - refs) + 1 ≤ overflow := by
    have := h.covered
    rwa [hsub, card_cons] at this
  have hcov : card (residents - refs) ≤ overflow - 1 := Nat.le_sub_one_of_lt hcard
  refine ⟨by omega, hcov, flagged_of_covered hcov (h.flagged (cons_ne_zero)), ?_⟩
  have := h.headroom
  simp only [card_cons] at this
  omega

end Tracks

/-- Changing one value of a summand: the new value comes in, the old one goes out. -/
theorem sum_exchange {ι β M : Type*} [Fintype ι] [DecidableEq ι] [AddCommMonoid M]
    (F : ι → β → M) (g : ι → β) (x : ι) (b : β) :
    (∑ i, F i (Function.update g x b i)) + F x (g x) = (∑ i, F i (g i)) + F x b := by
  rw [Fintype.sum_eq_add_sum_compl x, Fintype.sum_eq_add_sum_compl x fun i => F i (g i)]
  have hrest : ∑ i ∈ ({x}ᶜ : Finset ι), F i (Function.update g x b i)
      = ∑ i ∈ ({x}ᶜ : Finset ι), F i (g i) := by
    apply Finset.sum_congr rfl
    intro i hi
    rw [Function.update_of_ne (by simpa using hi)]
  rw [hrest, Function.update_self, add_right_comm, add_comm (F x b)]
  exact add_right_comm ..

end Drakeydb.Lib
