import Mathlib.Data.List.Basic

/-!
# Operations that overwrite each other

Operations come with a key. An operation determines the part of the state that belongs to its key,
whatever was there, and leaves the rest as it was. In a history of such operations an older one with
the same key as a newer one has no effect on the end result: it is enough to remember the last
operation of each key, in order.
-/

namespace Drakeydb.Lib

open List

variable {κ σ S : Type}

/-- What an operation does depends only on the state outside the part of its key, and it changes
nothing else. -/
structure Overwrites (apply : S → κ × σ → S) (Agree : κ → S → S → Prop) : Prop where
  refl : ∀ k x, Agree k x x
  trans : ∀ k x y z, Agree k x y → Agree k y z → Agree k x z
  changes : ∀ k s x, Agree k (apply x (k, s)) x
  keeps : ∀ k x y op, Agree k x y → Agree k (apply x op) (apply y op)
  determines : ∀ k s x y, Agree k x y → apply x (k, s) = apply y (k, s)

variable [DecidableEq κ] {apply : S → κ × σ → S} {Agree : κ → S → S → Prop}

/-- Without the operations of a key the result is the same outside its part. -/
theorem Overwrites.agree_foldl_filter (h : Overwrites apply Agree) (k : κ)
    (ops : List (κ × σ)) {x y : S}
    (hxy : Agree k x y) : Agree k (ops.foldl apply x)
    ((ops.filter fun op => op.1 ≠ k).foldl apply y) := by
  induction ops generalizing x y with
  | nil => exact hxy
  | cons op ops ih =>
    obtain ⟨k', s⟩ := op
    by_cases hk : k' = k
    · -- the operation is left out
      subst hk
      rw [filter_cons_of_neg (by simp), foldl_cons]
      exact ih (h.trans k' _ _ _ (h.changes k' s x) hxy)
    · rw [filter_cons_of_pos (by simpa using hk), foldl_cons, foldl_cons]
      exact ih (h.keeps k x y (k', s) hxy)

/-- **Histories.** Before an operation, those with the same key may be left out. -/
theorem Overwrites.foldl_filter (h : Overwrites apply Agree) (k : κ) (s : σ)
    (ops : List (κ × σ)) (x : S) :
    ((ops.filter fun op => op.1 ≠ k) ++ [(k, s)]).foldl apply x = apply (ops.foldl apply x)
    (k, s) := by
  rw [foldl_append, foldl_cons, foldl_nil]
  exact (h.determines k s _ _ (h.agree_foldl_filter k ops (h.refl k x))).symm

end Drakeydb.Lib
