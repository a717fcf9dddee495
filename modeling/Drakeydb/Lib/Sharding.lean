import Mathlib.Algebra.BigOperators.Fin

/-!
# Folding shard by shard

The keys of a command are spread over shards. In a commutative monoid the values may be multiplied
inside each shard first and then across the shards, whatever the assignment is.
-/

namespace Drakeydb.Lib.Sharding

variable {κ M : Type*} {n : ℕ}

/-- The keys of one shard, in the order of the command. -/
def onShard (shard : κ → Fin n) (keys : List κ) (sid : Fin n) : List κ :=
  keys.filter fun key => shard key = sid

theorem mem_onShard {shard : κ → Fin n} {keys : List κ} {sid : Fin n} {key : κ} :
    key ∈ onShard shard keys sid ↔ key ∈ keys ∧ shard key = sid := by
  simp [onShard]

/-- **A product over all keys is the product of the shards' products.** -/
theorem prod_map_eq_prod_shards [CommMonoid M] (shard : κ → Fin n) (f : κ → M) (keys : List κ) :
    (keys.map f).prod = ∏ sid, ((onShard shard keys sid).map f).prod := by
  induction keys with
  | nil => simp [onShard]
  | cons key keys ih =>
    -- a key is a factor of its own shard only
    have hstep : ∀ sid, ((onShard shard (key :: keys) sid).map f).prod =
        (if shard key = sid then f key else 1) * ((onShard shard keys sid).map f).prod := by
      intro sid
      by_cases h : shard key = sid <;> simp [onShard, h]
    simp only [hstep, Finset.prod_mul_distrib]
    simp [ih]

end Drakeydb.Lib.Sharding
