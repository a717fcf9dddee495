import Mathlib.Data.Multiset.Filter

/-!
# Matchings

`Multiset.Rel r s t` says that the elements of `s` can be paired with those of `t`, each with one it
may be paired with. Here are the rules for a set of places in which each of a set of items has one:
a place may be given up for an equally good one, and an item may leave with a place that is not its
own if whoever has that place can take over.
-/

namespace Drakeydb.Lib.Matching

open Multiset

variable {α β : Type} {r : α → β → Prop} {s : Multiset α} {t : Multiset β}

/-- **A place may be exchanged for one that is as good.** -/
theorem rel_cons_right_of_imp {b b' : β} (h : Rel r s (b ::ₘ t)) (himp : ∀ a, r a b → r a b') :
    Rel r s (b' ::ₘ t) := by
  obtain ⟨a, s', hab, hrest, rfl⟩ := rel_cons_right.mp h
  exact .cons (himp a hab) hrest

/-- **An item leaves with a place**: if that place has another item, this one takes the place of the
item that left. -/
theorem rel_erase [DecidableEq α] [DecidableEq β] {a : α} {b : β} (h : Rel r s t) (ha : a ∈ s)
    (hb : b ∈ t)
    (hswap : ∀ a' b', r a b' → b' ∈ t → r a' b → r a' b') : Rel r (s.erase a) (t.erase b) := by
  obtain ⟨s', rfl⟩ := Multiset.exists_cons_of_mem ha
  obtain ⟨own, t', hown, hrest, rfl⟩ := rel_cons_left.mp h
  rw [erase_cons_head]
  by_cases heq : own = b
  · rwa [heq, erase_cons_head]
  · have hmem : b ∈ t' := (mem_cons.mp hb).resolve_left fun h => heq h.symm
    obtain ⟨t'', rfl⟩ := Multiset.exists_cons_of_mem hmem
    obtain ⟨a', s'', ha', hrest', rfl⟩ := rel_cons_right.mp hrest
    rw [cons_swap, erase_cons_head]
    exact .cons (hswap a' own hown (mem_cons_self own _) ha') hrest'

/-- **The items of one kind** have at least as many places. -/
theorem countP_le_of_rel {p : α → Prop} {q : β → Prop} [DecidablePred p] [DecidablePred q]
    (h : Rel r s t) (himp : ∀ a b, r a b → p a → q b) : s.countP p ≤ t.countP q := by
  induction h with
  | zero => exact Nat.le_refl 0
  | @cons a b s t hab _ ih =>
    rw [countP_cons, countP_cons]
    split
    case isTrue hp => rw [if_pos (himp a b hab hp)]; omega
    case isFalse => omega

end Drakeydb.Lib.Matching
