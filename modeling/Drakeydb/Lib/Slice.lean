import Mathlib.Data.List.Nodup
import Mathlib.Algebra.Order.Group.Int

/-!
# Slices of a List

`slice i j xs` has the items of `xs` at the places from `i` up to, but not including, `j`. Slices of
a list without duplicates are equal exactly if both are empty or their ends are the same.
-/

namespace Drakeydb.Lib

open List

variable {α β : Type*}

/-- The items from place `i` up to place `j`. -/
def slice (i j : ℕ) (xs : List α) : List α := (xs.take j).drop i

theorem length_slice (i j : ℕ) (xs : List α) : (slice i j xs).length = min j xs.length - i := by
  simp [slice]

variable {xs : List α} {i j : ℕ}

theorem slice_eq_nil_iff : slice i j xs = [] ↔ min j xs.length ≤ i := by
  rw [← length_eq_zero_iff, length_slice, Nat.sub_eq_zero_iff_le]

theorem map_slice (f : α → β) (i j : ℕ) (xs : List α) :
    (slice i j xs).map f = slice i j (xs.map f) := by
  simp [slice, slice]

theorem take_drop_eq_slice (i n : ℕ) (xs : List α) : (xs.drop i).take n = slice i (i + n) xs := by
  rw [slice, take_drop]

theorem take_drop_slice (i j offset limit : ℕ) (xs : List α) :
    ((slice i j xs).drop offset).take limit = slice (i + offset)
    (min j (i + offset + limit)) xs := by
  rw [slice, slice, drop_drop, take_drop, take_take, Nat.min_comm]

theorem getElem?_slice (i j k : ℕ) (xs : List α) :
    (slice i j xs)[k]? = if i + k < j then xs[i + k]? else none := by
  rw [slice, getElem?_drop, getElem?_take]

/-- **Slices of a list without duplicates.** -/
theorem slice_eq_slice_iff (hnodup : xs.Nodup) {i j i' j' : ℕ} (hj : j ≤ xs.length)
    (hj' : j' ≤ xs.length) :
    slice i j xs = slice i' j' xs ↔ (j ≤ i ∧ j' ≤ i') ∨ (i = i' ∧ j = j') := by
  constructor
  · intro heq
    have hlen := congrArg length heq
    rw [length_slice, length_slice, Nat.min_eq_left hj, Nat.min_eq_left hj'] at hlen
    rcases Nat.lt_or_ge i j with hlt | hge
    · have hlt' : i' < j' := by omega
      -- the first items are at one place
      have hhead := congrArg (fun l => l[0]?) heq
      simp only [getElem?_slice, Nat.add_zero, hlt, hlt', ↓reduceIte] at hhead
      rw [getElem?_eq_getElem (by omega), getElem?_eq_getElem (by omega),
        Option.some.injEq, hnodup.getElem_inj_iff] at hhead
      exact .inr ⟨hhead, by omega⟩
    · exact .inl ⟨hge, by omega⟩
  · rintro (⟨hle, hle'⟩ | ⟨rfl, rfl⟩)
    · rw [slice_eq_nil_iff.mpr (by omega), slice_eq_nil_iff.mpr (by omega)]
    · rfl

/-- The items whose places satisfy a condition. -/
def atPlaces (p : ℕ → Bool) (xs : List α) : List α := (xs.zipIdx.filter fun x => p x.2).map Prod.fst

theorem atPlaces_cons (p : ℕ → Bool) (x : α) (xs : List α) :
    atPlaces p (x :: xs) = (if p 0 then [x] else []) ++ atPlaces (fun k => p (k + 1)) xs := by
  have htail : (xs.zipIdx 1) = xs.zipIdx.map fun y => (y.1, y.2 + 1) := by
    rw [zipIdx_succ]
  rw [atPlaces, atPlaces, zipIdx_cons, filter_cons, Nat.zero_add, htail, filter_map]
  cases p 0 <;> simp [Function.comp_def]

theorem atPlaces_congr {p q : ℕ → Bool} (h : ∀ k < xs.length, p k = q k) :
    atPlaces p xs = atPlaces q xs := by
  induction xs generalizing p q with
  | nil => rfl
  | cons x xs ih =>
    rw [atPlaces_cons, atPlaces_cons, h 0 (by simp), ih fun k hk => h (k + 1) (by simpa using hk)]

/-- **The items at the places of an interval.** -/
theorem atPlaces_eq_slice (i j : ℕ) (xs : List α) :
    atPlaces (fun k => decide (i ≤ k ∧ k < j)) xs = slice i j xs := by
  induction xs generalizing i j with
  | nil => simp [atPlaces, slice]
  | cons x xs ih =>
    have htail : (fun k => decide (i ≤ k + 1 ∧ k + 1 < j)) = fun k =>
      decide (i - 1 ≤ k ∧ k < j - 1) := by
      funext k
      exact decide_eq_decide.mpr (by omega)
    rw [atPlaces_cons, htail, ih]
    cases j with
    | zero => simp [slice]
    | succ j => cases i <;> simp [slice]

theorem atPlaces_not_eq (hij : i ≤ j) (xs : List α) :
    atPlaces (fun k => !decide (i ≤ k ∧ k < j)) xs = xs.take i ++ xs.drop j := by
  induction xs generalizing i j with
  | nil => simp [atPlaces]
  | cons x xs ih =>
    have htail : (fun k => !decide (i ≤ k + 1 ∧ k + 1 < j)) = fun k =>
      !decide (i - 1 ≤ k ∧ k < j - 1) := by
      funext k
      exact congrArg Bool.not (decide_eq_decide.mpr (by omega))
    rw [atPlaces_cons, htail, ih (Nat.sub_le_sub_right hij 1)]
    cases j with
    | zero =>
      obtain rfl := Nat.le_zero.mp hij
      simp
    | succ j => cases i <;> simp

end Drakeydb.Lib
