import Mathlib

/-!
# Flat memory

A memory is a function from addresses to cells. Blocks are read into lists and written from lists;
what a block holds depends only on its own addresses.
-/

namespace Drakeydb.Lib

open List Function

variable {α : Type*}

/-- The block of `n` cells at `p`. -/
def readAt (mem : ℕ → α) (p : ℕ) : ℕ → List α
  | 0 => []
  | n + 1 => mem p :: readAt mem (p + 1) n

/-- Write the cells at `p`, from the lowest address up. -/
def writeAt (mem : ℕ → α) (p : ℕ) : List α → ℕ → α
  | [] => mem
  | x :: xs => writeAt (Function.update mem p x) (p + 1) xs

variable (mem : ℕ → α)

@[simp] theorem readAt_length (p n : ℕ) : (readAt mem p n).length = n := by
  induction n generalizing p with
  | zero => rfl
  | succ n ih => simp [readAt, ih]

theorem readAt_congr {mem mem' : ℕ → α} {p n : ℕ}
    (h : ∀ a, p ≤ a → a < p + n → mem a = mem' a) : readAt mem p n = readAt mem' p n := by
  induction n generalizing p with
  | zero => rfl
  | succ n ih =>
    rw [readAt, readAt, h p le_rfl (by omega), ih fun a ha hlt => h a (by omega) (by omega)]

/-- Writing two blocks one after the other. -/
theorem writeAt_append (p : ℕ) (xs ys : List α) :
    writeAt mem p (xs ++ ys) = writeAt (writeAt mem p xs) (p + xs.length) ys := by
  induction xs generalizing mem p with
  | nil => rfl
  | cons x xs ih =>
    rw [cons_append, writeAt, ih, writeAt, length_cons]
    congr 1
    omega

theorem writeAt_of_lt {p a : ℕ} (xs : List α) (h : a < p) : writeAt mem p xs a = mem a := by
  induction xs generalizing mem p with
  | nil => rfl
  | cons x xs ih => rw [writeAt, ih _ (by omega), update_of_ne (by omega)]

theorem writeAt_of_le {p a : ℕ} (xs : List α) (h : p + xs.length ≤ a) :
    writeAt mem p xs a = mem a := by
  induction xs generalizing mem p with
  | nil => rfl
  | cons x xs ih =>
    rw [length_cons] at h
    rw [writeAt, ih _ (by omega), update_of_ne (by omega)]

/-- A block holds what was written to it. -/
@[simp] theorem readAt_writeAt (p : ℕ) (xs : List α) :
    readAt (writeAt mem p xs) p xs.length = xs := by
  induction xs generalizing mem p with
  | nil => rfl
  | cons x xs ih =>
    rw [writeAt, length_cons, readAt, ih, writeAt_of_lt _ _ (by omega), update_self]

/-- Writing below a block leaves it alone. -/
theorem readAt_writeAt_of_le {p q n : ℕ} {xs : List α} (h : p + xs.length ≤ q) :
    readAt (writeAt mem p xs) q n = readAt mem q n :=
  readAt_congr fun _ ha _ => writeAt_of_le _ _ (by omega)

theorem readAt_update_of_lt {p q n : ℕ} (x : α) (h : p < q) :
    readAt (Function.update mem p x) q n = readAt mem q n :=
  readAt_congr fun _ ha _ => update_of_ne (by omega) _ _

end Drakeydb.Lib
