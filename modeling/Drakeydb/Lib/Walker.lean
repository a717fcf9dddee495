import Mathlib.Data.List.Induction
import Mathlib.Data.List.TakeWhile

/-!
# Positions that Walk through a List

A walker reads the item at a position and steps to a neighbouring one, until there is none. `Ahead`
says which items a walk reads from some position on. The loops over a walker are then functions on
lists, and on a list whose items are ordered by two bounds they compute the items between the
bounds.
-/

namespace Drakeydb.Lib

open List

variable {π α : Type*}

/-- What can be read at a position and where the walk goes from there. -/
structure Walker (π α : Type*) where
  read : π → Option α
  step : π → Option π

variable {fuel : ℕ} {q : π}

namespace Walker

variable (w : Walker π α)

/-- The items that the walk reads from a position on; past the end there is no position. -/
inductive Ahead : Option π → List α → Prop where
  | done : Ahead none []
  | item {p : π} {x : α} {xs : List α} (hread : w.read p = some x) (hrest : Ahead (w.step p) xs) :
      Ahead (some p) (x :: xs)

/-! ## §1 Loops -/

/-- A number of steps, fewer if the walk ends. -/
def skip : ℕ → Option π → Option π
  | 0, p => p
  | _ + 1, none => none
  | n + 1, some p => skip n (w.step p)

/-- Steps up to the first item with a property. -/
def seek (found : α → Bool) : ℕ → Option π → Option π
  | 0, _ => none
  | _ + 1, none => none
  | fuel + 1, some p =>
    if (w.read p).any found then some p else seek found fuel (w.step p)

/-- The items of at most `limit` positions, until one is to stop at. `none` where nothing can be
read. -/
def collect (stop : α → Bool) : ℕ → Option π → Option (List α)
  | 0, _ => some []
  | _ + 1, none => some []
  | limit + 1, some p =>
    match w.read p with
    | none => none
    | some x => if stop x then some [] else (collect stop limit (w.step p)).map (x :: ·)

/-- The first position whose item is in the lower bound, if it is also in the upper one. -/
def locate (lo hi : α → Bool) (fuel : ℕ) (p : Option π) : Option π :=
  match w.seek lo fuel p with
  | none => none
  | some q => if (w.read q).any hi then some q else none

variable {w} {p : Option π} {xs ys : List α}

theorem Ahead.unique (h : w.Ahead p xs) (h' : w.Ahead p ys) : xs = ys := by
  induction h generalizing ys with
  | done => cases h'; rfl
  | item hread _ ih =>
    cases h' with
    | item hread' hrest' =>
      rw [hread] at hread'
      rw [Option.some.inj hread', ih hrest']

theorem Ahead.read_eq (h : w.Ahead (some q) xs) : w.read q = xs.head? := by
  cases h with
  | item hread _ => simp [hread]

theorem Ahead.exists_read (h : w.Ahead (some q) xs) : ∃ x, w.read q = some x := by
  cases h with
  | item hread _ => exact ⟨_, hread⟩

/-- Skipping drops from the list ahead. -/
theorem Ahead.skip (h : w.Ahead p xs) (n : ℕ) : w.Ahead (w.skip n p) (xs.drop n) := by
  induction n generalizing p xs with
  | zero => exact h
  | succ n ih =>
    cases h with
    | done => exact .done
    | item _ hrest => exact ih hrest

theorem Ahead.seek (h : w.Ahead p xs) (found : α → Bool) (hfuel : xs.length ≤ fuel) :
    w.Ahead (w.seek found fuel p) (xs.dropWhile fun x => !found x) := by
  induction h generalizing fuel with
  | done => cases fuel <;> exact .done
  | @item p x xs hread hrest ih =>
    cases fuel with
    | zero => exact absurd hfuel (Nat.not_succ_le_zero _)
    | succ fuel =>
      simp only [Walker.seek, hread, Option.any_some, dropWhile_cons]
      cases found x with
      | true => exact .item hread hrest
      | false => exact ih (Nat.le_of_succ_le_succ hfuel)

theorem Ahead.collect (h : w.Ahead p xs) (stop : α → Bool) (limit : ℕ) :
    w.collect stop limit p = some ((xs.take limit).takeWhile fun x => !stop x) := by
  induction limit generalizing p xs with
  | zero => simp [Walker.collect]
  | succ limit ih =>
    cases h with
    | done => simp [Walker.collect]
    | item hread hrest =>
      simp only [Walker.collect, hread, ih hrest, Option.map_some, take_succ_cons, takeWhile_cons]
      split <;> simp_all

end Walker

/-! ## §2 Bounds -/

/-- From some item on, every item has the property. -/
def FromSome (lo : α → Bool) (xs : List α) : Prop :=
  xs.Pairwise fun a b => lo a = true → lo b = true

/-- Up to some item, every item has the property. -/
def UpToSome (hi : α → Bool) (xs : List α) : Prop :=
  xs.Pairwise fun a b => hi b = true → hi a = true

variable {lo hi : α → Bool} {xs : List α}

theorem FromSome.reverse (h : FromSome lo xs) : UpToSome lo xs.reverse := pairwise_reverse.mpr h

theorem UpToSome.reverse (h : UpToSome hi xs) : FromSome hi xs.reverse := pairwise_reverse.mpr h

theorem UpToSome.dropWhile (h : UpToSome hi xs) (p : α → Bool) : UpToSome hi (xs.dropWhile p) :=
  h.sublist (dropWhile_sublist p)

theorem FromSome.dropWhile_eq_filter (h : FromSome lo xs) :
    (xs.dropWhile fun x => !lo x) = xs.filter lo := by
  induction xs with
  | nil => rfl
  | cons x xs ih =>
    obtain ⟨hhead, htail⟩ := pairwise_cons.mp h
    rw [dropWhile_cons, filter_cons]
    cases hx : lo x with
    | true => simpa using (filter_eq_self.mpr fun y hy => hhead y hy hx).symm
    | false => simpa using ih htail

theorem FromSome.eq_false_of_getLast? (h : FromSome lo xs) (hlast : xs.getLast?.any lo = false) :
    ∀ x ∈ xs, lo x = false := by
  induction xs using reverseRecOn with
  | nil => simp
  | append_singleton xs y ih =>
    obtain ⟨hinit, -, hbefore⟩ := pairwise_append.mp h
    have hy : lo y = false := by simpa using hlast
    intro x hx
    rcases mem_append.mp hx with hx | hx
    · exact Bool.eq_false_iff.mpr fun htrue => by
        simp [hbefore x hx y (mem_singleton_self y) htrue] at hy
    · rwa [mem_singleton.mp hx]

section

variable (h : UpToSome hi xs)
include h

theorem UpToSome.eq_false_of_head? (hfirst : xs.head?.any hi = false) : ∀ x ∈ xs, hi x = false := by
  intro x hx
  refine h.reverse.eq_false_of_getLast? ?_ x (mem_reverse.mpr hx)
  rwa [getLast?_reverse]

theorem UpToSome.exists_append :
    ∃ ins outs, xs = ins ++ outs ∧ (∀ x ∈ ins, hi x = true) ∧ ∀ x ∈ outs, hi x = false := by
  induction xs with
  | nil => exact ⟨[], [], by simp⟩
  | cons x xs ih =>
    obtain ⟨hhead, htail⟩ := pairwise_cons.mp h
    cases hx : hi x with
    | true =>
      obtain ⟨ins, outs, rfl, hins, houts⟩ := ih htail
      exact ⟨x :: ins, outs, rfl, by simpa [hx] using hins, houts⟩
    | false =>
      refine ⟨[], x :: xs, rfl, by simp, fun y hy => ?_⟩
      rcases mem_cons.mp hy with rfl | hy
      · exact hx
      · exact Bool.eq_false_iff.mpr fun htrue => by simp [hhead y hy htrue] at hx

/-- The first items in the bound, after some that are skipped without a look at them. -/
theorem UpToSome.takeWhile_take_drop (offset limit : ℕ) :
    ((xs.drop offset).take limit).takeWhile hi = ((xs.filter hi).drop offset).take limit := by
  obtain ⟨ins, outs, rfl, hins, houts⟩ := h.exists_append
  have hrest : ∀ a b, ((outs.drop a).take b).takeWhile hi = [] := by
    intro a b
    -- none of the items behind is in the bound
    cases hpart : (outs.drop a).take b with
    | nil => rfl
    | cons y ys =>
      have hy : y ∈ outs := mem_of_mem_drop (mem_of_mem_take (hpart ▸ mem_cons_self ..))
      simp [houts y hy]
  have hfront : ∀ x ∈ (ins.drop offset).take limit, hi x = true := fun x hx =>
    hins x (mem_of_mem_drop (mem_of_mem_take hx))
  rw [drop_append, take_append, takeWhile_append_of_pos hfront, hrest,
    filter_append, filter_eq_self.mpr hins, filter_eq_nil_iff.mpr]
  · simp
  · intro x hx
    simp [houts x hx]

theorem UpToSome.takeWhile_eq_filter : xs.takeWhile hi = xs.filter hi := by
  have hall := h.takeWhile_take_drop 0 xs.length
  rwa [drop_zero, drop_zero, take_length, take_of_length_le (length_filter_le _ _)] at hall

end

/-- **Skipping and collecting between two bounds.** -/
theorem window_eq (hlo : FromSome lo xs) (hhi : UpToSome hi xs) (offset limit : ℕ) :
    (((xs.dropWhile fun x => !lo x).drop offset).take limit).takeWhile hi =
      ((xs.filter fun x => lo x && hi x).drop offset).take limit := by
  rw [(hhi.dropWhile _).takeWhile_take_drop, hlo.dropWhile_eq_filter, filter_filter]
  simp [Bool.and_comm]

variable {p : α → Bool} (A B : List α) (x : α)

theorem getElem?_length : (A ++ x :: B)[A.length]? = some x := by simp

theorem set_length (x y : α) : (A ++ x :: B).set A.length y = A ++ y :: B := by simp

theorem eraseIdx_length : (A ++ x :: B).eraseIdx A.length = A ++ B := by
  simp [eraseIdx_append_of_length_le]

theorem forall_mem_append_cons {A B : List α} {x : α} {P : α → Prop} :
    (∀ y ∈ A ++ x :: B, P y) ↔ P x ∧ ∀ y ∈ A ++ B, P y := by
  simp only [forall_mem_append, forall_mem_cons, and_left_comm]

theorem modify_length (f : α → α) : (A ++ x :: B).modify A.length f = A ++ f x :: B := by
  induction A with
  | nil => rfl
  | cons a A ih => exact congrArg (a :: ·) ih

theorem dropWhile_append_cons {A B : List α} {x : α} (hA : ∀ a ∈ A, p a = true)
    (hx : p x = false) : (A ++ x :: B).dropWhile p = x :: B := by
  rw [dropWhile_append_of_pos hA, dropWhile_cons_of_neg (by simp [hx])]

theorem dropWhile_const_false (xs : List α) : (xs.dropWhile fun _ => false) = xs := by
  cases xs <;> rfl

theorem takeWhile_append_cons {A B : List α} {x : α} (hA : ∀ a ∈ A, p a = true)
    (hx : p x = false) : (A ++ x :: B).takeWhile p = A := by
  rw [takeWhile_append_of_pos hA, takeWhile_cons_of_neg (by simp [hx]), append_nil]

theorem takeWhile_append_of_neg {A B : List α} (hA : ∀ a ∈ A, p a = true)
    (hB : ∀ b ∈ B, p b = false) : (A ++ B).takeWhile p = A := by
  rw [takeWhile_append_of_pos hA]
  cases B with
  | nil => simp
  | cons b B => rw [takeWhile_cons_of_neg (by simp [hB b]), append_nil]

/-- From the first item that is not before a query on, the items of a bound follow, without the
first one if the bound is open and ends there. -/
theorem dropWhile_of_end {before isEnd : α → Bool}
    (hlo : ∀ x, lo x = true ↔ before x = false ∧ isEnd x = false)
    (hrest : xs.Pairwise fun a b => before a = false → lo b = true) :
    (xs.dropWhile fun x => !lo x) = match xs.dropWhile before with
      | [] => []
      | x :: ys => if isEnd x then ys else x :: ys := by
  induction xs with
  | nil => rfl
  | cons x xs ih =>
    obtain ⟨hhead, htail⟩ := pairwise_cons.mp hrest
    have hx' : lo x = (!before x && !isEnd x) := Bool.eq_iff_iff.mpr (by simpa using hlo x)
    rw [dropWhile_cons, dropWhile_cons, hx']
    cases hx : before x with
    | true => exact ih htail
    | false =>
      have hself : (xs.dropWhile fun x => !lo x) = xs :=
        dropWhile_eq_self_iff.mpr fun hlen => by simp [hhead _ (getElem_mem hlen) hx]
      cases hend : isEnd x <;> simp [hend, hself]

/-- The number of items between two bounds, as the difference of two ranks. -/
theorem length_filter_window (hlo : FromSome lo xs) (hhi : UpToSome hi xs) :
    (xs.filter fun x => lo x && hi x).length =
      (xs.takeWhile hi).length - (xs.takeWhile fun x => !lo x).length := by
  induction xs with
  | nil => rfl
  | cons x xs ih =>
    obtain ⟨hlohead, hlotail⟩ := pairwise_cons.mp hlo
    obtain ⟨hhihead, hhitail⟩ := pairwise_cons.mp hhi
    cases hx : lo x with
    | true =>
      -- all items are in the lower bound
      have hall : ∀ y ∈ x :: xs, lo y = true := by simpa [hx] using fun y hy => hlohead y hy hx
      rw [hhi.takeWhile_eq_filter, takeWhile_cons_of_neg (by simp [hx]),
        filter_congr fun y hy => by rw [hall y hy, Bool.true_and]]
      rfl
    | false =>
      cases hy : hi x with
      | true => simpa [hx, hy] using ih hlotail hhitail
      | false =>
        -- no item is in the upper bound
        have hnone : ∀ y ∈ xs, hi y = false := fun y hmem =>
          Bool.eq_false_iff.mpr fun htrue => by simp [hhihead y hmem htrue] at hy
        simp [hx, hy]
        exact fun y hmem _ => hnone y hmem

theorem remove_window_eq (hlo : FromSome lo xs) (hhi : UpToSome hi xs) :
    (xs.takeWhile fun x => !lo x) ++ (xs.dropWhile fun x => !lo x).dropWhile hi =
      xs.filter fun x => !(lo x && hi x) := by
  induction xs with
  | nil => rfl
  | cons x xs ih =>
    obtain ⟨hlohead, hlotail⟩ := pairwise_cons.mp hlo
    obtain ⟨hhihead, hhitail⟩ := pairwise_cons.mp hhi
    cases hx : lo x with
    | false => simpa [hx] using ih hlotail hhitail
    | true =>
      -- from here on all items are in the lower bound
      have hall : ∀ y ∈ x :: xs, lo y = true := by simpa [hx] using fun y hy => hlohead y hy hx
      rw [takeWhile_cons_of_neg (by simp [hx]), dropWhile_cons_of_neg (by simp [hx]),
        nil_append, filter_congr fun y hy => by rw [hall y hy, Bool.true_and]]
      have hrest : FromSome (fun y => !hi y) (x :: xs) := hhi.imp fun h => by simpa using mt h
      rw [← hrest.dropWhile_eq_filter]
      simp

namespace Walker

variable {w : Walker π α} {p : Option π}

theorem Ahead.locate (h : w.Ahead p xs) (hlo : FromSome lo xs) (hhi : UpToSome hi xs)
    (hfuel : xs.length ≤ fuel) :
    (w.locate lo hi fuel p = none ∧ xs.filter (fun x => lo x && hi x) = []) ∨
      ∃ q, w.locate lo hi fuel p = some q ∧ w.Ahead (some q) (xs.dropWhile fun x => !lo x) := by
  have hseek := h.seek lo hfuel
  have hrest := hhi.dropWhile fun x => !lo x
  have hfilter : xs.filter (fun x => lo x && hi x) = (xs.dropWhile fun x => !lo x).filter hi := by
    rw [hlo.dropWhile_eq_filter, filter_filter]
    simp [Bool.and_comm]
  simp only [Walker.locate, hfilter]
  generalize (xs.dropWhile fun x => !lo x) = ys at *
  cases hq : w.seek lo fuel p with
  | none =>
    rw [hq] at hseek
    cases hseek
    exact .inl ⟨rfl, rfl⟩
  | some q =>
    rw [hq] at hseek
    cases hys : ys with
    | nil => rw [hys] at hseek; cases hseek
    | cons y rest =>
      rw [hys] at hseek hrest
      simp only [hseek.read_eq, head?_cons, Option.any_some]
      cases hy : hi y with
      | true => exact .inr ⟨q, rfl, hseek⟩
      | false =>
        refine .inl ⟨rfl, filter_eq_nil_iff.mpr fun z hz => ?_⟩
        rcases mem_cons.mp hz with rfl | hz
        · simp [hy]
        · exact fun hzhi => by simp [(pairwise_cons.mp hrest).1 z hz hzhi] at hy

/-- **A query between two bounds**: the first position between them, then skipping and
collecting. -/
theorem Ahead.collect_locate (h : w.Ahead p xs) (hlo : FromSome lo xs) (hhi : UpToSome hi xs)
    (hfuel : xs.length ≤ fuel) (offset limit : ℕ) :
    w.collect (fun x => !hi x) limit (w.skip offset (w.locate lo hi fuel p)) =
      some (((xs.filter fun x => lo x && hi x).drop offset).take limit) := by
  rcases h.locate hlo hhi hfuel with ⟨hnone, hempty⟩ | ⟨q, hq, hahead⟩
  · rw [hnone, hempty, (Ahead.done.skip offset).collect]
    simp
  · rw [hq, (hahead.skip offset).collect, ← window_eq hlo hhi]
    simp

end Walker

end Drakeydb.Lib
