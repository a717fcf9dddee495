import Drakeydb.BPTreeSet.Changes
import Drakeydb.Lib.Run
import Drakeydb.Lib.Walker

/-!
# The B+ tree is an ordered set with ranks

After any sequence of changes the tree stands for a strictly sorted list, and every public function
computes on the tree what its description says about that list. The one exception is `Contains`,
which does not test for a missing root.
-/

namespace Drakeydb.BPTreeSet

open List Option

open Lib (run RunAll Walker)

variable {α : Type} {L : Layout} {a b : ℕ}

namespace BPTree

variable {t : BPTree α} {path : Path} {A B : List α} {x : α}

/-! ## §1 Paths into a tree -/

/-- A path to the item `x` of a tree, with the items before and after it. -/
def Points (t : BPTree α) (path : Path) (A : List α) (x : α) (B : List α) : Prop :=
  ∃ root, t.root = some root ∧ root.2.Points path A x B

section

variable (hp : t.Points path A x B)
include hp

theorem Points.terminal_eq : t.terminal path = some x := by
  obtain ⟨root, hroot, hp⟩ := hp
  rw [terminal, hroot]
  exact hp.terminal_eq

theorem Points.toList_eq : t.toList = A ++ x :: B := by
  obtain ⟨root, hroot, hp⟩ := hp
  rw [toList, hroot]
  exact hp.toList_eq

theorem Points.ne_nil : path ≠ [] := by
  obtain ⟨root, hroot, hp⟩ := hp
  exact hp.cut.ne_nil

end

theorem points_of_terminal (hterm : t.terminal path = some x) : ∃ A B, t.Points path A x B := by
  obtain ⟨root, hroot, hterm⟩ := bind_eq_some_iff.mp hterm
  obtain ⟨A, B, hp⟩ := Node.points_of_terminal hterm
  exact ⟨A, B, root, hroot, hp⟩

theorem terminal_nil (t : BPTree α) : t.terminal [] = none := by
  cases hroot : t.root with
  | none => rw [terminal, hroot]; rfl
  | some root =>
    obtain ⟨h, n⟩ := root
    rw [terminal, hroot]
    cases h <;> rfl

/-- `Next` points to the item after, if there is one. -/
theorem Points.next (hok : t.Ok L) (hp : t.Points path A x B) :
    (t.next path = [] ∧ B = []) ∨ ∃ y B', B = y :: B' ∧ t.Points (t.next path) (A ++ [x]) y B' := by
  obtain ⟨root, hroot, hp⟩ := hp
  obtain ⟨C, hC, hnext⟩ := hp.cut.next_spec (hok.root_ok root hroot).1.children
  rw [hp.terminal_eq] at hC hnext
  obtain rfl : B = C := (cons.inj hC).2
  have heq : t.next path = root.2.next path := by rw [BPTree.next, hroot]; rfl
  rw [heq]
  rcases hnext with hnil | ⟨y, B', rfl, hp'⟩
  · exact .inl hnil
  · exact .inr ⟨y, B', rfl, root, hroot, hp'⟩

theorem Points.prev (hok : t.Ok L) (hp : t.Points path A x B) :
    (t.prev path = [] ∧ A = []) ∨ ∃ A' y, A = A' ++ [y] ∧ t.Points (t.prev path) A' y (x :: B) := by
  obtain ⟨root, hroot, hp⟩ := hp
  have heq : t.prev path = root.2.prev path := by rw [BPTree.prev, hroot]; rfl
  rw [heq]
  rcases hp.cut.prev_spec (hok.root_ok root hroot).1.children with hnil | ⟨A', y, rfl, hp'⟩
  · exact .inl hnil
  · exact .inr ⟨A', y, rfl, root, hroot, hp'⟩

theorem Ok.fromRank (hok : t.Ok L) {r : ℕ} (hr : r < t.toList.length) :
    ∃ A x B, t.Points (t.fromRank r) A x B ∧ A.length = r := by
  cases hroot : t.root with
  | none =>
    rw [toList_of_none hroot] at hr
    exact absurd hr (Nat.not_lt_zero _)
  | some root =>
    obtain ⟨hs, hpos⟩ := hok.root_ok root hroot
    have hlist := toList_of_some hroot
    rw [hlist] at hr
    have heq : t.fromRank r = if r + 1 = t.count then root.2.digRight else root.2.toRank r := by
      rw [BPTree.fromRank, hroot]
      rfl
    rw [heq]
    split
    case isTrue hlast =>
      obtain ⟨A, x, hp⟩ := Node.digRight_points hpos hs.children
      refine ⟨A, x, [], ⟨root, hroot, hp⟩, ?_⟩
      rw [hok.count_eq, hlist, hp.toList_eq, length_append, length_singleton] at hlast
      exact (Nat.succ_injective hlast).symm
    case isFalse =>
      obtain ⟨A, x, B, hp, hlen⟩ := Node.toRank_points hs.children hr
      exact ⟨A, x, B, ⟨root, hroot, hp⟩, hlen⟩

/-! ## §2 Iteration -/

/-- The calls of a callback over a list, until it asks to stop, and the result of the iteration. -/
def visit (cb : α → Bool) : List α → List α × Bool
  | [] => ([], true)
  | x :: xs => if cb x then (x :: (visit cb xs).1, (visit cb xs).2) else ([x], false)

section

variable (hok : t.Ok L)
include hok

theorem iterateLoop_eq (cb : α → Bool) (rounds : ℕ) (hp : t.Points path A x B) :
    t.iterateLoop cb (rounds + 1) path = some (visit cb ((x :: B).take (rounds + 1))) := by
  induction rounds generalizing path A x B with
  | zero =>
    rw [iterateLoop, hp.terminal_eq]
    cases hcb : cb x <;> simp [visit, hcb, iterateLoop]
  | succ rounds ih =>
    rw [iterateLoop, hp.terminal_eq]
    cases hcb : cb x with
    | false => simp [visit, hcb]
    | true =>
      rcases hp.next hok with ⟨hnil, rfl⟩ | ⟨y, B', rfl, hp'⟩
      · simp [visit, hcb, hnil]
      · simp [↓reduceIte, hp'.ne_nil, ih hp', visit, hcb]

theorem iterateReverseLoop_eq (cb : α → Bool) {rounds : ℕ} (hp : t.Points path A x B)
    (hle : rounds ≤ A.length) :
    t.iterateReverseLoop cb (rounds + 1) path =
      some (visit cb ((x :: A.reverse).take (rounds + 1))) := by
  induction rounds generalizing path A x B with
  | zero =>
    rw [iterateReverseLoop, hp.terminal_eq]
    cases hcb : cb x <;> simp [visit, hcb, iterateReverseLoop]
  | succ rounds ih =>
    rw [iterateReverseLoop, hp.terminal_eq]
    cases hcb : cb x with
    | false => simp [visit, hcb]
    | true =>
      rcases hp.prev hok with ⟨-, rfl⟩ | ⟨A', y, rfl, hp'⟩
      · exact absurd hle (Nat.not_succ_le_zero _)
      · rw [length_append, length_singleton] at hle
        simp only [Bool.not_true, Bool.false_eq_true, ↓reduceIte, ih hp' (by omega),
          map_some, take_succ_cons, reverse_append, reverse_singleton, singleton_append, visit, hcb]

theorem Ok.iterate (hab : a ≤ b) (cb : α → Bool) :
    t.iterate a b cb = some (visit cb ((t.toList.drop a).take (b + 1 - a))) := by
  rw [BPTree.iterate, size, hok.count_eq]
  split
  case isTrue hge => rw [drop_eq_nil_of_le hge, take_nil]; rfl
  case isFalse hlt =>
    obtain ⟨A, x, B, hp, rfl⟩ := hok.fromRank (Nat.lt_of_not_le hlt)
    rw [show b + 1 - A.length = (b - A.length) + 1 by omega, iterateLoop_eq hok cb _ hp,
      hp.toList_eq, drop_left]

theorem Ok.iterateReverse (hab : a ≤ b) (hb : b < t.toList.length) (cb : α → Bool) :
    t.iterateReverse a b cb = some (visit cb ((t.toList.reverse.drop a).take (b + 1 - a))) := by
  obtain ⟨A, x, B, hp, hlen⟩ := hok.fromRank (r := t.toList.length - 1 - a) (by omega)
  have hcut := hp.toList_eq
  have hBlen : B.reverse.length = a := by
    rw [hcut] at hlen hb
    simp only [length_append, length_cons, length_reverse] at hlen hb ⊢
    omega
  have hrev : t.toList.reverse.drop a = x :: A.reverse := by
    rw [hcut, reverse_append, reverse_cons, append_assoc, ← hBlen, drop_left]
    rfl
  rw [BPTree.iterateReverse, hok.count_eq, hrev, show b + 1 - a = (b - a) + 1 by omega]
  refine iterateReverseLoop_eq hok cb hp ?_
  omega

/-! ## §3 Queries -/

theorem Ok.toList_ne_nil {root : Sigma (Node α)} (hroot : t.root = some root) : t.toList ≠ [] := by
  rw [toList, hroot]
  exact ne_nil_of_length_pos (toList_length_pos (hok.root_ok root hroot).2)

end

theorem Ok.exists_root (hne : t.toList ≠ []) : ∃ h n, t.root = some ⟨h, n⟩ ∧
    t.toList = n.toList := by
  cases hroot : t.root with
  | none => exact absurd (toList_of_none hroot) hne
  | some root => exact ⟨root.1, root.2, rfl, toList_of_some hroot⟩

theorem find?_append_cons {p : α → Bool} (hA : ∀ a ∈ A, p a = false) (hx : p x = true) :
    (A ++ x :: B).find? p = some x := by
  rw [find?_append, find?_eq_none.mpr (by simpa using hA), none_or, find?_cons_of_pos hx]

variable {cut : α → Ordering}

/-- `GEQ` leads nowhere, or to the first item that the query is not above. -/
theorem Ok.geq_cases (hok : t.Ok L) (hcuts : Node.Cuts cut t.toList) (hne : t.toList ≠ []) :
    (t.geq cut = some [] ∧ ∀ y ∈ t.toList, cut y = .gt) ∨
      ∃ path A x B, t.geq cut = some path ∧ t.Points path A x B ∧ (∀ a ∈ A, cut a = .gt) ∧
        cut x ≠ .gt := by
  obtain ⟨h, n, hroot, hlist⟩ := Ok.exists_root hne
  obtain ⟨hs, hpos⟩ := hok.root_ok _ hroot
  have hgeq : t.geq cut = (n.locate cut).map fun res =>
      if !res.1 && (t.terminal res.2).isNone then t.next res.2 else res.2 := by
    rw [geq, locate, hroot]
    rfl
  rw [hgeq]
  rcases Node.locate_spec hpos hs.children (hlist ▸ hcuts) with
    ⟨path, A, x, B, hloc, hp, hx⟩ | ⟨path, A, B, hloc, hat, -, hA, hB⟩
  · have hp' : t.Points path A x B := ⟨_, hroot, hp⟩
    exact .inr ⟨path, A, x, B, by rw [hloc]; rfl, hp',
      (hp'.toList_eq ▸ hcuts).before (by rw [hx]; decide), by rw [hx]; decide⟩
  · have hterm : t.terminal path = n.terminal path := by rw [terminal, hroot]; rfl
    have hnext : t.next path = n.next path := by rw [next, hroot]; rfl
    have hfirst : ∀ y B', B = y :: B' → cut y ≠ .gt := by
      rintro y B' rfl
      rw [hB y mem_cons_self]
      decide
    rw [hloc, map_some]
    cases hx : n.terminal path with
    | some x =>
      obtain ⟨B', rfl⟩ := hat.exists_cons hx
      exact .inr ⟨path, A, x, B', by simp [hterm, hx], ⟨_, hroot, hat, hx⟩, hA, hfirst x B' rfl⟩
    | none =>
      obtain ⟨C, hC, hcases⟩ := hat.next_spec hs.children
      rw [hx] at hC hcases
      obtain rfl : B = C := hC
      rcases hcases with ⟨hnil, rfl⟩ | ⟨y, B', rfl, hp⟩
      · refine .inl ⟨by simp [hterm, hx, hnext, hnil], ?_⟩
        rwa [hlist, hat.toList_eq, append_nil]
      · rw [toList_none, append_nil] at hp
        exact .inr
          ⟨n.next path, A, y, B', by simp [hterm, hx, hnext], ⟨_, hroot, hp⟩, hA, hfirst y B' rfl⟩

/-- `LEQ` leads nowhere, or to the last item that the query is not below. -/
theorem Ok.leq_cases (hok : t.Ok L) (hcuts : Node.Cuts cut t.toList) (hne : t.toList ≠ []) :
    (t.leq cut = some [] ∧ ∀ y ∈ t.toList, cut y = .lt) ∨
      ∃ path A x B, t.leq cut = some path ∧ t.Points path A x B ∧ (∀ b ∈ B, cut b = .lt) ∧
        cut x ≠ .lt := by
  obtain ⟨h, n, hroot, hlist⟩ := Ok.exists_root hne
  obtain ⟨hs, hpos⟩ := hok.root_ok _ hroot
  have hleq : t.leq cut = (n.locate cut).map fun res => if res.1 then res.2 else t.prev res.2 := by
    rw [leq, locate, hroot]
    rfl
  rw [hleq]
  rcases Node.locate_spec hpos hs.children (hlist ▸ hcuts) with
    ⟨path, A, x, B, hloc, hp, hx⟩ | ⟨path, A, B, hloc, hat, -, hA, hB⟩
  · have hp' : t.Points path A x B := ⟨_, hroot, hp⟩
    exact .inr ⟨path, A, x, B, by rw [hloc]; rfl, hp',
      (hp'.toList_eq ▸ hcuts).after (by rw [hx]; decide), by rw [hx]; decide⟩
  · have hprev : t.prev path = n.prev path := by rw [prev, hroot]; rfl
    rcases hat.prev_spec hs.children with ⟨hnil, rfl⟩ | ⟨A', y, rfl, hp⟩
    · refine .inl ⟨by simp [hloc, hprev, hnil], ?_⟩
      rwa [hlist, hat.toList_eq, nil_append]
    · exact .inr ⟨n.prev path, A', y, B, by simp [hloc, hprev], ⟨_, hroot, hp⟩, hB,
        by rw [hA y mem_append_cons_self]; decide⟩

theorem Ok.height_le (hok : t.Ok L) (hlen : t.toList.length < 2 ^ 32) : t.height ≤ kMaxDepth := by
  cases hroot : t.root with
  | none =>
    rw [height, hroot]
    exact Nat.zero_le _
  | some root =>
    obtain ⟨hs, hpos⟩ := hok.root_ok root hroot
    have hlist := toList_of_some hroot
    rw [height, hroot]
    exact height_le_kMaxDepth hs hpos (hlist ▸ hlen)

/-- A tree of `h + 2` levels has at least `4 * 5 ^ h` items. -/
theorem Ok.le_size (hok : t.Ok L) {h : ℕ} (hheight : t.height = h + 2) : 4 * 5 ^ h ≤ t.size := by
  obtain ⟨_ | ⟨h', n⟩, count⟩ := t
  · cases hheight
  · obtain rfl : h' = h + 1 := Nat.succ.inj hheight
    obtain ⟨pre, c, post, hn, -⟩ := n.items.exists_plug (Nat.zero_le n.numItems)
    have hmin := ((children_ok_plug.mp (hn ▸ (hok.root_ok _ rfl).1.children)).2).le_length
    have hlist : (⟨some ⟨h + 1, n⟩, count⟩ : BPTree α).toList = n.toList := rfl
    rw [size, hok.count_eq, hlist, Node.toList_of_plug hn, length_append, length_append]
    omega

/-! ## §4 Walks, membership and ranks -/

/-- A path, unless it is empty. -/
def valid (path : Path) : Option Path := if path = [] then none else some path

/-- The walk by `Next`. -/
def forward (t : BPTree α) : Walker Path α := ⟨t.terminal, fun path => valid (t.next path)⟩

/-- The walk by `Prev`. -/
def backward (t : BPTree α) : Walker Path α := ⟨t.terminal, fun path => valid (t.prev path)⟩

/-- A walk from a path reads its item and all that follow. -/
theorem Points.ahead_next (hok : t.Ok L) (hp : t.Points path A x B) :
    t.forward.Ahead (some path) (x :: B) := by
  induction B generalizing path A x with
  | nil =>
    rcases hp.next hok with ⟨hnil, -⟩ | ⟨y, B', hB, -⟩
    · refine .item hp.terminal_eq ?_
      simp only [forward, valid, hnil, ↓reduceIte]
      exact .done
    · cases hB
  | cons y B ih =>
    rcases hp.next hok with ⟨-, hB⟩ | ⟨y', B', hB, hp'⟩
    · cases hB
    · cases hB
      refine .item hp.terminal_eq ?_
      simp only [forward, valid, hp'.ne_nil, ↓reduceIte]
      exact ih hp'

theorem Points.ahead_prev (hok : t.Ok L) (hp : t.Points path A x B) :
    t.backward.Ahead (some path) (x :: A.reverse) := by
  induction A using reverseRecOn generalizing path B x with
  | nil =>
    rcases hp.prev hok with ⟨hnil, -⟩ | ⟨A', y, hA, -⟩
    · refine .item hp.terminal_eq ?_
      simp only [backward, valid, hnil, ↓reduceIte]
      exact .done
    · simp at hA
  | append_singleton A y ih =>
    rcases hp.prev hok with ⟨-, hA⟩ | ⟨A', y', hA, hp'⟩
    · simp at hA
    · obtain ⟨rfl, hy⟩ := append_inj' hA rfl
      cases hy
      refine .item hp.terminal_eq ?_
      simp only [backward, valid, hp'.ne_nil, ↓reduceIte, reverse_append, reverse_singleton,
        singleton_append]
      exact ih hp'

theorem Points.rank_eq (hok : t.Ok L) (hp : t.Points path A x B) : t.rank path = A.length := by
  obtain ⟨root, hroot, hp⟩ := hp
  rw [rank, hroot]
  exact hp.cut.rank_eq (hok.root_ok _ hroot).1.children

/-- A walk from `GEQ` reads all items that are not below the query. -/
theorem Ok.ahead_geq (hok : t.Ok L) (hcuts : Node.Cuts cut t.toList) (hne : t.toList ≠ []) :
    ∃ path, t.geq cut = some path ∧
      t.forward.Ahead (valid path) (t.toList.dropWhile fun y => cut y == .gt) := by
  rcases hok.geq_cases hcuts hne with ⟨hgeq, hall⟩ | ⟨path, A, x, B, hgeq, hp, hA, hx⟩
  · refine ⟨[], hgeq, ?_⟩
    rw [dropWhile_eq_nil_iff.mpr (by simpa using hall)]
    exact .done
  · refine ⟨path, hgeq, ?_⟩
    rw [valid, if_neg hp.ne_nil, hp.toList_eq,
      Lib.dropWhile_append_cons (by simpa using hA) (by simpa using hx)]
    exact hp.ahead_next hok

theorem Ok.ahead_leq (hok : t.Ok L) (hcuts : Node.Cuts cut t.toList) (hne : t.toList ≠ []) :
    ∃ path, t.leq cut = some path ∧
      t.backward.Ahead (valid path) (t.toList.reverse.dropWhile fun y => cut y == .lt) := by
  rcases hok.leq_cases hcuts hne with ⟨hleq, hall⟩ | ⟨path, A, x, B, hleq, hp, hB, hx⟩
  · refine ⟨[], hleq, ?_⟩
    rw [dropWhile_eq_nil_iff.mpr (by simpa using hall)]
    exact .done
  · refine ⟨path, hleq, ?_⟩
    rw [valid, if_neg hp.ne_nil, hp.toList_eq, reverse_append, reverse_cons, append_assoc,
      singleton_append, Lib.dropWhile_append_cons (by simpa using hB) (by simpa using hx)]
    exact hp.ahead_prev hok

variable [LinearOrder α]

theorem Ok.contains (hok : t.Ok L) (hsorted : t.toList.Pairwise (· < ·)) (x : α) :
    t.contains x = if t.toList = [] then none else some (decide (x ∈ t.toList)) := by
  cases hroot : t.root with
  | none =>
    have hlist := toList_of_none hroot
    rw [BPTree.contains, locate, hroot, if_pos hlist]
    rfl
  | some root =>
    obtain ⟨h, n⟩ := root
    have hcontains : t.contains x = (n.locate (cmp x)).map Prod.fst := by
      rw [BPTree.contains, locate, hroot]
      rfl
    rw [hcontains, if_neg (hok.toList_ne_nil hroot)]
    rcases hok.locate_item hsorted hroot x with ⟨hmem, path, A, B, hloc, -⟩ | ⟨hmem, path,
      A, B, hloc, -⟩
    · rw [hloc, decide_eq_true hmem]
      rfl
    · rw [hloc, decide_eq_false hmem]
      rfl

theorem Points.idxOf_eq (hp : t.Points path A x B) (hsorted : t.toList.Pairwise (· < ·)) :
    t.toList.idxOf x = A.length := by
  rw [hp.toList_eq] at hsorted ⊢
  exact idxOf_middle hsorted

theorem Ok.getRank (hok : t.Ok L) (hsorted : t.toList.Pairwise (· < ·)) (x : α) (reverse : Bool) :
    t.getRank x reverse = some (if x ∈ t.toList then
      some (if reverse then t.toList.length - 1 - t.toList.idxOf x else t.toList.idxOf x)
        else none) := by
  cases hroot : t.root with
  | none =>
    have hlist := toList_of_none hroot
    rw [BPTree.getRank, hroot, hlist]
    rfl
  | some root =>
    simp only [BPTree.getRank, hroot]
    rcases hok.locate_item hsorted hroot x with ⟨hmem, path, A, B, hloc, hp⟩ | ⟨hmem, path,
      A, B, hloc, -⟩
    · have hidx := Points.idxOf_eq ⟨_, hroot, hp⟩ hsorted
      simp only [hloc, if_pos hmem]
      rw [hp.cut.rank_eq (hok.root_ok _ hroot).1.children, hidx, hok.count_eq, Nat.sub_right_comm]
    · simp only [hloc, if_neg hmem]

/-! ## §5 The ordered set -/

/-- The public functions of the tree on the sorted list `xs`, apart from `Contains`. Ranks of
    `IterateReverse` and of a reverse `GetRank` count from the end. -/
structure BehavesAs (L : Layout) (t : BPTree α) (xs : List α) : Prop where
  sorted : xs.Pairwise (· < ·)
  insert : ∀ x, ∃ t', t.insert L x = some (t', decide (x ∉ xs)) ∧
    t'.toList = if x ∈ xs then xs else xs.orderedInsert (· ≤ ·) x
  delete : ∀ x, ∃ t', t.delete L x = some (t', decide (x ∈ xs)) ∧ t'.toList = xs.erase x
  deletePath : ∀ path x, t.terminal path = some x →
    ∃ t', t.deletePath L path = some t' ∧ t'.toList = xs.erase x
  size : t.size = xs.length
  getRank : ∀ x reverse, t.getRank x reverse = some (if x ∈ xs then
    some (if reverse then xs.length - 1 - xs.idxOf x else xs.idxOf x) else none)
  fromRank : ∀ r < xs.length, t.terminal (t.fromRank r) = xs[r]?
  iterate : ∀ a b, a ≤ b → ∀ cb, t.iterate a b cb = some (visit cb ((xs.drop a).take (b + 1 - a)))
  iterateReverse : ∀ a b, a ≤ b → b < xs.length → ∀ cb,
    t.iterateReverse a b cb = some (visit cb ((xs.reverse.drop a).take (b + 1 - a)))
  geq : xs ≠ [] → ∀ q, ∃ p, t.geq (cmp q) = some p ∧
    t.terminal p = xs.find? (fun x => decide (q ≤ x)) ∧ (p = [] ↔ ∀ x ∈ xs, x < q)
  leq : xs ≠ [] → ∀ q, ∃ p, t.leq (cmp q) = some p ∧
    t.terminal p = xs.reverse.find? (fun x => decide (x ≤ q)) ∧ (p = [] ↔ ∀ x ∈ xs, q < x)
  next : ∀ path x, t.terminal path = some x →
    t.terminal (t.next path) = xs[xs.idxOf x + 1]? ∧
      (t.next path = [] ↔ xs.idxOf x + 1 = xs.length)
  prev : ∀ path x, t.terminal path = some x →
    t.terminal (t.prev path) = (if xs.idxOf x = 0 then none else xs[xs.idxOf x - 1]?) ∧
      (t.prev path = [] ↔ xs.idxOf x = 0)
  height_le : xs.length < 2 ^ 32 → t.height ≤ kMaxDepth

/-- **One tree.** Every function behaves as on the list of the items. -/
theorem Ok.behavesAs (hok : t.Ok L) (hsorted : t.toList.Pairwise (· < ·)) :
    BehavesAs L t t.toList where
  sorted := hsorted
  insert := by
    intro x
    obtain ⟨t', hins, -, hlist⟩ := hok.insert hsorted x
    exact ⟨t', hins, hlist⟩
  delete := by
    intro x
    obtain ⟨t', hdel, -, hlist⟩ := hok.delete hsorted x
    exact ⟨t', hdel, hlist⟩
  deletePath := by
    intro path x hterm
    obtain ⟨A, B, t', hcut, hdel, -, hlist⟩ := hok.deletePath hterm
    exact ⟨t', hdel, by rw [hlist, hcut, erase_middle (hcut ▸ hsorted)]⟩
  size := hok.count_eq
  getRank := hok.getRank hsorted
  fromRank := by
    intro r hr
    obtain ⟨A, x, B, hp, rfl⟩ := hok.fromRank hr
    simp [hp.terminal_eq, hp.toList_eq]
  iterate := fun _ _ hab cb => hok.iterate hab cb
  iterateReverse := fun _ _ hab hb cb => hok.iterateReverse hab hb cb
  geq := by
    intro hne q
    rcases hok.geq_cases (cuts_cmp q hsorted) hne with ⟨hgeq, hall⟩ | ⟨path, A, x, B,
      hgeq, hp, hA, hx⟩
    · simp only [cmp, compare_gt_iff_gt] at hall
      exact ⟨[], hgeq, by rw [t.terminal_nil, find?_eq_none.mpr (by simpa using hall)], by
        simpa using hall⟩
    · simp only [cmp, Ne, compare_gt_iff_gt, not_lt] at hA hx
      refine ⟨path, hgeq, ?_, iff_of_false hp.ne_nil fun hall => ?_⟩
      · rw [hp.terminal_eq, hp.toList_eq, find?_append_cons (by simpa using hA) (by simpa using hx)]
      · exact (hall x (by simp [hp.toList_eq])).not_ge hx
  leq := by
    intro hne q
    rcases hok.leq_cases (cuts_cmp q hsorted) hne with ⟨hleq, hall⟩ | ⟨path, A, x, B,
      hleq, hp, hB, hx⟩
    · simp only [cmp, compare_lt_iff_lt] at hall
      exact ⟨[], hleq, by rw [t.terminal_nil, find?_eq_none.mpr (by simpa using hall)], by
        simpa using hall⟩
    · simp only [cmp, Ne, compare_lt_iff_lt, not_lt] at hB hx
      refine ⟨path, hleq, ?_, iff_of_false hp.ne_nil fun hall => ?_⟩
      · rw [hp.terminal_eq, hp.toList_eq, reverse_append, reverse_cons, append_assoc,
          singleton_append, find?_append_cons (by simpa using hB) (by simpa using hx)]
      · exact (hall x (by simp [hp.toList_eq])).not_ge hx
  next := by
    intro path x hterm
    obtain ⟨A, B, hp⟩ := points_of_terminal hterm
    have hcut := hp.toList_eq
    rw [hp.idxOf_eq hsorted]
    rcases hp.next hok with ⟨hnil, rfl⟩ | ⟨y, B', rfl, hp'⟩
    · rw [hnil, t.terminal_nil, hcut]
      simp
    · rw [hp'.terminal_eq, hcut]
      refine ⟨by simp, iff_of_false hp'.ne_nil ?_⟩
      simp only [length_append, length_cons]
      omega
  prev := by
    intro path x hterm
    obtain ⟨A, B, hp⟩ := points_of_terminal hterm
    have hcut := hp.toList_eq
    rw [hp.idxOf_eq hsorted]
    rcases hp.prev hok with ⟨hnil, rfl⟩ | ⟨A', y, rfl, hp'⟩
    · rw [hnil, t.terminal_nil]
      simp
    · rw [hp'.terminal_eq, hcut]
      simp [hp'.ne_nil]
  height_le := hok.height_le

end BPTree

/-! ## §6 Runs -/

/-- The changes of a tree. A path given to `Delete` comes with the item it points to. -/
inductive TreeOp (α : Type) where
  | insert (item : α)
  | delete (item : α)
  | deletePath (path : Path) (item : α)
  | clear

variable [LinearOrder α]

def BPTree.step (L : Layout) (t : BPTree α) : TreeOp α → Option (BPTree α)
  | .insert item => (t.insert L item).map Prod.fst
  | .delete item => (t.delete L item).map Prod.fst
  | .deletePath path _ => t.deletePath L path
  | .clear => some t.clear

/-- Where a path is given, it points to its item. -/
def TreeOp.Located (t : BPTree α) : TreeOp α → Prop
  | .deletePath path item => t.terminal path = some item
  | _ => True

instance decidableLocated (t : BPTree α) : DecidablePred (TreeOp.Located t)
  | .insert _ => isTrue trivial
  | .delete _ => isTrue trivial
  | .deletePath path item => inferInstanceAs (Decidable (t.terminal path = some item))
  | .clear => isTrue trivial

/-- What a change does to the sorted list of the items. -/
def TreeOp.effect (xs : List α) : TreeOp α → List α
  | .insert item => if item ∈ xs then xs else xs.orderedInsert (· ≤ ·) item
  | .delete item => xs.erase item
  | .deletePath _ item => xs.erase item
  | .clear => []

theorem TreeOp.effect_sorted {xs : List α} (hsorted : xs.Pairwise (· < ·)) (op : TreeOp α) :
    (op.effect xs).Pairwise (· < ·) := by
  cases op with
  | insert item =>
    rw [effect]
    split
    case isTrue => exact hsorted
    case isFalse hmem =>
      have hle := (hsorted.imp le_of_lt).orderedInsert item
      have hnodup : (xs.orderedInsert (· ≤ ·) item).Nodup := by
        rw [(perm_orderedInsert (· ≤ ·) item xs).nodup_iff]
        exact nodup_cons.mpr ⟨hmem, hsorted.imp ne_of_lt⟩
      exact hle.imp₂ (fun _ _ hle hne => lt_of_le_of_ne hle hne) hnodup
  | delete item | deletePath path item => exact hsorted.sublist erase_sublist
  | clear => exact List.Pairwise.nil

theorem step_simulates {t : BPTree α} {xs : List α} {op : TreeOp α}
    (ht : t.Ok L ∧ t.toList = xs ∧ xs.Pairwise (· < ·)) (hop : op.Located t) :
    ∃ t', t.step L op = some t' ∧ t'.Ok L ∧ t'.toList = op.effect xs ∧
      (op.effect xs).Pairwise (· < ·) := by
  obtain ⟨hok, rfl, hsorted⟩ := ht
  have hsorted' := op.effect_sorted hsorted
  cases op with
  | insert item =>
    obtain ⟨t', hins, hok', hlist⟩ := hok.insert hsorted item
    exact ⟨t', by rw [BPTree.step, hins]; rfl, hok', hlist, hsorted'⟩
  | delete item =>
    obtain ⟨t', hdel, hok', hlist⟩ := hok.delete hsorted item
    exact ⟨t', by rw [BPTree.step, hdel]; rfl, hok', hlist, hsorted'⟩
  | deletePath path item =>
    obtain ⟨A, B, t', hcut, hdel, hok', hlist⟩ := hok.deletePath hop
    refine ⟨t', hdel, hok', ?_, hsorted'⟩
    rw [hlist, TreeOp.effect, hcut, BPTree.erase_middle (hcut ▸ hsorted)]
  | clear => exact ⟨_, rfl, BPTree.ok_empty, rfl, hsorted'⟩

/-- **Ordered set with ranks.** After every sequence of changes the tree behaves as the sorted list
of its items. `Contains` does so exactly if the tree is not empty. -/
theorem run_behavesAs (L : Layout) (ops : List (TreeOp α))
    (hops : RunAll (BPTree.step L) (fun t op => op.Located t) BPTree.empty ops) :
    ∃ t, run (BPTree.step L) BPTree.empty ops = some t ∧
      t.toList = ops.foldl TreeOp.effect [] ∧ t.BehavesAs L (ops.foldl TreeOp.effect []) ∧
      ∀ x, t.contains x = some (decide (x ∈ ops.foldl TreeOp.effect [])) ↔
        ops.foldl TreeOp.effect [] ≠ [] := by
  obtain ⟨t, hrun, hok, hlist, hsorted⟩ := Lib.run_simulates
    (R := fun t xs => t.Ok L ∧ t.toList = xs ∧ xs.Pairwise (· < ·)) (f := TreeOp.effect)
    (a := []) (fun _ _ _ ht hop => step_simulates ht hop)
    ⟨BPTree.ok_empty, rfl, List.Pairwise.nil⟩ hops
  rw [← hlist] at hsorted
  refine ⟨t, hrun, hlist, hlist ▸ hok.behavesAs hsorted, fun x => ?_⟩
  rw [← hlist, hok.contains hsorted x]
  split <;> simp_all

/-- The layout for keys of eight bytes. -/
def wordLayout : Layout := ⟨8, by decide, by decide⟩

theorem run_behavesAs_three : ∃ t, run (BPTree.step wordLayout) BPTree.empty
      [.insert 2, .insert 1, .insert 3, .deletePath [0] 1, .delete 5] = some t ∧
    t.toList = [2, 3] ∧ t.BehavesAs wordLayout [2, 3] ∧
    ∀ x : ℕ, t.contains x = some (decide (x ∈ [2, 3])) ↔ [2, 3] ≠ ([] : List ℕ) :=
  run_behavesAs wordLayout _ (by decide +kernel)

/-- **The tree stays balanced**: after every sequence of changes all nodes but the root are nearly
half full, and the number of levels is logarithmic in that of the items. -/
theorem run_balanced (L : Layout) (ops : List (TreeOp α))
    (hops : RunAll (BPTree.step L) (fun t op => op.Located t) BPTree.empty ops) :
    ∃ t, run (BPTree.step L) BPTree.empty ops = some t ∧ t.Ok L ∧
      ∀ h, t.height = h + 2 → 4 * 5 ^ h ≤ t.size := by
  obtain ⟨t, hrun, hok, -⟩ := Lib.run_simulates
    (R := fun t xs => t.Ok L ∧ t.toList = xs ∧ xs.Pairwise (· < ·)) (f := TreeOp.effect)
    (a := []) (fun _ _ _ ht hop => step_simulates ht hop)
    ⟨BPTree.ok_empty, rfl, List.Pairwise.nil⟩ hops
  exact ⟨t, hrun, hok, fun _ => hok.le_size⟩

/-- Forty items make a tree of two levels; some are deleted again. -/
theorem run_balanced_forty : ∃ t, run (BPTree.step wordLayout) BPTree.empty
      ((List.range 40).map TreeOp.insert ++ [.deletePath [0, 0] 0, .delete 7]) = some t ∧
    t.Ok wordLayout ∧ t.height = 2 ∧ 4 ≤ t.size := by
  obtain ⟨t, hrun, hok, hle⟩ := run_balanced wordLayout
    ((List.range 40).map TreeOp.insert ++ [.deletePath [0, 0] 0, .delete 7]) (by decide +kernel)
  have hheight : (run (BPTree.step wordLayout) (BPTree.empty : BPTree ℕ)
      ((List.range 40).map TreeOp.insert ++ [.deletePath [0, 0] 0, .delete 7])).map BPTree.height =
        some 2 := by decide +kernel
  rw [hrun] at hheight
  have h2 : t.height = 2 := Option.some.inj hheight
  exact ⟨t, hrun, hok, h2, hle 0 h2⟩

/-- `Contains` of a new tree reads a root that does not exist. -/
theorem contains_empty :
    run (BPTree.step wordLayout) (BPTree.empty : BPTree ℕ) [] = some BPTree.empty ∧
      (BPTree.empty : BPTree ℕ).contains 5 ≠ some (decide (5 ∈ (BPTree.empty : BPTree ℕ).toList)) :=
  ⟨rfl, by decide⟩

end Drakeydb.BPTreeSet
