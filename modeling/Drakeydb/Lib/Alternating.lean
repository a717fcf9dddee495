import Mathlib

/-!
# Alternating sequences

A sequence of keys with a child before, between and after them: the first child, and each key with
the child to its right. With children of the type `Unit` this is a plain sequence of keys.

Two sequences with a key between them are merged into one. Every way of cutting that one at a key
is a way of moving items between the two, so what such moves preserve follows from `merge` alone.
-/

namespace Drakeydb.Lib

open List

/-- Keys with children around them. -/
structure Alternating (α β : Type) where
  first : β
  rest : List (α × β)
  deriving DecidableEq

namespace Alternating

variable {α β : Type} (n l r : Alternating α β) (k k' : α) (b c c' : β) (f : β → List α)

/-! ## §1 Operations -/

def num : ℕ := n.rest.length

def keys : List α := n.rest.map Prod.fst

def children : List β := n.first :: n.rest.map Prod.snd

def key (i : ℕ) : Option α := n.rest[i]?.map Prod.fst

def child : ℕ → Option β
  | 0 => some n.first
  | i + 1 => n.rest[i]?.map Prod.snd

def setKey (i : ℕ) (k : α) : Alternating α β :=
  { n with rest := n.rest.modify i fun p => (k, p.2) }

def setChild (i : ℕ) (c : β) : Alternating α β :=
  match i with
  | 0 => { n with first := c }
  | i + 1 => { n with rest := n.rest.modify i fun p => (p.1, c) }

/-- Insert a key at `i` with a child to its right. -/
def insert (i : ℕ) (k : α) (c : β) : Alternating α β := { n with rest := n.rest.insertIdx i (k, c) }

/-- Remove the key at `i` and the child to its right. -/
def erase (i : ℕ) : Alternating α β := { n with rest := n.rest.eraseIdx i }

/-- A child and a key in front. -/
def cons : Alternating α β := ⟨b, (k, n.first) :: n.rest⟩

/-- Two sequences with a key between them. -/
def merge (l : Alternating α β) (k : α) (r : Alternating α β) : Alternating α β :=
  ⟨l.first, l.rest ++ (k, r.first) :: r.rest⟩

/-- The contents, given those of the children. -/
def seq : List α := f n.first ++ n.rest.flatMap fun p => p.1 :: f p.2

@[simp] theorem length_keys : n.keys.length = n.num := length_map _

theorem key_eq (i : ℕ) : n.key i = n.keys[i]? := by
  simp [key, keys]

@[simp] theorem length_children : n.children.length = n.num + 1 := by
  simp [children, num]

theorem length_seq : (n.seq f).length = n.num + (n.children.map fun c => (f c).length).sum := by
  obtain ⟨first, rest⟩ := n
  induction rest generalizing first with
  | nil => simp [seq, num, children]
  | cons p rest ih =>
    have := ih p.2
    simp only [seq, num, children, length_append, flatMap_cons, length_cons, map_cons,
      sum_cons] at this ⊢
    omega

theorem seq_of_nil (h : ∀ c, f c = []) : n.seq f = n.keys := by
  obtain ⟨first, rest⟩ := n
  induction rest generalizing first with
  | nil => simp [seq, keys, h]
  | cons p rest ih =>
    have := ih p.2
    simp only [seq, keys, h, nil_append, flatMap_cons, cons_append, map_cons] at this ⊢
    rw [this]

/-! ### The operations behind the first child -/

theorem child_cons (i : ℕ) : (n.cons k b).child (i + 1) = n.child i := by
  cases i <;> rfl

theorem setChild_cons (i : ℕ) : (n.cons k b).setChild (i + 1) c = (n.setChild i c).cons k b := by
  cases i <;> rfl

theorem setKey_cons (i : ℕ) : (n.cons k b).setKey (i + 1) k' = (n.setKey i k').cons k b := rfl

theorem insert_cons (i : ℕ) : (n.cons k b).insert (i + 1) k' c = (n.insert i k' c).cons k b := rfl

theorem erase_cons (i : ℕ) : (n.cons k b).erase (i + 1) = (n.erase i).cons k b := rfl

theorem seq_cons : (n.cons k b).seq f = f b ++ k :: n.seq f := rfl

/-! ## §2 A sequence around one of its children -/

/-- The sequence with `c` after the children and keys `pre`, and before `post`. -/
def plug : List (β × α) → β → List (α × β) → Alternating α β
  | [], c, post => ⟨c, post⟩
  | (b, k) :: pre, c, post => (plug pre c post).cons k b

variable {i : ℕ}

/-- A sequence can be seen from each of its children. -/
theorem exists_plug (h : i ≤ n.num) : ∃ pre c post, n = plug pre c post ∧ pre.length = i := by
  obtain ⟨first, rest⟩ := n
  induction rest generalizing first i with
  | nil =>
    obtain rfl : i = 0 := Nat.le_zero.mp h
    exact ⟨[], first, [], rfl, rfl⟩
  | cons p rest ih =>
    obtain ⟨k, b⟩ := p
    cases i with
    | zero => exact ⟨[], first, (k, b) :: rest, rfl, rfl⟩
    | succ i =>
      obtain ⟨pre, c, post, hplug, hlen⟩ := ih b (Nat.le_of_succ_le_succ h)
      exact ⟨(first, k) :: pre, c, post, by rw [plug, ← hplug]; rfl, by simp [hlen]⟩

section Plug

variable (pre : List (β × α)) (post : List (α × β))

@[simp] theorem num_plug : (plug pre c post).num = pre.length + post.length := by
  induction pre with
  | nil => simp [plug, num]
  | cons p pre ih =>
    have : (plug (p :: pre) c post).num = (plug pre c post).num + 1 := rfl
    rw [this, ih, length_cons]
    omega

theorem child_plug : (plug pre c post).child pre.length = some c := by
  induction pre with
  | nil => rfl
  | cons p pre ih => simp [plug, child_cons, ih]

theorem child_plug_succ : (plug pre c ((k, c') :: post)).child (pre.length + 1) = some c' := by
  induction pre with
  | nil => rfl
  | cons p pre ih => simp [plug, child_cons, ih]

theorem key_plug : (plug pre c ((k, c') :: post)).key pre.length = some k := by
  induction pre with
  | nil => rfl
  | cons p pre ih => exact ih

theorem setChild_plug : (plug pre c post).setChild pre.length c' = plug pre c' post := by
  induction pre with
  | nil => rfl
  | cons p pre ih => simp [plug, setChild_cons, ih, plug]

theorem setChild_plug_succ :
    (plug pre c ((k, c') :: post)).setChild (pre.length + 1) b = plug pre c ((k, b) :: post) := by
  induction pre with
  | nil => rfl
  | cons p pre ih => simp [plug, setChild_cons, ih, plug]

theorem setKey_plug :
    (plug pre c ((k, c') :: post)).setKey pre.length k' = plug pre c ((k', c') :: post) := by
  induction pre with
  | nil => rfl
  | cons p pre ih => simp [plug, setKey_cons, ih, plug]

theorem insert_plug : (plug pre c post).insert pre.length k c' = plug pre c ((k, c') :: post) := by
  induction pre with
  | nil => rfl
  | cons p pre ih => simp [plug, insert_cons, ih, plug]

theorem erase_plug : (plug pre c ((k, c') :: post)).erase pre.length = plug pre c post := by
  induction pre with
  | nil => rfl
  | cons p pre ih => simp [plug, erase_cons, ih, plug]

def seqBefore : List α := pre.flatMap fun p => f p.1 ++ [p.2]

def seqAfter : List α := post.flatMap fun p => p.1 :: f p.2

/-- The contents around a child. -/
theorem seq_plug : (plug pre c post).seq f = seqBefore f pre ++ (f c ++ seqAfter f post) := by
  induction pre with
  | nil => rfl
  | cons p pre ih =>
    rw [plug, seq_cons, ih]
    simp [seqBefore]

theorem children_plug :
    (plug pre c post).children = pre.map Prod.fst ++ c :: post.map Prod.snd := by
  induction pre with
  | nil => rfl
  | cons p pre ih =>
    rw [map_cons, cons_append, ← ih]
    rfl

theorem keys_plug : (plug pre c post).keys = pre.map Prod.snd ++ post.map Prod.fst := by
  induction pre with
  | nil => rfl
  | cons p pre ih =>
    rw [map_cons, cons_append, ← ih]
    rfl

end Plug

/-! ## §3 Merging -/

@[simp] theorem num_merge : (merge l k r).num = l.num + 1 + r.num := by
  simp only [merge, num, length_append, length_cons]
  omega

theorem seq_merge : (merge l k r).seq f = l.seq f ++ k :: r.seq f := by
  simp [merge, seq]

theorem children_merge : (merge l k r).children = l.children ++ r.children := by
  simp [merge, children]

variable (pre : List (β × α)) (post : List (α × β))

theorem merge_plug : merge (plug pre c post) k r = plug pre c (post ++ (k, r.first) :: r.rest) := by
  induction pre with
  | nil => rfl
  | cons p pre ih => rw [plug, plug, ← ih]; rfl

/-- An insertion up to the seam of a merged sequence goes to the left part. -/
theorem insert_merge_left (h : i ≤ l.num) :
    (merge l k r).insert i k' c = merge (l.insert i k' c) k r := by
  obtain ⟨pre, b, post, rfl, rfl⟩ := l.exists_plug h
  simp [merge_plug, insert_plug, insert_plug, merge_plug]

theorem insert_merge_right (i : ℕ) :
    (merge l k r).insert (l.num + 1 + i) k' c = merge l k (r.insert i k' c) := by
  have hlist : ∀ (xs ys : List (α × β)) (y z : α × β),
      (xs ++ y :: ys).insertIdx (xs.length + 1 + i) z = xs ++ y :: ys.insertIdx i z := by
    intro xs ys y z
    induction xs with
    | nil => rw [length_nil, Nat.zero_add, Nat.add_comm]; rfl
    | cons x xs ih =>
      rw [length_cons, Nat.add_right_comm _ 1 1, Nat.add_right_comm _ 1 i, cons_append,
        insertIdx_succ_cons, ih]
      rfl
  simp [merge, insert, num, hlist]

theorem merge_assoc (m : Alternating α β) :
    merge (merge l k m) k' r = merge l k (merge m k' r) := by
  simp [merge]

theorem eq_merge_of_lt (h : i < n.num) : ∃ k c, n.rest[i]? = some (k, c) ∧
      n = merge ⟨n.first, n.rest.take i⟩ k ⟨c, n.rest.drop (i + 1)⟩ := by
  have h' : i < n.rest.length := h
  refine ⟨n.rest[i].1, n.rest[i].2, getElem?_eq_getElem h', ?_⟩
  simp only [merge, Prod.mk.eta, getElem_cons_drop, take_append_drop]

theorem num_insert (h : i ≤ n.num) : (n.insert i k c).num = n.num + 1 :=
  length_insertIdx_of_le_length h _

theorem seqBefore_concat : seqBefore f (pre ++ [(c, k)]) = seqBefore f pre ++ (f c ++ [k]) := by
  simp [seqBefore]

theorem seqAfter_cons : seqAfter f ((k, c) :: post) = k :: (f c ++ seqAfter f post) := rfl

theorem plug_concat : plug (pre ++ [(b, k)]) c post = plug pre b ((k, c) :: post) := by
  induction pre with
  | nil => rfl
  | cons p pre ih => simp [plug, plug, ih]

theorem length_seq_insert (h : i ≤ n.num) :
    ((n.insert i k c).seq f).length = (n.seq f).length + 1 + (f c).length := by
  obtain ⟨pre, b, post, rfl, rfl⟩ := n.exists_plug h
  simp only [insert_plug, seq_plug, seqAfter_cons, length_append, length_cons]
  omega

theorem forall_children_insert {p : β → Prop} (h : i ≤ n.num) (hc : p c)
    (hn : ∀ d ∈ n.children, p d) : ∀ d ∈ (n.insert i k c).children, p d := by
  obtain ⟨pre, b, post, rfl, rfl⟩ := n.exists_plug h
  simp only [insert_plug, children_plug, map_cons, mem_append, mem_cons] at hn ⊢
  rintro d (hd | rfl | rfl | hd)
  · exact hn d (.inl hd)
  · exact hn d (.inr (.inl rfl))
  · exact hc
  · exact hn d (.inr (.inr hd))

end Alternating

end Drakeydb.Lib
