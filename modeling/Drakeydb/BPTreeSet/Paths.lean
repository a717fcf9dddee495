import Drakeydb.BPTreeSet.Shape

/-!
# Paths

A path cuts the contents of a tree in two: the items before it and those after. Each function on
paths is characterised by how it moves that cut, from which its behaviour on the sorted list of the
items follows.
-/

namespace Drakeydb.BPTreeSet

open List Prod
open Child hiding toList

open Lib (Alternating)
open Lib.Alternating

variable {α : Type} {L : Layout} {h : ℕ}

theorem Child.Ok.numItems_pos {n : Node α h} (hok : Ok L (h + 1) n) : 0 < n.numItems := by
  have := (ok_succ.mp hok).1
  have := L.ten_le_maxItems h
  unfold Layout.fewest at *
  omega

theorem Child.Ok.children {n : Node α h} (hok : Ok L (h + 1) n) :
    ∀ c ∈ n.items.children, Ok L h c :=
  (ok_succ.mp hok).2.children

namespace Node

/-! ## §1 Cuts -/

/-- The path has the items `A` before it, and `B` after. It ends in a leaf, before an item or at its
    end, or at a key of an inner node, with which `B` then starts. -/
inductive At : {h : ℕ} → Node α h → Path → List α → List α → Prop where
  | leaf (n : Node α 0) {A B : List α} (hn : n.items.keys = A ++ B) : At n [A.length] A B
  | key {h : ℕ} (n : Node α (h + 1)) (pre : List (Child α (h + 1) × α))
    (c : Child α (h + 1)) (k : α)
    (c' : Child α (h + 1)) (post : List (α × Child α (h + 1)))
    (hn : n.items = plug pre c ((k, c') :: post)) :
    At n [pre.length] (seqBefore (Child.toList _) pre ++ Child.toList (h + 1) c)
      (k :: (Child.toList (h + 1) c' ++ seqAfter (Child.toList _) post))
  | child {h : ℕ} (n : Node α (h + 1)) (pre : List (Child α (h + 1) × α)) (c : Node α h)
    (post : List (α × Child α (h + 1))) (hn : n.items = plug pre c post) {path : Path}
    {A B : List α} (hc : At c path A B) :
    At n (pre.length :: path) (seqBefore (Child.toList _) pre ++ A)
      (B ++ seqAfter (Child.toList _) post)

/-- A path to the item `x`. -/
structure Points (n : Node α h) (path : Path) (A : List α) (x : α) (B : List α) : Prop where
  cut : At n path A (x :: B)
  terminal_eq : n.terminal path = some x

variable {n : Node α h} {path : Path} {A B : List α} {x : α}

variable {pre : List (Child α (h + 1) × α)} {c : Node α h} {post : List (α × Child α (h + 1))}

theorem ok_of_plug {n : Node α (h + 1)} (hok : ∀ c ∈ n.items.children, Ok L (h + 1) c)
    (hn : n.items = plug pre c post) : Ok L (h + 1) c := hok c (by rw [hn, children_plug]; simp)

theorem toList_of_plug {n : Node α (h + 1)} (hn : n.items = plug pre c post) :
    n.toList = seqBefore (Child.toList _) pre ++ (c.toList ++ seqAfter (Child.toList _) post) := by
  unfold toList
  rw [hn, seq_plug]
  rfl

theorem At.ne_nil (hat : At n path A B) : path ≠ [] := by
  cases hat <;> exact cons_ne_nil _ _

theorem At.toList_eq (hat : At n path A B) : n.toList = A ++ B := by
  induction hat with
  | leaf n hn => rw [n.toList_leaf, hn]
  | key n pre c k c' post hn => rw [toList_of_plug hn, seqAfter_cons, append_assoc]; rfl
  | child n pre c post hn hc ih => rw [toList_of_plug hn, ih]; simp only [append_assoc]

variable {pos : ℕ}

theorem terminal_cons {n : Node α (h + 1)} (hne : path ≠ [])
    (hc : n.items.child pos = some c) : n.terminal (pos :: path) = c.terminal path := by
  cases path with
  | nil => exact absurd rfl hne
  | cons p path => simp [terminal, hc]

theorem Points.toList_eq (hp : Points n path A x B) : n.toList = A ++ x :: B := hp.cut.toList_eq

/-- Below a child, a path that points to an item still does from its parent. -/
theorem Points.child {n : Node α (h + 1)} (hn : n.items = plug pre c post)
    (hp : Points c path A x B) :
    Points n (pre.length :: path) (seqBefore (Child.toList _) pre ++ A) x
      (B ++ seqAfter (Child.toList _) post) where
  cut := .child n pre c post hn hp.cut
  terminal_eq := by
    rw [terminal_cons hp.cut.ne_nil (hn ▸ child_plug c pre post), hp.terminal_eq]

variable {k : α}

theorem Points.key {n : Node α (h + 1)} {c' : Node α h}
    (hn : n.items = plug pre c ((k, c') :: post)) :
    Points n [pre.length] (seqBefore (Child.toList _) pre ++ c.toList) k
      (c'.toList ++ seqAfter (Child.toList _) post) where
  cut := .key n pre c k c' post hn
  terminal_eq := by
    rw [terminal, hn]
    exact key_plug k c c' pre post

theorem Points.leaf {n : Node α 0} (hn : n.items.keys = A ++ x :: B) :
    Points n [A.length] A x B where
  cut := .leaf n hn
  terminal_eq := by
    simp [terminal, key_eq, hn]

theorem keys_ne_nil {n : Node α h} (hpos : 0 < n.numItems) : n.items.keys ≠ [] :=
  ne_nil_of_length_pos ((length_keys n.items).symm ▸ hpos)

theorem At.exists_cons (hat : At n path A B) (hterm : n.terminal path = some x) :
    ∃ B', B = x :: B' := by
  induction hat with
  | @leaf n A B hn =>
    cases B with
    | nil =>
      rw [terminal, key_eq, hn, append_nil, getElem?_eq_none (Nat.le_refl _)] at hterm
      cases hterm
    | cons y B =>
      rw [(Points.leaf hn).terminal_eq] at hterm
      cases hterm
      exact ⟨B, rfl⟩
  | key n pre c k c' post hn =>
    rw [(Points.key hn).terminal_eq] at hterm
    cases hterm
    exact ⟨_, rfl⟩
  | child n pre c post hn hc ih =>
    rw [terminal_cons hc.ne_nil (hn ▸ child_plug c pre post)] at hterm
    obtain ⟨B', rfl⟩ := ih hterm
    exact ⟨_, rfl⟩

theorem points_of_terminal : {h : ℕ} → {n : Node α h} → {path : Path} →
    n.terminal path = some x → ∃ A B, Points n path A x B
  | 0, _, [], hterm => by cases hterm
  | _ + 1, _, [], hterm => by cases hterm
  | 0, n, [pos], hterm => by
    rw [terminal, key_eq] at hterm
    obtain ⟨hlt, rfl⟩ := List.getElem?_eq_some_iff.mp hterm
    have hcut : n.items.keys =
        n.items.keys.take pos ++ n.items.keys[pos] :: n.items.keys.drop (pos + 1) := by
      simp
    have hp := Points.leaf hcut
    rw [List.length_take_of_le (Nat.le_of_lt hlt)] at hp
    exact ⟨_, _, hp⟩
  | 0, _, _ :: _ :: _, hterm => by cases hterm
  | h + 1, n, [pos], hterm => by
    rw [terminal, key_eq] at hterm
    obtain ⟨hlt, -⟩ := List.getElem?_eq_some_iff.mp hterm
    rw [length_keys] at hlt
    obtain ⟨pre, c, post, hn, rfl⟩ := n.items.exists_plug (Nat.le_of_lt hlt)
    cases post with
    | nil =>
      rw [hn, num_plug] at hlt
      exact absurd hlt (Nat.lt_irrefl _)
    | cons p post =>
      rw [hn, ← key_eq, key_plug] at hterm
      cases hterm
      exact ⟨_, _, Points.key hn⟩
  | h + 1, n, pos :: p :: path, hterm => by
    cases hc : n.items.child pos with
    | none => simp [terminal, hc] at hterm
    | some c =>
      rw [terminal_cons (List.cons_ne_nil p path) hc] at hterm
      obtain ⟨A, B, hp⟩ := points_of_terminal hterm
      have hle : pos ≤ n.numItems := by
        cases pos with
        | zero => exact Nat.zero_le _
        | succ pos =>
          obtain ⟨q, hq, -⟩ := Option.map_eq_some_iff.mp hc
          exact (List.getElem?_eq_some_iff.mp hq).1
      obtain ⟨pre, c', post, hn, rfl⟩ := n.items.exists_plug hle
      rw [hn, child_plug] at hc
      cases hc
      exact ⟨_, _, hp.child hn⟩

/-! ## §2 The ends of a subtree -/

theorem digLeft_points : {h : ℕ} → {n : Node α h} → 0 < n.numItems →
    (∀ c ∈ n.items.children, Ok L h c) → ∃ x B, Points n n.digLeft [] x B
  | 0, n, hpos, _ => by
    obtain ⟨x, B, hn⟩ := exists_cons_of_ne_nil (keys_ne_nil hpos)
    have hp : Points n [0] [] x B := Points.leaf (A := []) hn
    exact ⟨x, B, hp⟩
  | h + 1, n, _, hok => by
    have hfirst := hok n.items.first mem_cons_self
    obtain ⟨x, B, hp⟩ := digLeft_points hfirst.numItems_pos hfirst.children
    have hplug : n.items = plug [] n.items.first n.items.rest := rfl
    exact ⟨x, _, hp.child hplug⟩

theorem digRight_points : {h : ℕ} → {n : Node α h} → 0 < n.numItems →
    (∀ c ∈ n.items.children, Ok L h c) → ∃ A x, Points n n.digRight A x []
  | 0, n, hpos, _ => by
    obtain ⟨A, x, hn⟩ := (eq_nil_or_concat n.items.keys).resolve_left (keys_ne_nil hpos)
    have hlen := length_keys n.items
    rw [hn, concat_eq_append, length_append, length_singleton] at hlen
    refine ⟨A, x, ?_⟩
    rw [digRight, numItems, ← hlen, Nat.add_sub_cancel]
    exact Points.leaf (hn.trans (concat_eq_append ..))
  | h + 1, n, _, hok => by
    obtain ⟨pre, c, post, hn, hlen⟩ := n.items.exists_plug (le_refl n.numItems)
    have hpost : post = [] := by
      have := num_plug c pre post
      rw [← hn, hlen] at this
      exact eq_nil_of_length_eq_zero (by unfold numItems at this; omega)
    subst hpost
    have hc := ok_of_plug hok hn
    obtain ⟨A, x, hp⟩ := digRight_points hc.numItems_pos hc.children
    have hchild : n.items.child n.numItems = some c := by
      rw [← hlen, hn]
      exact child_plug c pre []
    have hdig : n.digRight = pre.length :: digRight c := by rw [digRight, hchild, hlen]
    exact ⟨_, x, hdig ▸ hp.child hn⟩

/-! ## §3 Neighbours -/

theorem next_cons {n : Node α (h + 1)} (hne : path ≠ []) (hc : n.items.child pos = some c) :
    n.next (pos :: path) =
      if c.next path = [] then if pos = n.numItems then [] else [pos] else pos :: c.next path := by
  cases path with
  | nil => exact absurd rfl hne
  | cons p path =>
    simp only [next, hc]
    cases c.next (p :: path) <;> rfl

theorem prev_cons {n : Node α (h + 1)} (hne : path ≠ []) (hc : n.items.child pos = some c) :
    n.prev (pos :: path) =
      if c.prev path = [] then if pos = 0 then [] else [pos - 1] else pos :: c.prev path := by
  cases path with
  | nil => exact absurd rfl hne
  | cons p path =>
    simp only [prev, hc]
    cases c.prev (p :: path) <;> rfl

/-- The next item is the first after the cut that the path does not point to. -/
theorem At.next_spec (hat : At n path A B) (hok : ∀ c ∈ n.items.children, Ok L h c) :
    ∃ C, B = (n.terminal path).toList ++ C ∧
      ((n.next path = [] ∧ C = []) ∨ ∃ x C', C = x :: C' ∧
          Points n (n.next path) (A ++ (n.terminal path).toList) x C') := by
  induction hat with
  | @leaf n A B hn =>
    have hlen := length_keys n.items
    rw [hn, length_append] at hlen
    cases B with
    | nil =>
      have hnone : n.terminal [A.length] = none := by
        simp [terminal, key_eq, hn]
      refine ⟨[], by rw [hnone]; rfl, .inl ⟨if_neg ?_, rfl⟩⟩
      rw [numItems, ← hlen, length_nil]
      omega
    | cons y C =>
      have hcut : n.items.keys = (A ++ [y]) ++ C := by rw [hn, append_assoc]; rfl
      rw [(Points.leaf hn).terminal_eq]
      refine ⟨C, rfl, ?_⟩
      cases C with
      | nil =>
        refine .inl ⟨if_neg ?_, rfl⟩
        rw [numItems, ← hlen]
        exact Nat.lt_irrefl _
      | cons z C =>
        have hnext : n.next [A.length] = [(A ++ [y]).length] := by
          rw [next, if_pos (by rw [numItems, ← hlen]; simp only [length_cons]; omega),
            length_append]
          rfl
        exact .inr ⟨z, C, rfl, hnext ▸ Points.leaf hcut⟩
  | @key h n pre c k c' post hn =>
    have hc' := ok_of_plug hok (hn.trans (plug_concat k c c' pre post).symm)
    obtain ⟨y, C, hp⟩ := digLeft_points hc'.numItems_pos hc'.children
    have hterm : n.terminal [pre.length] = some k := (Points.key hn).terminal_eq
    have hnext : n.next [pre.length] = (pre.length + 1) :: digLeft c' := by
      rw [next, hn, child_plug_succ]
    have hpn := hp.child (hn.trans (plug_concat k c c' pre post).symm)
    rw [length_append, length_singleton, seqBefore_concat, append_nil, ← append_assoc] at hpn
    rw [hterm, hnext]
    exact ⟨_, rfl, .inr ⟨y, _, congrArg (· ++ _) hp.toList_eq, hpn⟩⟩
  | @child h n pre c post hn path A B hc ih =>
    have hcok := ok_of_plug hok hn
    obtain ⟨C, hB, hnext⟩ := ih hcok.children
    have hchild : n.items.child pre.length = some c := hn ▸ child_plug c pre post
    rw [terminal_cons hc.ne_nil hchild, next_cons hc.ne_nil hchild]
    refine ⟨C ++ seqAfter _ post, by rw [hB, append_assoc], ?_⟩
    rcases hnext with ⟨hnil, rfl⟩ | ⟨x, C', rfl, hp⟩
    · -- the subtree has no item left: up to the separator on its right
      rw [if_pos hnil]
      cases post with
      | nil => exact .inl ⟨if_pos (by rw [numItems, hn, num_plug]; rfl), rfl⟩
      | cons p post =>
        obtain ⟨k, c'⟩ := p
        rw [if_neg (by rw [numItems, hn, num_plug, length_cons]; omega)]
        have hp := Points.key hn
        rw [hc.toList_eq, hB, append_nil, ← append_assoc] at hp
        exact .inr ⟨k, _, rfl, hp⟩
    · rw [if_neg hp.cut.ne_nil]
      have := hp.child hn
      rw [← append_assoc] at this
      exact .inr ⟨x, _, rfl, this⟩

theorem At.prev_spec (hat : At n path A B) (hok : ∀ c ∈ n.items.children, Ok L h c) :
    (n.prev path = [] ∧ A = []) ∨ ∃ A' x, A = A' ++ [x] ∧ Points n (n.prev path) A' x B := by
  induction hat with
  | @leaf n A B hn =>
    rcases eq_nil_or_concat A with rfl | ⟨A, x, rfl⟩
    · exact .inl ⟨rfl, rfl⟩
    · rw [concat_eq_append, append_assoc] at hn
      have hprev : n.prev [(A.concat x).length] = [A.length] := by
        rw [concat_eq_append, length_append, length_singleton]
        rfl
      exact .inr ⟨A, x, concat_eq_append .., hprev ▸ Points.leaf hn⟩
  | @key h n pre c k c' post hn =>
    have hcok := ok_of_plug hok hn
    obtain ⟨A, x, hp⟩ := digRight_points hcok.numItems_pos hcok.children
    have hprev : n.prev [pre.length] = pre.length :: digRight c := by
      rw [prev, hn, child_plug]
    rw [hprev]
    exact .inr ⟨_, x, by simp [toList_succ, hp.toList_eq], hp.child hn⟩
  | @child h n pre c post hn path A B hc ih =>
    have hcok := ok_of_plug hok hn
    have hchild : n.items.child pre.length = some c := hn ▸ child_plug c pre post
    rw [prev_cons hc.ne_nil hchild]
    rcases ih hcok.children with ⟨hnil, rfl⟩ | ⟨A', x, rfl, hp⟩
    · -- the subtree has no item before: up to the separator on its left
      rw [if_pos hnil]
      rcases eq_nil_or_concat pre with rfl | ⟨pre, ⟨b, k⟩, rfl⟩
      · exact .inl ⟨rfl, rfl⟩
      · rw [concat_eq_append] at *
        rw [length_append, length_singleton, if_neg (Nat.succ_ne_zero _), Nat.add_sub_cancel]
        have hp := Points.key (hn.trans (plug_concat k b c pre post))
        rw [hc.toList_eq] at hp
        exact .inr ⟨_, k, by rw [seqBefore_concat, append_nil, append_assoc]; rfl, hp⟩
    · rw [if_neg hp.cut.ne_nil]
      exact .inr ⟨_, x, by simp, hp.child hn⟩

/-! ## §4 Ranks -/

theorem rank_cons {n : Node α (h + 1)} (hne : path ≠ []) (hc : n.items.child pos = some c) :
    n.rank (pos :: path) = treeCounts (n.items.children.take pos) + pos + c.rank path := by
  cases path with
  | nil => exact absurd rfl hne
  | cons p path => simp [rank, hc]

/-- The items before a child, counted by the children and the keys. -/
theorem length_seqBefore {pre : List (Child α h × α)} (hok : ∀ c ∈ pre.map Prod.fst, Ok L h c) :
    (seqBefore (Child.toList h) pre).length = treeCounts (pre.map Prod.fst) + pre.length := by
  rw [treeCounts_eq hok]
  clear hok
  induction pre with
  | nil => rfl
  | cons p pre ih =>
    have hcons : seqBefore (Child.toList h) (p :: pre) =
        Child.toList h p.1 ++ [p.2] ++ seqBefore (Child.toList h) pre := rfl
    rw [hcons, length_append, length_append, ih]
    simp only [length_nil, map_cons, sum_cons, length_cons]
    omega

theorem take_children_plug {n : Node α (h + 1)} {c : Child α (h + 1)}
    (hn : n.items = plug pre c post) :
    n.items.children.take pre.length = pre.map Prod.fst := by
  rw [hn, children_plug, take_left' (length_map _)]

/-- `Rank` counts the items before the cut of a path. -/
theorem At.rank_eq (hat : At n path A B) (hok : ∀ c ∈ n.items.children, Ok L h c) :
    n.rank path = A.length := by
  induction hat with
  | leaf n hn => rfl
  | @key h n pre c k c' post hn =>
    have hpre : ∀ d ∈ (pre ++ [(c, k)]).map fst, Ok L (h + 1) d := by
      intro d hd
      apply hok
      rw [hn, ← plug_concat, children_plug]
      exact mem_append_left _ hd
    have htake := take_children_plug (hn.trans (plug_concat k c c' pre post).symm)
    have hlen := length_seqBefore hpre
    rw [seqBefore_concat, length_append, length_append] at hlen
    rw [length_append, length_singleton] at htake
    rw [rank, htake, length_append]
    simp only [length_append, length_singleton] at hlen
    omega
  | @child h n pre c post hn path A B hc ih =>
    have hcok := ok_of_plug hok hn
    have hpre : ∀ d ∈ pre.map fst, Ok L (h + 1) d := by
      intro d hd
      apply hok
      rw [hn, children_plug]
      exact mem_append_left _ hd
    rw [rank_cons hc.ne_nil (hn ▸ child_plug c pre post), take_children_plug hn,
      ih hcok.children, length_append, length_seqBefore hpre]

/-- The child that the loop of `ToRank` goes down to, or the key at which it stops. -/
theorem rankLoop_spec (post : List (α × Child α h)) (pre : List (Child α h × α)) (c : Child α h)
    {r : ℕ} (hok : ∀ d ∈ c :: post.map Prod.snd, Ok L h d)
    (hr : r < (Child.toList h c ++ seqAfter (Child.toList h) post).length) :
    (∃ pre' c' post' r', rankLoop (c :: post.map Prod.snd) pre.length r =
        some (pre'.length, some (c', r')) ∧ plug pre c post = plug pre' c' post' ∧
        r' < (Child.toList h c').length ∧ (seqBefore (Child.toList h) pre').length + r' =
          (seqBefore (Child.toList h) pre).length + r) ∨
      ∃ pre' c' k c'' post', rankLoop (c :: post.map Prod.snd) pre.length r =
        some (pre'.length, none) ∧ plug pre c post = plug pre' c' ((k, c'') :: post') ∧
        (seqBefore (Child.toList h) pre').length + (Child.toList h c').length =
          (seqBefore (Child.toList h) pre).length + r := by
  have hc := (hok c mem_cons_self).treeCount_eq
  induction post generalizing pre c r with
  | nil =>
    have hlt : r < c.treeCount := by
      rw [hc]
      simpa [seqAfter] using hr
    exact .inl ⟨pre, c, [], r, by simp [rankLoop, if_pos hlt], rfl, hc ▸ hlt, rfl⟩
  | cons p post ih =>
    obtain ⟨k, c'⟩ := p
    by_cases hlt : r < c.treeCount
    · exact .inl ⟨pre, c, _, r, by rw [rankLoop, if_pos hlt], rfl, hc ▸ hlt, rfl⟩
    · by_cases hzero : r - c.treeCount = 0
      · refine .inr ⟨pre, c, k, c', post, by rw [rankLoop, if_neg hlt, if_pos hzero], rfl, ?_⟩
        omega
      · -- past the child and the key
        rw [seqAfter_cons, length_append, length_cons] at hr
        have hrest := ih (pre ++ [(c, k)]) c' (r := r - c.treeCount - 1)
          (fun d hd => hok d (mem_cons_of_mem _ hd)) (by omega)
          (hok c' (mem_cons_of_mem _ mem_cons_self)).treeCount_eq
        have hbefore : (seqBefore (Child.toList h) (pre ++ [(c, k)])).length +
            (r - c.treeCount - 1) = (seqBefore (Child.toList h) pre).length + r := by
          rw [seqBefore_concat, length_append, length_append, length_singleton]
          omega
        rw [plug_concat, hbefore, length_append, length_singleton] at hrest
        rw [rankLoop, if_neg hlt, if_neg hzero]
        exact hrest

/-- The path to a rank points to the item of that rank. -/
theorem toRank_points : {h : ℕ} → {n : Node α h} → {r : ℕ} →
    (∀ c ∈ n.items.children, Ok L h c) → r < n.toList.length →
    ∃ A x B, Points n (n.toRank r) A x B ∧ A.length = r
  | 0, n, r, _, hr => by
    rw [n.toList_leaf] at hr
    have hcut : n.items.keys = n.items.keys.take r ++ n.items.keys[r] ::
      n.items.keys.drop (r + 1) := by
      simp
    have hlen : (n.items.keys.take r).length = r := length_take_of_le (Nat.le_of_lt hr)
    have hp := Points.leaf hcut
    rw [hlen] at hp
    exact ⟨_, _, _, hp, hlen⟩
  | h + 1, n, 0, hok, _ => by
    have hfirst := hok n.items.first mem_cons_self
    have hpos : 0 < (toList n.items.first).length := by
      rw [toList, length_seq_toList]
      exact Nat.add_pos_left hfirst.numItems_pos _
    obtain ⟨A, x, B, hp, hlen⟩ := toRank_points hfirst.children hpos
    have hplug : n.items = plug [] n.items.first n.items.rest := rfl
    exact ⟨_, x, _, hp.child hplug, hlen⟩
  | h + 1, n, r + 1, hok, hr => by
    have hr' : r + 1 < (Child.toList (h + 1) n.items.first ++
        seqAfter (Child.toList _) n.items.rest).length := hr
    have hloop := rankLoop_spec n.items.rest [] n.items.first hok hr'
    rw [toRank]
    rcases hloop with ⟨pre, c, post, r', hl, hn, hlt, heq⟩ | ⟨pre, c, k, c', post, hl, hn, heq⟩
    · rw [show rankLoop n.items.children 0 (r + 1) = _ from hl]
      have hn : n.items = plug pre c post := hn
      have hcok := ok_of_plug hok hn
      obtain ⟨A, x, B, hp, hlen⟩ := toRank_points hcok.children hlt
      refine ⟨_, x, _, hp.child hn, ?_⟩
      rw [length_append, hlen, heq]
      exact Nat.zero_add _
    · rw [show rankLoop n.items.children 0 (r + 1) = _ from hl]
      have hn : n.items = plug pre c ((k, c') :: post) := hn
      refine ⟨_, k, _, Points.key hn, ?_⟩
      rw [length_append]
      exact heq.trans (Nat.zero_add _)

/-! ## §5 The search for a query -/

/-- A query against an ordered list: above its first items, then equal to at most one, and below all
    that follow. -/
def Cuts (cut : α → Ordering) (xs : List α) : Prop :=
  xs.Pairwise fun a b => cut a = .gt ∨ cut b = .lt

variable {cut : α → Ordering} {xs ys : List α}

theorem Cuts.before (hc : Cuts cut (xs ++ k :: ys)) (hk : cut k ≠ .lt) : ∀ a ∈ xs, cut a = .gt :=
  fun a ha => ((pairwise_append.mp hc).2.2 a ha k mem_cons_self).resolve_right hk

theorem Cuts.after (hc : Cuts cut (xs ++ k :: ys)) (hk : cut k ≠ .gt) : ∀ b ∈ ys, cut b = .lt :=
  fun b hb => ((pairwise_cons.mp (pairwise_append.mp hc).2.1).1 b hb).resolve_left hk

/-- What a search in `keys` finds: the key, or the place where all keys before are below the query
    and all after are above. -/
def Found (cut : α → Ordering) (keys : List α) (res : ℕ × Bool) : Prop :=
  ∃ A B, keys = A ++ B ∧ res.1 = A.length ∧
    ((res.2 = true ∧ ∃ x B', B = x :: B' ∧ cut x = .eq) ∨
      (res.2 = false ∧ (∀ a ∈ A, cut a = .gt) ∧ ∀ b ∈ B, cut b = .lt))

theorem bsearchLoop_spec {keys : List α} (hcuts : Cuts cut keys) {fuel lo hi : ℕ}
    (hfuel : hi - lo ≤ fuel) (hle : lo ≤ hi) (hhi : hi ≤ keys.length)
    (hlo : ∀ a ∈ keys.take lo, cut a = .gt) (hgt : ∀ b ∈ keys.drop hi, cut b = .lt) :
    ∃ res, bsearchLoop keys cut fuel lo hi = some res ∧ Found cut keys res := by
  -- the loop has ended: both bounds are at the place
  have hend : lo = hi → Found cut keys (hi, false) := fun heq =>
    ⟨keys.take hi, keys.drop hi, (take_append_drop ..).symm,
      (length_take_of_le hhi).symm, .inr ⟨rfl, heq ▸ hlo, hgt⟩⟩
  induction fuel generalizing lo hi with
  | zero => exact ⟨_, rfl, hend (by omega)⟩
  | succ fuel ih =>
    rw [bsearchLoop]
    split
    case isFalse hnlt => exact ⟨_, rfl, hend (by omega)⟩
    case isTrue hlt =>
      have hmid : (lo + hi) / 2 < keys.length := by omega
      have hcut : keys = keys.take ((lo + hi) / 2) ++
          keys[(lo + hi) / 2] :: keys.drop ((lo + hi) / 2 + 1) := by
        simp
      have hcuts' := hcuts
      rw [hcut] at hcuts'
      simp only [getElem?_eq_getElem hmid]
      cases hord : cut keys[(lo + hi) / 2] with
      | eq =>
        exact ⟨_, rfl, _, _, hcut, (length_take_of_le (Nat.le_of_lt hmid)).symm,
          .inl ⟨rfl, _, _, rfl, hord⟩⟩
      | lt =>
        have hgt' : ∀ b ∈ keys.drop ((lo + hi) / 2), cut b = .lt := by
          rw [← getElem_cons_drop hmid]
          exact forall_mem_cons.mpr ⟨hord, hcuts'.after (by rw [hord]; decide)⟩
        refine ih (by omega) (by omega) (by omega) hlo hgt' fun heq => ?_
        exact ⟨_, _, (take_append_drop ..).symm,
          (length_take_of_le (Nat.le_of_lt hmid)).symm, .inr ⟨rfl, heq ▸ hlo, hgt'⟩⟩
      | gt =>
        have hlo' : ∀ a ∈ keys.take ((lo + hi) / 2 + 1), cut a = .gt := by
          rw [take_succ_eq_append_getElem hmid]
          exact forall_mem_append.mpr ⟨hcuts'.before (by rw [hord]; decide),
            forall_mem_singleton.mpr hord⟩
        refine ih (by omega) (by omega) hhi hlo' hgt fun heq => ?_
        exact ⟨_, _, (take_append_drop ..).symm, (length_take_of_le hhi).symm,
          .inr ⟨rfl, heq ▸ hlo', hgt⟩⟩

theorem bsearch_spec (hpos : 0 < n.numItems) (hcuts : Cuts cut n.items.keys) :
    ∃ res, n.bsearch cut = some res ∧ Found cut n.items.keys res := by
  obtain ⟨A, x, hn⟩ := (eq_nil_or_concat n.items.keys).resolve_left (keys_ne_nil hpos)
  rw [concat_eq_append] at hn
  have hlen := length_keys n.items
  rw [hn, length_append, length_singleton] at hlen
  rw [hn] at hcuts
  rw [bsearch, hn, getLast?_concat, numItems, ← hlen, Nat.add_sub_cancel]
  cases hord : cut x with
  | gt =>
    simp only [hord]
    refine ⟨_, rfl, A ++ [x], [], (append_nil _).symm, ?_, .inr ⟨rfl, ?_, by simp⟩⟩
    · simp
    · exact forall_mem_append.mpr ⟨hcuts.before (by rw [hord]; decide),
        forall_mem_singleton.mpr hord⟩
  | eq =>
    simp only [hord]
    exact ⟨_, rfl, A, [x], rfl, rfl, .inl ⟨rfl, x, [], rfl, hord⟩⟩
  | lt =>
    simp only [hord]
    refine bsearchLoop_spec hcuts (Nat.sub_le _ _) (Nat.zero_le _) ?_ (by simp) ?_
    · rw [length_append]
      exact Nat.le_add_right _ _
    · simpa using hord

theorem keys_sublist (n : Node α h) : n.items.keys.Sublist n.toList := by
  obtain ⟨count, ⟨first, rest⟩⟩ := n
  unfold toList
  induction rest generalizing first with
  | nil => exact nil_sublist _
  | cons p rest ih =>
    have hseq : (⟨first, p :: rest⟩ : Alternating α (Child α h)).seq (Child.toList h) =
        Child.toList h first ++ p.1 :: (⟨p.2, rest⟩ : Alternating α _).seq (Child.toList h) := rfl
    exact ((ih p.2).cons_cons p.1).trans (sublist_append_right _ _)

/-- **Search.** The path to the equal item, or to the leaf where all items before it are below the
query and all after are above. -/
theorem locate_spec : {h : ℕ} → {n : Node α h} → 0 < n.numItems →
    (∀ c ∈ n.items.children, Ok L h c) → Cuts cut n.toList →
    (∃ path A x B, n.locate cut = some (true, path) ∧ Points n path A x B ∧ cut x = .eq) ∨
      ∃ path A B, n.locate cut = some (false, path) ∧ At n path A B ∧ path.length = h + 1 ∧
        (∀ a ∈ A, cut a = .gt) ∧ ∀ b ∈ B, cut b = .lt
  | 0, n, hpos, _, hcuts => by
    obtain ⟨⟨i, found⟩, hres, A, B, hn, rfl, hfound⟩ := bsearch_spec hpos (n.toList_leaf ▸ hcuts)
    rw [locate, hres]
    rcases hfound with ⟨rfl, x, B, rfl, hx⟩ | ⟨rfl, hlo, hhi⟩
    · exact .inl ⟨_, A, x, B, rfl, Points.leaf hn, hx⟩
    · exact .inr ⟨_, A, B, rfl, .leaf n hn, rfl, hlo, hhi⟩
  | h + 1, n, hpos, hok, hcuts => by
    obtain ⟨⟨i, found⟩, hres, A, B, hn, hlen, hfound⟩ :=
      bsearch_spec hpos (hcuts.sublist n.keys_sublist)
    obtain ⟨pre, c, post, hplug, hpre⟩ := n.items.exists_plug (i := i) (by
      have := congrArg length hn
      rw [length_keys, length_append] at this
      simp only at hlen
      omega)
    obtain rfl : i = pre.length := hpre.symm
    -- the keys around the child are those the search tells about
    have hkeys : pre.map snd = A ∧ post.map fst = B := by
      rw [hplug, keys_plug] at hn
      exact append_inj hn ((length_map _).trans hlen)
    have hcok := ok_of_plug hok hplug
    rw [toList_of_plug hplug] at hcuts
    rw [locate, hres]
    rcases hfound with ⟨rfl, x, B', rfl, hx⟩ | ⟨rfl, hlo, hhi⟩
    · obtain ⟨⟨k, c'⟩, post, rfl, rfl, -⟩ := map_eq_cons_iff.mp hkeys.2
      exact .inl ⟨_, _, _, _, rfl, Points.key hplug, hx⟩
    · have hbefore : ∀ a ∈ seqBefore (Child.toList _) pre, cut a = .gt := by
        rcases eq_nil_or_concat pre with rfl | ⟨pre, ⟨b, k⟩, rfl⟩
        · exact forall_mem_nil _
        · rw [concat_eq_append, seqBefore_concat] at *
          have hk : cut k = .gt := hlo k (hkeys.1 ▸ by simp)
          have hcuts' : Cuts cut ((seqBefore (Child.toList _) pre ++ Child.toList (h + 1) b) ++
              k :: (toList c ++ seqAfter (Child.toList _) post)) := by simpa using hcuts
          rw [← append_assoc]
          exact forall_mem_append.mpr ⟨hcuts'.before (by rw [hk]; decide),
            forall_mem_singleton.mpr hk⟩
      have hafter : ∀ b ∈ seqAfter (Child.toList _) post, cut b = .lt := by
        cases post with
        | nil => exact forall_mem_nil _
        | cons p post =>
          obtain ⟨k, c'⟩ := p
          have hk : cut k = .lt := hhi k (hkeys.2 ▸ mem_cons_self)
          rw [seqAfter_cons] at hcuts ⊢
          intro b hb
          rcases mem_cons.mp hb with rfl | hb
          · exact hk
          · rw [← append_assoc] at hcuts
            exact hcuts.after (by rw [hk]; decide) b hb
      have hccuts : Cuts cut (toList c) := (pairwise_append.mp (pairwise_append.mp hcuts).2.1).1
      have hchild : n.items.child pre.length = some c := hplug ▸ child_plug c pre post
      simp only [hchild]
      rcases locate_spec hcok.numItems_pos hcok.children hccuts with
        ⟨path, A', x, B', hloc, hp, hx⟩ | ⟨path, A', B', hloc, hat, hlen', hlo', hhi'⟩
      · rw [hloc]
        exact .inl ⟨_, _, _, _, rfl, hp.child hplug, hx⟩
      · rw [hloc]
        refine .inr ⟨_, _, _, rfl, .child n pre c post hplug hat, ?_, ?_, ?_⟩
        · simp [hlen']
        · exact forall_mem_append.mpr ⟨hbefore, hlo'⟩
        · exact forall_mem_append.mpr ⟨hhi', hafter⟩

end Node

end Drakeydb.BPTreeSet
