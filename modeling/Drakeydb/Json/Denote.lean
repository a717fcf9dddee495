import Mathlib.Data.List.Flatten
import Drakeydb.Json.Gather

/-!
# What a path denotes

The meaning of a path as a list of nodes, by recursion on the path, and how far `EvaluatePath`
agrees with it. The two agree on every path without an index that `Normalize` wraps to a position it
does not mean: a single index below `-n`, an upper bound of zero, which is kept as the closed end
`-1` and wraps to the last element, and an upper bound of at most `-n`, which wraps to the first
one.
-/

namespace Drakeydb.Json

open List Option Step

variable {σ : Type}

/-! ## §1 The meaning of a path -/

/-- A bound of a slice: counted from the end if negative, then clamped to the array. -/
def clamp (n : ℕ) (bound : ℤ) : ℕ := min (if bound < 0 then n + bound else bound).toNat n

/-- The positions that a bracket means in an array of `n` elements. -/
def Bracket.positions (n : ℕ) : Bracket → List ℕ
  | all => List.range' 0 n
  | single i =>
    if 0 ≤ i ∧ i < n then [i.toNat] else if -n ≤ i ∧ i < 0 then [(n + i).toNat] else []
  | range a b => List.range' (clamp n a) (clamp n b - clamp n a)
  | fromOn a => List.range' (clamp n a) (n - clamp n a)
  | upTo b => List.range' 0 (clamp n b)

/-- The children at some positions. -/
def Ref.childrenAt (x : Ref σ) (positions : List ℕ) : List (Ref σ) :=
  positions.filterMap fun i => x.children[i]?

/-- The nodes that one step denotes; a descent alone denotes nothing. -/
def Step.nodes (x : Ref σ) : Step → List (Ref σ)
  | identifier name => ((x.entries.find? fun entry => entry.1 == some name).map Prod.snd).toList
  | bracket index =>
    if x.json.isArray then x.childrenAt (index.positions x.children.length) else []
  | wildcard => x.children
  | descent => []

/-- **What a path denotes.** -/
def denote : List Step → Ref σ → List (Ref σ)
  | [], x => [x]
  | .descent :: rest, x => x.preorder.flatMap (denote rest)
  | step :: rest, x => (step.nodes x).flatMap (denote rest)

variable {step : Step}

theorem denote_cons (hstep : step ≠ .descent) (rest : List Step) (x : Ref σ) :
    denote (step :: rest) x = (step.nodes x).flatMap (denote rest) := by
  cases step with
  | descent => exact absurd rfl hstep
  | identifier | bracket | wildcard => rfl

/-! ## §2 What the code selects -/

/-- The nodes that the code selects along a path. -/
def select : List Step → Ref σ → List (Ref σ)
  | [], x => [x]
  | step :: rest, x => (stepNodes step.segment x).flatMap (select rest)

/-- Positions that `Normalize` selects though the bracket does not mean them. -/
def Bracket.strays (n : ℕ) : Bracket → List ℕ
  | all => []
  | single i => List.range' 0 (if i < -n then min 1 n else 0)
  | range a b =>
    List.range' (clamp n a)
      (if b = 0 then n - clamp n a else if b ≤ -n then min 1 n - clamp n a else 0)
  | fromOn _ => []
  | upTo b => List.range' 0 (if b = 0 then n else if b ≤ -n then min 1 n else 0)

/-- The positions of a normalised index expression. -/
def IndexExpr.positions (e : IndexExpr) (n : ℕ) : List ℕ :=
  List.range' (e.normalize n).first.toNat ((e.normalize n).second + 1 - (e.normalize n).first).toNat

theorem map_elements (x : Ref σ) (e : IndexExpr) :
    (x.elements e).map Prod.snd = x.childrenAt (e.positions x.entries.length) := by
  rw [Ref.elements, Ref.childrenAt, map_filterMap]
  simp only [Ref.children, getElem?_map]
  rfl

theorem range'_eq_append {s t u m k l : ℕ} (hlen : m = k + l) (hzero : k = 0 ∨ l = 0)
    (ht : 0 < k → s = t) (hu : 0 < l → s = u) :
      List.range' s m = List.range' t k ++ List.range' u l := by
  subst hlen
  rcases hzero with rfl | rfl
  · rw [range'_zero, nil_append, Nat.zero_add]
    cases l with
    | zero => rfl
    | succ l => rw [hu (Nat.succ_pos l)]
  · rw [range'_zero, append_nil, Nat.add_zero]
    cases k with
    | zero => rfl
    | succ k => rw [ht (Nat.succ_pos k)]

theorem range'_congr {s t m k : ℕ} (hlen : m = k) (hstart : 0 < k → s = t) :
    List.range' s m = List.range' t k := by
  have happend := range'_eq_append (u := s) (l := 0) hlen (.inr rfl) hstart (fun _ => rfl)
  rwa [range'_zero, append_nil] at happend

/-- Where a normalised index expression ends, as the first position not selected. -/
def IndexExpr.stop (e : IndexExpr) (n : ℕ) : ℕ :=
  (if e.second < 0 then max 0 (n + e.second) + 1 else min (e.second + 1) n).toNat

theorem IndexExpr.positions_eq (e : IndexExpr) {n : ℕ} (hpos : 0 < n) (hn : n ≤ 2 ^ 31 - 1) :
    e.positions n = List.range' (clamp n e.first) (e.stop n - clamp n e.first) := by
  rw [positions, normalize_eq e hpos hn]
  apply range'_congr <;> dsimp only [clamp, stop] <;> omega

theorem Bracket.positions_single (n : ℕ) (i : ℤ) :
    (single i).positions n =
      List.range' (if i < 0 then n + i else i).toNat (if -n ≤ i ∧ i < n then 1 else 0) := by
  rw [positions]
  split
  case isTrue hin => exact range'_congr (s := i.toNat) (m := 1) (by grind) (by grind)
  case isFalse hout =>
    split
    case isTrue hwrap => exact range'_congr (s := (n + i).toNat) (m := 1) (by grind) (by grind)
    case isFalse hnot => exact range'_congr (s := 0) (m := 0) (by grind) (by grind)

/-- **What an index expression selects** is what the bracket means, and what strays. -/
theorem Bracket.positions_indexExpr (b : Bracket) {n : ℕ} (hpos : 0 < n) (hn : n ≤ 2 ^ 31 - 1) :
    b.indexExpr.positions n = b.positions n ++ b.strays n := by
  rw [IndexExpr.positions_eq _ hpos hn]
  cases b with
  | all =>
    rw [strays, append_nil]
    apply range'_congr <;>
      simp only [indexExpr, IndexExpr.all, IndexExpr.stop, intMax, clamp] <;> omega
  | single i =>
    rw [strays, positions_single]
    simp only [indexExpr, IndexExpr.stop, clamp]
    apply range'_eq_append <;> grind
  | range a b =>
    rw [strays, positions]
    simp only [indexExpr, IndexExpr.halfOpen, IndexExpr.stop, clamp]
    apply range'_eq_append <;> grind
  | fromOn a =>
    rw [strays, append_nil]
    apply range'_congr <;> simp only [indexExpr, IndexExpr.stop, intMax, clamp] <;> omega
  | upTo b =>
    rw [strays, positions]
    simp only [indexExpr, IndexExpr.halfOpen, IndexExpr.stop, clamp]
    apply range'_eq_append <;> grind

/-- The nodes that a step selects though it does not denote them. -/
def Step.strays (x : Ref σ) : Step → List (Ref σ)
  | bracket index => if x.json.isArray then x.childrenAt (index.strays x.children.length) else []
  | _ => []

variable {x : Ref σ}

theorem Ref.key_of_not_isObject (hobject : ¬ x.json.isObject = true) {entry : Hit σ}
    (hentry : entry ∈ x.entries) : entry.1 = none := by
  obtain ⟨loc, json⟩ := x
  obtain ⟨i, hi, rfl⟩ := mem_mapIdx.mp hentry
  cases json with
  | scalar value => exact absurd hi (Nat.not_lt_zero i)
  | array elems => simp [Json.entries]
  | object members => exact absurd rfl hobject

theorem performStep_identifier (name : String) (x : Ref σ) :
    (performStep (.identifier name) x).map Prod.snd = (identifier name).nodes x := by
  rw [performStep, nodes, Ref.find]
  split
  case isTrue =>
    rw [← find?_eq_bind_findIdx?_getElem?]
    cases x.entries.find? fun entry => entry.1 == some name <;> rfl
  case isFalse hobject =>
    have hnone : (x.entries.find? fun entry => entry.1 == some name) = none := by
      apply find?_eq_none.mpr
      intro entry hentry
      rw [Ref.key_of_not_isObject hobject hentry]
      exact Bool.false_ne_true
    rw [hnone]
    rfl

theorem childrenAt_append (x : Ref σ) (is js : List ℕ) :
    x.childrenAt (is ++ js) = x.childrenAt is ++ x.childrenAt js := filterMap_append

theorem mem_children_of_childrenAt {c : Ref σ} {positions : List ℕ}
    (h : c ∈ x.childrenAt positions) :
    c ∈ x.children := by
  obtain ⟨i, _, hi⟩ := mem_filterMap.mp h
  exact mem_of_getElem? hi

/-- What an index expression selects is what is meant, and what strays. -/
theorem performStep_bracket (b : Bracket) (hfits : x.Fits) :
    (performStep (.index b.indexExpr) x).map Prod.snd = (bracket b).nodes x ++
      (bracket b).strays x := by
  rw [performStep, nodes, strays]
  split
  case isFalse => rfl
  case isTrue harray =>
    have hlen : x.children.length = x.entries.length := length_map _
    rw [map_elements, ← childrenAt_append, hlen]
    rcases Nat.eq_zero_or_pos x.entries.length with hzero | hpos
    · have hnil : ∀ positions, x.childrenAt positions = [] := by
        intro positions
        apply eq_nil_iff_forall_not_mem.mpr
        intro c hc
        have hmem := mem_children_of_childrenAt hc
        rw [eq_nil_of_length_eq_zero (hlen.trans hzero)] at hmem
        cases hmem
      rw [hnil, hnil]
    · rw [Bracket.positions_indexExpr b hpos (hfits.length_le harray)]

/-- **One step of the code** selects the nodes of the step, and those that stray. -/
theorem stepNodes_segment (hstep : step ≠ .descent) (hfits : x.Fits) :
    stepNodes step.segment x = step.nodes x ++ step.strays x := by
  cases step with
  | descent => exact absurd rfl hstep
  | identifier name =>
    rw [strays, append_nil, ← performStep_identifier]
    · rfl
    · intro index h
      cases h
  | bracket b => exact performStep_bracket b hfits
  | wildcard => exact (append_nil x.children).symm

variable {path : List Step}

theorem map_gather (hpath : Accepted path) (hne : path ≠ []) (x : Ref σ) :
    (gather performStep (path.map segment) x).map Prod.snd = select path x := by
  induction path generalizing x with
  | nil => exact absurd rfl hne
  | cons step rest ih =>
    cases rest with
    | nil =>
      have hstep : step.segment ≠ .descent := by
        cases step with
        | descent => exact absurd (hpath.1 rfl) Bool.false_ne_true
        | identifier name | bracket index | wildcard => exact PathSegment.noConfusion
      rw [map_cons, map_nil, gather_singleton, ← stepNodes_of_ne hstep]
      exact (flatMap_singleton' _).symm
    | cons next rest =>
      have hnext : ∀ y ∈ stepNodes step.segment x,
          (gather performStep ((next :: rest).map segment) y).map Prod.snd =
            select (next :: rest) y :=
        fun y _ => ih hpath.2 (cons_ne_nil _ _) y
      rw [map_cons, map_cons, gather, map_flatMap, select]
      exact flatMap_congr hnext

/-! ## §3 Where the two agree -/

theorem append_eq_append_iff_of_sublist {α : Type} {f1 f2 g1 g2 : List α} (h1 : g1.Sublist f1)
    (h2 : g2.Sublist f2) : f1 ++ f2 = g1 ++ g2 ↔ f1 = g1 ∧ f2 = g2 := by
  constructor
  · intro heq
    have hlen := congrArg length heq
    rw [length_append, length_append] at hlen
    have hle1 := h1.length_le
    have hle2 := h2.length_le
    exact ⟨(h1.eq_of_length (by omega)).symm, (h2.eq_of_length (by omega)).symm⟩
  · rintro ⟨rfl, rfl⟩
    rfl

theorem flatMap_eq_flatMap_iff_of_sublist {α β : Type} {l : List α} {f g : α → List β}
    (h : ∀ a ∈ l, (g a).Sublist (f a)) : l.flatMap f = l.flatMap g ↔ ∀ a ∈ l, f a = g a := by
  induction l with
  | nil => exact ⟨fun _ a ha => absurd ha not_mem_nil, fun _ => rfl⟩
  | cons a l ih =>
    have htail := fun b hb => h b (mem_cons_of_mem a hb)
    rw [flatMap_cons, flatMap_cons,
      append_eq_append_iff_of_sublist (h a mem_cons_self) (Sublist.flatMap_right _ htail), ih htail,
        forall_mem_cons]

variable {y : Ref σ}

theorem Ref.Fits.of_mem_preorder (hfits : x.Fits) (hy : y ∈ x.preorder) : y.Fits := by
  induction x using Ref.induction with
  | h x ih =>
    rw [Ref.preorder_eq] at hy
    rcases mem_cons.mp hy with rfl | hy
    · exact hfits
    · obtain ⟨c, hc, hy⟩ := mem_flatMap.mp hy
      exact ih c hc (hfits.child hc) hy

theorem Step.nodes_subset (step : Step) (hy : y ∈ step.nodes x) : y ∈ x.children := by
  cases step with
  | identifier name =>
    obtain ⟨entry, hfind, rfl⟩ := map_eq_some_iff.mp (mem_toList.mp hy)
    exact mem_map_of_mem (mem_of_find?_eq_some hfind)
  | bracket index =>
    rw [nodes] at hy
    split at hy
    case isTrue => exact mem_children_of_childrenAt hy
    case isFalse => cases hy
  | wildcard => exact hy
  | descent => cases hy

theorem Step.strays_subset (step : Step) (hy : y ∈ step.strays x) : y ∈ x.children := by
  cases step with
  | bracket index =>
    rw [strays] at hy
    split at hy
    case isTrue => exact mem_children_of_childrenAt hy
    case isFalse => cases hy
  | identifier name => cases hy
  | wildcard => cases hy
  | descent => cases hy

/-- Everything a path denotes is selected, in this order; only more may be. -/
theorem denote_sublist_select (path : List Step) (hfits : x.Fits) :
    (denote path x).Sublist (select path x) := by
  induction path generalizing x with
  | nil => exact .refl _
  | cons step rest ih =>
    by_cases hstep : step = .descent
    · subst hstep
      exact Sublist.flatMap_right _ fun y hy => ih (hfits.of_mem_preorder hy)
    · rw [denote_cons hstep, select, stepNodes_segment hstep hfits, flatMap_append]
      have hnodes := Sublist.flatMap_right _ fun y hy => ih (hfits.child (step.nodes_subset hy))
      exact hnodes.trans (sublist_append_left _ _)

/-- A path is straight from a node if no step selects a node by mistake, or the rest of the path
leads nowhere from those that it does. -/
def Straight : List Step → Ref σ → Prop
  | [], _ => True
  | .descent :: rest, x => ∀ y ∈ x.preorder, Straight rest y
  | step :: rest, x =>
    (∀ y ∈ step.nodes x, Straight rest y) ∧ ∀ y ∈ step.strays x, Straight rest y ∧
      denote rest y = []

theorem straight_cons (hstep : step ≠ .descent) (rest : List Step) (x : Ref σ) :
    Straight (step :: rest) x ↔
      (∀ y ∈ step.nodes x, Straight rest y) ∧ ∀ y ∈ step.strays x, Straight rest y ∧
        denote rest y = [] := by
  cases step with
  | descent => exact absurd rfl hstep
  | identifier | bracket | wildcard => rfl

/-- **The code selects what a path denotes exactly if the path is straight.** -/
theorem select_eq_denote_iff (path : List Step) (hfits : x.Fits) :
    select path x = denote path x ↔ Straight path x := by
  induction path generalizing x with
  | nil => exact ⟨fun _ => trivial, fun _ => rfl⟩
  | cons step rest ih =>
    by_cases hstep : step = .descent
    · subst hstep
      refine (flatMap_eq_flatMap_iff_of_sublist fun y hy =>
        denote_sublist_select rest (hfits.of_mem_preorder hy)).trans ?_
      exact forall₂_congr fun y hy => ih (hfits.of_mem_preorder hy)
    · have hnodes : ∀ y ∈ step.nodes x, y.Fits := fun y hy => hfits.child (step.nodes_subset hy)
      have hstrays : ∀ y ∈ step.strays x, y.Fits := fun y hy => hfits.child (step.strays_subset hy)
      have hsub := Sublist.flatMap_right _ fun y hy => denote_sublist_select rest (hnodes y hy)
      rw [denote_cons hstep, select, stepNodes_segment hstep hfits, flatMap_append,
        straight_cons hstep]
      conv_lhs => rhs; rw [← append_nil ((step.nodes x).flatMap (denote rest))]
      rw [append_eq_append_iff_of_sublist hsub (nil_sublist _),
        flatMap_eq_flatMap_iff_of_sublist fun y hy => denote_sublist_select rest (hnodes y hy),
        flatMap_eq_nil_iff]
      refine and_congr (forall₂_congr fun y hy => ih (hnodes y hy)) (forall₂_congr fun y hy => ?_)
      -- nothing is selected from a stray node: nothing is denoted, and the selection is right
      constructor
      · intro hnil
        have hdenote : denote rest y = [] :=
          sublist_nil.mp (hnil ▸ denote_sublist_select rest (hstrays y hy))
        exact ⟨(ih (hstrays y hy)).mp (hnil.trans hdenote.symm), hdenote⟩
      · rintro ⟨hstraight, hdenote⟩
        rw [(ih (hstrays y hy)).mpr hstraight, hdenote]

/-! ## §4 Evaluation -/

/-- `EvaluatePath` on an accepted path stops, and calls back on the nodes that are selected. -/
theorem evaluatePath_spec (hpath : Accepted path) {root : Ref σ} (hfits : root.Fits) :
    ∃ hits rounds, (∀ fuel, rounds ≤ fuel → evaluatePath fuel (path.map segment) root = some hits) ∧
      hits.map Prod.snd = select path root := by
  cases path with
  | nil => exact ⟨[(none, root)], 0, fun _ _ => rfl, rfl⟩
  | cons step rest =>
    have hne : (step :: rest).map segment ≠ [] := cons_ne_nil _ _
    obtain ⟨rounds, htraverse⟩ := traverse_spec root hne hfits
    refine ⟨_, rounds, fun fuel hle => ?_, map_gather hpath (cons_ne_nil _ _) root⟩
    rw [evaluatePath, if_neg hne, htraverse fuel hle]

/-- **`EvaluatePath` calls back on the nodes that the path denotes**, in their order and with their
    repetitions, exactly if the path is straight from the root. -/
theorem evaluatePath_eq_denote_iff (path : List Step) (hpath : Accepted path) (root : Ref σ)
    (hfits : root.Fits) :
    (∃ rounds, ∀ fuel, rounds ≤ fuel →
      (evaluatePath fuel (path.map Step.segment) root).map (List.map Prod.snd) =
        some (denote path root)) ↔ Straight path root := by
  obtain ⟨hits, rounds, heval, hhits⟩ := evaluatePath_spec hpath hfits
  rw [← select_eq_denote_iff path hfits]
  constructor
  · rintro ⟨rounds', hdenote⟩
    have hfuel := hdenote (max rounds rounds') (Nat.le_max_right _ _)
    rw [heval _ (Nat.le_max_left _ _), map_some, hhits] at hfuel
    exact some.inj hfuel
  · intro hselect
    refine ⟨rounds, fun fuel hle => ?_⟩
    rw [heval fuel hle, map_some, hhits, hselect]

/-- The document `{"a": [1, 2]}`. -/
def memberOfTwo : Ref ℕ := ⟨[], .object [("a", .array [.scalar 1, .scalar 2])]⟩

theorem memberOfTwo_fits : memberOfTwo.Fits := by
  intro y hy
  simp only [memberOfTwo, Ref.preorder_eq, Ref.children, Ref.entries, Json.entries, map_cons,
    map_nil, mapIdx_cons, mapIdx_nil, flatMap_cons, flatMap_nil,
    append_nil, cons_append, nil_append, mem_cons, not_mem_nil, or_false] at hy
  rcases hy with rfl | rfl | rfl | rfl <;> decide

theorem memberOfTwo_straight : Straight [.identifier "a", .bracket (.single (-1))] memberOfTwo := by
  have hstrays : ∀ y ∈ (identifier "a").nodes memberOfTwo,
      (bracket (.single (-1))).strays y = [] := by
    intro y hy
    cases mem_singleton.mp hy
    rfl
  refine ⟨fun y hy => ⟨fun _ _ => trivial, fun z hz => ?_⟩, fun y hy => ?_⟩
  · rw [hstrays y hy] at hz
    cases hz
  · cases hy

/-- `$.a[-1]` on it. -/
theorem evaluatePath_member_element :
    ∃ rounds, ∀ fuel, rounds ≤ fuel →
      (evaluatePath fuel ([Step.identifier "a", .bracket (.single (-1))].map Step.segment)
        memberOfTwo).map (List.map Prod.snd) = some [⟨[0, 1], .scalar 2⟩] :=
  (evaluatePath_eq_denote_iff [.identifier "a", .bracket (.single (-1))] (by decide)
    memberOfTwo memberOfTwo_fits).mpr memberOfTwo_straight

/-- `$[-4]` on `[1, 2, 3]` denotes nothing, but the callback gets the first element. -/
theorem evaluatePath_index_below_start :
    Accepted [.bracket (.single (-4))] ∧
    denote [.bracket (.single (-4))]
      ⟨[], .array [.scalar (1 : ℕ), .scalar 2, .scalar 3]⟩ = [] ∧
    ∀ fuel, evaluatePath fuel ([Step.bracket (.single (-4))].map Step.segment)
      ⟨[], .array [.scalar (1 : ℕ), .scalar 2, .scalar 3]⟩ = some [(none, ⟨[0], .scalar 1⟩)] :=
  ⟨by decide, rfl, fun _ => rfl⟩

end Drakeydb.Json
