import Mathlib.Data.List.Lex
import Mathlib.Data.List.TakeWhile
import Mathlib.Data.List.Sort

/-!
# Maps as Sorted Lists, and Inverted Indices

A map with keys from a linear order is the list of its entries, sorted by key, so that maps with the
same entries are equal. An inverted index maps a token to the documents that have it, each with some
information; a token without documents has no entry.
-/

namespace Drakeydb.Lib

open List

variable {κ ν ι ο : Type*} [LinearOrder κ] [LinearOrder ι]

/-- What the first entry under a key says. -/
def assoc (l : List (κ × ν)) (k : κ) : Option ν := (l.find? fun e => decide (e.1 = k)).map Prod.snd

theorem assoc_cons (e : κ × ν) (l : List (κ × ν)) (k : κ) :
    assoc (e :: l) k = if e.1 = k then some e.2 else assoc l k := by
  rw [assoc, find?_cons]
  by_cases heq : e.1 = k
  · rw [decide_eq_true heq, if_pos heq]
    rfl
  · rw [decide_eq_false heq, if_neg heq]
    rfl

theorem assoc_eq_none {l : List (κ × ν)} {k : κ} (h : ∀ e ∈ l, e.1 ≠ k) : assoc l k = none := by
  rw [assoc, find?_eq_none.mpr fun e he heq => h e he (of_decide_eq_true heq)]
  rfl

theorem assoc_map {ω : Type*} (f : ν → ω) (l : List (κ × ν)) (k : κ) :
    assoc (l.map fun e => (e.1, f e.2)) k = (assoc l k).map f := by
  induction l with
  | nil => rfl
  | cons e l ih =>
    rw [map_cons, assoc_cons, assoc_cons, ih]
    split <;> rfl

theorem assoc_const (keys : List κ) (v : ν) (k : κ) [Decidable (k ∈ keys)] :
    assoc (keys.map fun key => (key, v)) k = if k ∈ keys then some v else none := by
  split
  case isTrue hmem =>
    induction keys with
    | nil => cases hmem
    | cons key keys ih =>
      rw [map_cons, assoc_cons]
      split
      case isTrue => rfl
      case isFalse hne => exact ih ((mem_cons.mp hmem).resolve_left fun heq => hne heq.symm)
  case isFalse hnot =>
    refine assoc_eq_none fun e he heq => ?_
    obtain ⟨key, hkey, rfl⟩ := mem_map.mp he
    exact hnot (heq ▸ hkey)

/-- A map as the list of its entries. -/
structure SortedMap (κ ν : Type*) [LinearOrder κ] where
  list : List (κ × ν)
  sorted : list.Pairwise fun a b => a.1 < b.1

namespace SortedMap

variable {m m' : SortedMap κ ν}

def empty : SortedMap κ ν := ⟨[], List.Pairwise.nil⟩

def find? (m : SortedMap κ ν) (k : κ) : Option ν := assoc m.list k

/-- The entries with the one under a key altered. -/
def alterList (k : κ) (f : Option ν → Option ν) (m : SortedMap κ ν) : List (κ × ν) :=
  m.list.takeWhile (fun e => decide (e.1 < k)) ++
    ((f (m.find? k)).toList.map (k, ·) ++ m.list.dropWhile fun e => decide (e.1 ≤ k))

variable {k : κ} {e : κ × ν}

/-- Of keys that a test accepts from below, those after the first refusal are refused. -/
theorem not_of_mem_dropWhile {p : κ → Prop} [DecidablePred p] (hdown : ∀ i j, i < j → p j → p i)
    (he : e ∈ m.list.dropWhile fun e => decide (p e.1)) : ¬ p e.1 := by
  have hsorted := m.sorted
  generalize m.list = l at he hsorted
  induction l with
  | nil => cases he
  | cons a l ih =>
    obtain ⟨hhead, htail⟩ := pairwise_cons.mp hsorted
    rw [dropWhile_cons] at he
    split at he
    case isTrue => exact ih he htail
    case isFalse hnot =>
      have hnot : ¬ p a.1 := fun hp => hnot (decide_eq_true hp)
      rcases mem_cons.mp he with rfl | he
      · exact hnot
      · exact fun hp => hnot (hdown a.1 e.1 (hhead e he) hp)

theorem mem_dropWhile_le (he : e ∈ m.list.dropWhile fun e => decide (e.1 ≤ k)) : k < e.1 :=
  lt_of_not_ge (not_of_mem_dropWhile (fun _ _ hlt hle => hlt.le.trans hle) he)

theorem mem_takeWhile_lt (he : e ∈ m.list.takeWhile fun e => decide (e.1 < k)) :
    e.1 < k := by simpa using mem_takeWhile_imp he

theorem alterList_sorted (k : κ) (f : Option ν → Option ν) (m : SortedMap κ ν) :
    (alterList k f m).Pairwise fun a b => a.1 < b.1 := by
  have hnew : ∀ e ∈ (f (m.find? k)).toList.map (k, ·), e.1 = k := by
    intro e he
    obtain ⟨v, -, rfl⟩ := mem_map.mp he
    rfl
  refine pairwise_append.mpr ⟨m.sorted.sublist (takeWhile_sublist _), ?_, fun a ha b hb => ?_⟩
  · refine pairwise_append.mpr ⟨?_, m.sorted.sublist (dropWhile_sublist _), fun a ha b hb => ?_⟩
    · cases f (m.find? k) with
      | none => exact List.Pairwise.nil
      | some v => exact pairwise_singleton _ _
    · exact hnew a ha ▸ mem_dropWhile_le hb
  · rcases mem_append.mp hb with hb | hb
    · exact hnew b hb ▸ mem_takeWhile_lt ha
    · exact (mem_takeWhile_lt ha).trans (mem_dropWhile_le hb)

/-- The entry under a key altered: made, changed or dropped. -/
def alter (k : κ) (f : Option ν → Option ν) (m : SortedMap κ ν) : SortedMap κ ν :=
  ⟨alterList k f m, alterList_sorted k f m⟩

/-! ## §1 Finding -/

theorem nodup_keys (m : SortedMap κ ν) : (m.list.map Prod.fst).Nodup :=
  pairwise_map.mpr (m.sorted.imp ne_of_lt)

theorem eq_of_mem {v v' : ν} (h : (k, v) ∈ m.list) (h' : (k, v') ∈ m.list) : v = v' :=
  congrArg Prod.snd (inj_on_of_nodup_map m.nodup_keys h h' rfl)

theorem find?_eq_some_iff {v : ν} : m.find? k = some v ↔ (k, v) ∈ m.list := by
  rw [find?, assoc, Option.map_eq_some_iff]
  constructor
  · rintro ⟨e, he, rfl⟩
    have hkey : e.1 = k := by simpa using find?_some he
    exact hkey ▸ mem_of_find?_eq_some he
  · intro hmem
    cases hfind : m.list.find? fun e => decide (e.1 = k) with
    | none => exact absurd (decide_eq_true rfl) (find?_eq_none.mp hfind _ hmem)
    | some e =>
      have hkey : e.1 = k := by simpa using find?_some hfind
      have he : (k, e.2) ∈ m.list := hkey ▸ mem_of_find?_eq_some hfind
      exact ⟨e, rfl, eq_of_mem he hmem⟩

theorem find?_eq_none_iff : m.find? k = none ↔ ∀ v, (k, v) ∉ m.list := by
  simp [← find?_eq_some_iff, Option.eq_none_iff_forall_ne_some]

@[simp] theorem find?_empty (k : κ) : (empty : SortedMap κ ν).find? k = none := rfl

/-- **Extensionality**: what is found determines the map. -/
theorem ext_find? (h : ∀ k, m.find? k = m'.find? k) : m = m' := by
  have hmem : ∀ e : κ × ν, e ∈ m.list ↔ e ∈ m'.list := by
    rintro ⟨k, v⟩
    rw [← find?_eq_some_iff, ← find?_eq_some_iff, h]
  have hperm := (perm_ext_iff_of_nodup (m.nodup_keys.of_map _) (m'.nodup_keys.of_map _)).mpr hmem
  have heq : m.list = m'.list := hperm.eq_of_pairwise
    (fun a b _ _ hab hba => absurd hab hba.not_gt) m.sorted m'.sorted
  cases m
  cases m'
  exact (mk.injEq _ _ _ _).mpr heq

theorem mem_alter {f : Option ν → Option ν} :
    e ∈ (m.alter k f).list ↔ (e.1 = k ∧ f (m.find? k) = some e.2) ∨ (e.1 ≠ k ∧ e ∈ m.list) := by
  have hnew : e ∈ (f (m.find? k)).toList.map (k, ·) ↔ e.1 = k ∧ f (m.find? k) = some e.2 := by
    rw [mem_map]
    constructor
    · rintro ⟨v, hv, rfl⟩
      exact ⟨rfl, Option.mem_toList.mp hv⟩
    · rintro ⟨rfl, hv⟩
      exact ⟨e.2, Option.mem_toList.mpr hv, rfl⟩
  change e ∈ alterList k f m ↔ _
  rw [alterList, mem_append, mem_append, hnew]
  constructor
  · rintro (h | h | h)
    · exact .inr ⟨(mem_takeWhile_lt h).ne, (takeWhile_sublist _).subset h⟩
    · exact .inl h
    · exact .inr ⟨(mem_dropWhile_le h).ne', (dropWhile_sublist _).subset h⟩
  · rintro (h | ⟨hne, h⟩)
    · exact .inr (.inl h)
    · rcases lt_or_gt_of_ne hne with hlt | hgt
      · refine .inl ?_
        rw [← takeWhile_append_dropWhile (p := fun e => decide (e.1 < k)) (l := m.list)] at h
        refine (mem_append.mp h).resolve_right fun hdrop => ?_
        exact not_of_mem_dropWhile (p := (· < k)) (fun _ _ => lt_trans) hdrop hlt
      · refine .inr (.inr ?_)
        rw [← takeWhile_append_dropWhile (p := fun e => decide (e.1 ≤ k)) (l := m.list)] at h
        refine (mem_append.mp h).resolve_left fun htake => ?_
        exact hgt.not_ge (by simpa using mem_takeWhile_imp htake)

/-- **Altering** changes what is found under the key, and nothing else. -/
theorem find?_alter (k : κ) (f : Option ν → Option ν) (k' : κ) :
    (m.alter k f).find? k' = if k' = k then f (m.find? k) else m.find? k' := by
  ext v
  rw [find?_eq_some_iff, mem_alter]
  split
  case isTrue heq => simp [heq]
  case isFalse hne => simp [hne, find?_eq_some_iff]

@[simp] theorem find?_alter_self (k : κ) (f : Option ν → Option ν) :
    (m.alter k f).find? k = f (m.find? k) := by
  rw [find?_alter, if_pos rfl]

theorem eq_empty_iff : m = empty ↔ ∀ k, m.find? k = none := by
  constructor
  · rintro rfl k
    rfl
  · intro h
    exact ext_find? h

theorem list_eq_nil_iff : m.list = [] ↔ m = empty := by
  constructor
  · intro h
    cases m
    cases h
    rfl
  · rintro rfl
    rfl

/-- The entries whose keys pass a test. -/
def filterKeys (f : κ → Bool) (m : SortedMap κ ν) : SortedMap κ ν :=
  ⟨m.list.filter fun e => f e.1, m.sorted.sublist List.filter_sublist⟩

theorem find?_filterKeys (f : κ → Bool) (k : κ) :
    (m.filterKeys f).find? k = if f k then m.find? k else none := by
  refine Option.ext fun v => ?_
  rw [find?_eq_some_iff]
  change (k, v) ∈ m.list.filter (fun e => f e.1) ↔ _
  rw [mem_filter, ← find?_eq_some_iff]
  split
  case isTrue hf => exact and_iff_left hf
  case isFalse hf => exact iff_of_false (fun h => hf h.2) (Option.not_mem_none v)

/-! ## §2 Keys that stand together -/

/-- The entries from a key on. -/
def lowerBound (m : SortedMap κ ν) (k : κ) : List (κ × ν) :=
  m.list.dropWhile fun e => decide (e.1 < k)

/-- **The entries with some property of keys**, if the property holds from a key on up to the first
that does not have it. -/
theorem takeWhile_lowerBound (m : SortedMap κ ν) (k : κ) (f : κ → Bool)
    (hge : ∀ j, f j = true → ¬ j < k) (hconvex : ∀ i j, ¬ i < k → i < j → f j = true → f i = true) :
    ((m.lowerBound k).takeWhile fun e => f e.1) = m.list.filter fun e => f e.1 := by
  have hfrom : ∀ l : List (κ × ν), l.Pairwise (fun a b => a.1 < b.1) → (∀ e ∈ l, ¬ e.1 < k) →
      (l.takeWhile fun e => f e.1) = l.filter fun e => f e.1 := by
    intro l hsorted hl
    induction l with
    | nil => rfl
    | cons a l ih =>
      rw [pairwise_cons] at hsorted
      rw [forall_mem_cons] at hl
      rw [takeWhile_cons, filter_cons]
      cases ha : f a.1 with
      | true => rw [ih hsorted.2 hl.2, if_pos rfl, if_pos rfl]
      | false =>
        -- whatever comes later lies behind
        refine (filter_eq_nil_iff.mpr fun e he hfe => ?_).symm
        have hfa := hconvex a.1 e.1 hl.1 (hsorted.1 e he) hfe
        rw [ha] at hfa
        cases hfa
  have hsorted := m.sorted
  rw [lowerBound]
  generalize m.list = l at hsorted
  induction l with
  | nil => rfl
  | cons a l ih =>
    have htail := pairwise_cons.mp hsorted
    rw [dropWhile_cons]
    split
    case isTrue hlt =>
      have hno : ¬ f a.1 = true := fun hfa => hge a.1 hfa (of_decide_eq_true hlt)
      rw [ih htail.2, filter_cons, if_neg hno]
    case isFalse hnot =>
      have hnot : ¬ a.1 < k := fun hlt => hnot (decide_eq_true hlt)
      exact hfrom _ hsorted
        (forall_mem_cons.mpr ⟨hnot, fun e he hek => hnot ((htail.1 e he).trans hek)⟩)

/-- Between a word and words that begin with it are only words that do. -/
theorem isPrefix_of_between {α : Type*} [LinearOrder α] {p i j : List α} (hi : ¬ i < p)
    (hlt : i < j) (hj : p <+: j) : p <+: i := by
  induction p generalizing i j with
  | nil => exact nil_prefix
  | cons x p ih =>
    obtain ⟨t', rfl⟩ := hj
    cases i with
    | nil => exact absurd (nil_lt_cons x p) hi
    | cons y t =>
      rw [cons_append, cons_lt_cons_iff] at hlt
      rw [cons_lt_cons_iff, not_or, not_and] at hi
      obtain ⟨rfl, htail⟩ := hlt.resolve_left hi.1
      rw [cons_prefix_cons]
      exact ⟨rfl, ih (hi.2 rfl) htail (prefix_append p t')⟩

end SortedMap

/-! ## §3 Inverted indices -/

/-- Tokens with the documents that have them. -/
abbrev Inverted (κ ι ο : Type*) [LinearOrder κ] [LinearOrder ι] := SortedMap κ (SortedMap ι ο)

namespace Inverted

variable {e e' : Inverted κ ι ο}

/-- What is said about a document under a token. -/
def lookup (e : Inverted κ ι ο) (token : κ) (id : ι) : Option ο := (e.find? token).bind (·.find? id)

/-- Insert a document under a token; a document that is there already stays as it is. -/
def insert (id : ι) (token : κ) (info : ο) (e : Inverted κ ι ο) : Inverted κ ι ο :=
  e.alter token fun docs => some ((docs.getD .empty).alter id fun old => some (old.getD info))

/-- The documents of a token without one of them. -/
def without (id : ι) (docs : Option (SortedMap ι ο)) : Option (SortedMap ι ο) :=
  docs.bind fun docs =>
    let rest := docs.alter id fun _ => none
    if rest.list.isEmpty then none else some rest

/-- Remove a document from a token; a token without documents goes away. -/
def remove (id : ι) (token : κ) (e : Inverted κ ι ο) : Inverted κ ι ο := e.alter token (without id)

/-- No token is without documents. -/
def NoneEmpty (e : Inverted κ ι ο) : Prop := ∀ token, e.find? token ≠ some .empty

theorem noneEmpty_empty : NoneEmpty (SortedMap.empty : Inverted κ ι ο) := fun _ h => by cases h

/-- **Extensionality** of inverted indices. -/
theorem ext_lookup (he : NoneEmpty e) (he' : NoneEmpty e')
    (h : ∀ token id, lookup e token id = lookup e' token id) :
    e = e' := by
  apply SortedMap.ext_find?
  intro token
  have hrow := h token
  simp only [lookup] at hrow
  have hne := he token
  have hne' := he' token
  cases hfind : e.find? token with
  | none =>
    rw [hfind] at hrow
    cases hfind' : e'.find? token with
    | none => rfl
    | some docs' =>
      rw [hfind'] at hrow hne'
      exact absurd (congrArg some (SortedMap.eq_empty_iff.mpr fun id => (hrow id).symm)) hne'
  | some docs =>
    rw [hfind] at hrow hne
    cases hfind' : e'.find? token with
    | none =>
      rw [hfind'] at hrow
      exact absurd (congrArg some (SortedMap.eq_empty_iff.mpr hrow)) hne
    | some docs' =>
      rw [hfind'] at hrow
      exact congrArg some (SortedMap.ext_find? hrow)

variable (id : ι) (token : κ)

theorem lookup_insert (info : ο) (token' : κ) (id' : ι) :
    lookup (insert id token info e) token' id' =
      if token' = token ∧ id' = id then some ((lookup e token id).getD info)
        else lookup e token' id' := by
  rw [lookup, insert, SortedMap.find?_alter]
  by_cases htoken : token' = token
  · subst htoken
    rw [if_pos rfl, Option.bind_some, SortedMap.find?_alter]
    have hold : ∀ id, ((e.find? token').getD .empty).find? id = lookup e token' id := by
      intro id
      rw [lookup]
      cases e.find? token' with
      | none => rfl
      | some docs => rfl
    rw [hold, hold]
    simp
  · rw [if_neg htoken, if_neg fun h => htoken h.1]
    rfl

theorem noneEmpty_insert (he : NoneEmpty e) (id : ι) (token : κ) (info : ο) :
    NoneEmpty (insert id token info e) := by
  intro token' hempty
  rw [insert, SortedMap.find?_alter] at hempty
  split at hempty
  case isTrue =>
    have hfound := congrArg (fun m => m.find? id) (Option.some.inj hempty)
    rw [SortedMap.find?_alter_self] at hfound
    cases hfound
  case isFalse => exact he token' hempty

theorem lookup_remove (token' : κ) (id' : ι) :
    lookup (remove id token e) token' id' = if token' = token ∧ id' = id then none
      else lookup e token' id' := by
  rw [lookup, remove, SortedMap.find?_alter]
  by_cases htoken : token' = token
  · subst htoken
    rw [if_pos rfl, lookup]
    cases hfind : e.find? token' with
    | none => exact (ite_self _).symm
    | some docs =>
      have hrest : ((without id (some docs)).bind fun m => m.find? id') =
          (docs.alter id fun _ => none).find? id' := by
        rw [without, Option.bind_some]
        dsimp only
        split
        case isTrue hnil => rw [SortedMap.list_eq_nil_iff.mp (isEmpty_iff.mp hnil)]; rfl
        case isFalse => rfl
      rw [hrest, SortedMap.find?_alter, Option.bind_some]
      simp
  · rw [if_neg htoken, if_neg fun h => htoken h.1]
    rfl

theorem noneEmpty_remove (he : NoneEmpty e) (id : ι) (token : κ) :
    NoneEmpty (remove id token e) := by
  intro token' hempty
  rw [remove, SortedMap.find?_alter] at hempty
  split at hempty
  case isTrue =>
    obtain ⟨docs, -, hrest⟩ := Option.bind_eq_some_iff.mp hempty
    dsimp only at hrest
    split at hrest
    case isTrue => cases hrest
    case isFalse hne =>
      refine hne ?_
      rw [Option.some.inj hrest]
      rfl
  case isFalse => exact he token' hempty

/-! ## §4 Whole documents -/

theorem lookup_foldl_insert_or (tokens : List (κ × ο)) (token : κ) (id' : ι) :
    lookup (tokens.foldl (fun e t => insert id t.1 t.2 e) e) token id' =
      if id' = id then (lookup e token id).or (assoc tokens token) else lookup e token id' := by
  induction tokens generalizing e with
  | nil =>
    split
    case isTrue hid => simp [hid, assoc]
    case isFalse => rfl
  | cons t tokens ih =>
    rw [foldl_cons, ih, lookup_insert, lookup_insert, assoc_cons]
    -- the first insertion under the token counts
    by_cases hid : id' = id
    · by_cases htoken : t.1 = token
      · cases hold : lookup e token id <;> simp [hid, htoken, hold]
      · simp [hid, htoken, Ne.symm htoken]
    · simp [hid]

/-- **Adding a document** under several tokens, with what the first of them says about each. -/
theorem lookup_foldl_insert (tokens : List (κ × ο)) (token : κ) (id' : ι)
    (hnew : lookup e token id = none) :
    lookup (tokens.foldl (fun e t => insert id t.1 t.2 e) e) token id' =
      if id' = id then assoc tokens token else lookup e token id' := by
  rw [lookup_foldl_insert_or, hnew, Option.none_or]

/-- **Removing a document** from several tokens. -/
theorem lookup_foldl_remove (tokens : List κ) (token : κ) (id' : ι) :
    lookup (tokens.foldl (fun e t => remove id t e) e) token id' =
      if id' = id ∧ token ∈ tokens then none else lookup e token id' := by
  induction tokens generalizing e with
  | nil => simp
  | cons t tokens ih =>
    rw [foldl_cons, ih, lookup_remove]
    by_cases hid : id' = id
    · by_cases htoken : token = t
      · simp [hid, htoken]
      · simp [hid, htoken, mem_cons]
    · simp [hid]

theorem noneEmpty_foldl_insert (he : NoneEmpty e) (id : ι) (tokens : List (κ × ο)) :
    NoneEmpty (tokens.foldl (fun e t => insert id t.1 t.2 e) e) := by
  induction tokens generalizing e with
  | nil => exact he
  | cons t tokens ih => exact ih (noneEmpty_insert he id t.1 t.2)

theorem noneEmpty_foldl_remove (he : NoneEmpty e) (id : ι) (tokens : List κ) :
    NoneEmpty (tokens.foldl (fun e t => remove id t e) e) := by
  induction tokens generalizing e with
  | nil => exact he
  | cons t tokens ih => exact ih (noneEmpty_remove he id t)

end Inverted

end Drakeydb.Lib
