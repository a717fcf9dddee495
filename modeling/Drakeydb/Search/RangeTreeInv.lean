import Drakeydb.Search.SplitSpec

/-!
# The invariant of the range tree

The lower bounds increase and begin with minus infinity, and the values of a block lie between its
lower bound and the next one. Bounds move when blocks are split or merged; what every operation
needs is that it replaces some neighbouring blocks by others that stay within the same bounds.
-/

namespace Drakeydb.Search

open List hiding getElem?_length
open Lib Prod

variable {α : Type} [LinearOrder α] [BoundedOrder α]

/-- A block that can stand at its lower bound. -/
structure BlockOk (e : α × RangeBlock α) : Prop where
  inv : e.2.list.Inv
  le : ∀ x ∈ e.2.elems, e.1 ≤ x.value
  seen : ∀ x ∈ e.2.elems, x.value ≤ e.2.maxSeen
  finite : ∀ x ∈ e.2.elems, ⊥ < x.value ∧ x.value < ⊤

/-- One block lies before another one. -/
def Before (e e' : α × RangeBlock α) : Prop := e.1 < e'.1 ∧ ∀ x ∈ e.2.elems, x.value < e'.1

/-- The blocks of a tree. -/
structure Blocks (entries : List (α × RangeBlock α)) : Prop where
  ok : ∀ e ∈ entries, BlockOk e
  ordered : entries.Pairwise Before
  first : entries.head?.map Prod.fst = some ⊥

namespace RangeTree

def contents (entries : List (α × RangeBlock α)) : List (Entry α) :=
  entries.flatMap fun e => e.2.elems

/-! ## §1 Replacing some blocks -/

section Replace

variable {before after : List (α × RangeBlock α)} {k : α} {block : RangeBlock α}

/-- Blocks within the same bounds may stand in the place of others. -/
theorem blocks_replace (old new : List (α × RangeBlock α))
    (h : Blocks (before ++ ((k, block) :: old ++ after)))
    (hok : ∀ e ∈ new, BlockOk e) (hordered : new.Pairwise Before) (hk : ∀ e ∈ new, k ≤ e.1)
    (hafter : ∀ e ∈ new, ∀ a ∈ after, Before e a)
    (hfirst : k = ⊥ → new.head?.map Prod.fst = some k) :
    Blocks (before ++ (new ++ after)) := by
  obtain ⟨hokBefore, hokRest⟩ := forall_mem_append.mp h.ok
  obtain ⟨hbefore, hrest, hcross⟩ := pairwise_append.mp h.ordered
  refine ⟨?_, pairwise_append.mpr ⟨hbefore, ?_, fun b hb => ?_⟩, ?_⟩
  · exact forall_mem_append.mpr
      ⟨hokBefore, forall_mem_append.mpr ⟨hok, (forall_mem_append.mp hokRest).2⟩⟩
  · exact pairwise_append.mpr ⟨hordered, (pairwise_append.mp hrest).2.1, hafter⟩
  · refine forall_mem_append.mpr ⟨fun e he => ?_, (forall_mem_append.mp (hcross b hb)).2⟩
    obtain ⟨hlt, hvalues⟩ := hcross b hb _ mem_cons_self
    exact ⟨hlt.trans_le (hk e he), fun x hx => (hvalues x hx).trans_le (hk e he)⟩
  · cases before with
    | cons b before => exact h.first
    | nil =>
      have hbot : k = ⊥ := Option.some.inj h.first
      obtain ⟨first, hhead, hfst⟩ := Option.map_eq_some_iff.mp (hfirst hbot)
      rw [nil_append, head?_append, hhead]
      exact congrArg some (hfst.trans hbot)

end Replace

/-! ## §2 The block for a value -/

section Find

variable {entries before after : List (α × RangeBlock α)} {value key : α}

omit [BoundedOrder α] in
theorem lowerBound_append (hbefore : ∀ b ∈ before, b.1 < key) (hafter : ∀ a ∈ after, key ≤ a.1) :
    lowerBound (before ++ after) key = before.length := by
  rw [lowerBound, takeWhile_append_of_neg (fun b hb => decide_eq_true (hbefore b hb))
    fun a ha => decide_eq_false (not_lt_of_ge (hafter a ha))]

omit [BoundedOrder α] in
theorem emplace_append (block : RangeBlock α) (hbefore : ∀ b ∈ before, b.1 < key)
    (hafter : ∀ a ∈ after, key < a.1) :
    emplace (before ++ after) key block = before ++ (key, block) :: after := by
  have hnew : ¬ ((before ++ after).any fun e => e.1 == key) = true := by
    rw [any_eq_true]
    rintro ⟨e, he, hkey⟩
    have hkey' : e.1 = key := eq_of_beq hkey
    rcases mem_append.mp he with he | he
    · exact (hbefore e he).ne hkey'
    · exact (hafter e he).ne' hkey'
  rw [emplace, if_neg hnew, lowerBound_append hbefore fun a ha => (hafter a ha).le,
    take_left, drop_left]

/-- **The block for a value**: the last one whose lower bound is not above it. -/
theorem findRangeBlock_spec (h : Blocks entries) (value : α) :
    ∃ before e after, entries = before ++ e :: after ∧
      findRangeBlock entries value = before.length ∧ e.1 ≤ value ∧ ∀ a ∈ after, value < a.1 := by
  have hup : UpToSome (fun e : α × RangeBlock α => decide (e.1 < value)) entries :=
    h.ordered.imp fun hlt => by simpa using hlt.1.trans
  obtain ⟨smaller, larger, rfl, hsmaller, hlarger⟩ := hup.exists_append
  simp only [decide_eq_true_eq, decide_eq_false_iff_not, not_lt] at hsmaller hlarger
  have hordered := (pairwise_append.mp h.ordered).2.1
  have hfirst := h.first
  rw [findRangeBlock]
  simp only [lowerBound_append hsmaller hlarger, getElem?_append_right (Nat.le_refl _),
    Nat.sub_self]
  split
  case isTrue hback =>
    rcases eq_nil_or_concat smaller with rfl | ⟨before, e, rfl⟩
    · exact absurd rfl hback.1
    · rw [concat_eq_append] at *
      refine ⟨before, e, larger,
        by simp, by simp, (hsmaller e mem_append_cons_self).le, fun a ha => ?_⟩
      cases larger with
      | nil => cases ha
      | cons first rest =>
        have hlt : value < first.1 := by simpa using hback.2
        rcases mem_cons.mp ha with rfl | ha
        · exact hlt
        · exact hlt.trans ((pairwise_cons.mp hordered).1 a ha).1
  case isFalse hstay =>
    cases larger with
    | nil =>
      -- all lower bounds are below the value: then there is one, and we step back
      refine absurd ⟨fun hzero => ?_, rfl⟩ hstay
      rw [length_eq_zero_iff.mp hzero] at hfirst
      cases hfirst
    | cons first rest =>
      have hge : first.1 ≤ value := by
        by_contra hlt
        refine hstay ⟨fun hzero => hlt ?_, by simpa using lt_of_not_ge hlt⟩
        rw [length_eq_zero_iff.mp hzero] at hfirst
        exact (Option.some.inj hfirst : first.1 = ⊥) ▸ bot_le
      exact ⟨smaller, first, rest, rfl, rfl, hge, fun a ha =>
        (hlarger first mem_cons_self).trans_lt ((pairwise_cons.mp hordered).1 a ha).1⟩

end Find

/-! ## §3 Adding -/

theorem blockOk_empty (key : α) (maxSize : ℕ) : BlockOk (key, RangeBlock.empty maxSize) where
  inv := BlockList.inv_empty maxSize
  le := forall_mem_nil _
  seen := forall_mem_nil _
  finite := forall_mem_nil _

variable {b : RangeBlock α}

omit [BoundedOrder α] in
theorem mem_insert (hb : b.list.Inv) {e x : Entry α} :
    x ∈ (b.insert e).elems ↔ x = e ∨ x ∈ b.elems :=
  (BlockList.insert_spec hb e).2.2.1 x

variable {e : Entry α}

omit [BoundedOrder α] in
theorem forall_mem_insert (hb : b.list.Inv) {p : Entry α → Prop} :
    (∀ x ∈ (b.insert e).elems, p x) ↔ p e ∧ ∀ x ∈ b.elems, p x := by
  simp only [mem_insert hb, forall_eq_or_imp]

variable {key : α}

theorem blockOk_insert (h : BlockOk (key, b)) (hle : key ≤ e.value)
    (hfinite : ⊥ < e.value ∧ e.value < ⊤) :
    BlockOk (key, b.insert e) where
  inv := (BlockList.insert_spec h.inv e).1
  le := (forall_mem_insert h.inv).mpr ⟨hle, h.le⟩
  seen :=
    (forall_mem_insert h.inv).mpr
    ⟨le_max_right _ _, fun x hx => (h.seen x hx).trans (le_max_left _ _)⟩
  finite := (forall_mem_insert h.inv).mpr ⟨hfinite, h.finite⟩

omit [BoundedOrder α] in
theorem before_insert (hb : b.list.Inv) {a : α × RangeBlock α} (h : Before (key, b) a)
    (hlt : e.value < a.1) :
    Before (key, b.insert e) a :=
  ⟨h.1, (forall_mem_insert hb).mpr ⟨hlt, h.2⟩⟩

section Add

variable {entries before after : List (α × RangeBlock α)} {bound : α} {block : RangeBlock α}

section

omit [LinearOrder α] [BoundedOrder α] in
theorem contents_cons : contents ((bound, block) :: after) = block.elems ++ contents after :=
  flatMap_cons

omit [LinearOrder α] [BoundedOrder α] in
theorem mem_contents_middle {x : Entry α} : x ∈ contents (before ++ (bound, block) :: after) ↔
    x ∈ block.elems ∨ x ∈ contents before ∨ x ∈ contents after := by
  rw [contents, flatMap_append, flatMap_cons, mem_append, mem_append, or_left_comm]
  rfl

variable (h : Blocks (before ++ (bound, block) :: after))
include h

theorem before_of_blocks : (∀ b ∈ before, b.1 < bound) ∧ ∀ a ∈ after, Before (bound, block) a := by
  obtain ⟨_, hrest, hcross⟩ := pairwise_append.mp h.ordered
  exact ⟨fun b hb => (hcross b hb _ mem_cons_self).1, (pairwise_cons.mp hrest).1⟩

/-- **`SplitBlock`** keeps the invariant and the pairs. -/
theorem splitBlock_spec (hne : block.elems ≠ []) :
    Blocks (splitBlock (before ++ (bound, block) :: after) before.length) ∧
      ∀ x, x ∈ contents (splitBlock (before ++ (bound, block) :: after) before.length) ↔
        x ∈ contents (before ++ (bound, block) :: after) := by
  have hok : BlockOk (bound, block) := h.ok _ mem_append_cons_self
  obtain ⟨hbefore, hafter⟩ := before_of_blocks h
  have hs := split_spec hok.inv hne fun x hx => (hok.finite x hx).2
  rw [splitBlock, getElem?_length]
  simp only [eraseIdx_length]
  generalize split block.list = r at hs ⊢
  have hinf : isInf bound = true ↔ bound = ⊥ := by
    obtain ⟨x, hx⟩ := exists_mem_of_ne_nil _ hne
    have htop : bound ≠ ⊤ := ((hok.le x hx).trans_lt (hok.finite x hx).2).ne
    rw [isInf, Bool.or_eq_true, beq_iff_eq, beq_iff_eq]
    exact or_iff_left htop
  have hmem : ∀ x, x ∈ block.elems ↔ x ∈ r.left.elems ∨ x ∈ r.right.elems := hs.mem_iff
  have hleftmem : ∀ x ∈ r.left.elems, x ∈ block.elems := fun x hx => (hmem x).mpr (.inl hx)
  have hrightmem : ∀ x ∈ r.right.elems, x ∈ block.elems := fun x hx => (hmem x).mpr (.inr hx)
  have hmedian : bound ≤ r.median := hs.le_median bound hok.le
  have hmedianAfter : ∀ a ∈ after, r.median < a.1 := by
    intro a ha
    obtain ⟨x, hx⟩ := exists_mem_of_ne_nil _ hs.right_ne
    exact (hs.le_right x hx).trans_lt ((hafter a ha).2 x (hrightmem x hx))
  have hrightOk : BlockOk (r.median, ⟨r.right, r.rmax⟩) :=
    ⟨hs.right, hs.le_right, hs.le_rmax, fun x hx => hok.finite x (hrightmem x hx)⟩
  have hrightAfter : ∀ a ∈ after, Before (r.median, ⟨r.right, r.rmax⟩) a := fun a ha =>
    ⟨hmedianAfter a ha, fun x hx => (hafter a ha).2 x (hrightmem x hx)⟩
  split
  case isTrue hkeep =>
    -- a left block, with its bound or, if that was minus infinity, with this one
    generalize hkey : (if isInf bound = true then bound else r.lmin) = key
    have hboundKey : bound ≤ key := by
      rw [← hkey]
      split
      · exact le_rfl
      · exact hs.le_lmin bound hok.le
    have hkeyLe : ∀ x ∈ r.left.elems, key ≤ x.value := by
      intro x hx
      rw [← hkey]
      split
      · exact hok.le x (hleftmem x hx)
      · exact hs.lmin_le x hx
    have hkeyMedian : key < r.median := by
      by_cases hbot : bound = ⊥
      · rw [← hkey, if_pos (hinf.mpr hbot), hbot]
        apply hs.lt_median ⊥ _ fun x hx => (hok.finite x hx).1
        obtain ⟨x, hx⟩ := exists_mem_of_ne_nil _ hne
        exact (hok.finite x hx).1.trans (hok.finite x hx).2
      · rcases hkeep with hsize | hbot'
        · have hleftne : r.left.elems ≠ [] := by
            intro hnil
            apply hsize
            rw [hs.left.size_eq, hnil]
            rfl
          obtain ⟨x, hx⟩ := exists_mem_of_ne_nil _ hleftne
          exact (hkeyLe x hx).trans_lt (hs.left_lt x hx)
        · exact absurd (hinf.mp hbot') hbot
    have hkeyAfter : ∀ a ∈ after, key < a.1 := fun a ha => hkeyMedian.trans (hmedianAfter a ha)
    have hleftOk : BlockOk (key, ⟨r.left, r.lmax⟩) :=
      ⟨hs.left, hkeyLe, hs.le_lmax, fun x hx => hok.finite x (hleftmem x hx)⟩
    have hfirst := emplace_append ⟨r.left, r.lmax⟩
      (fun b hb => (hbefore b hb).trans_le hboundKey) hkeyAfter
    have hsecond : emplace (before ++ (key, ⟨r.left, r.lmax⟩) :: after) r.median ⟨r.right, r.rmax⟩ =
        before ++ ([(key, ⟨r.left, r.lmax⟩), (r.median, ⟨r.right, r.rmax⟩)] ++ after) := by
      rw [append_cons, emplace_append _ _ hmedianAfter, append_assoc]
      · rfl
      · exact forall_mem_append.mpr ⟨fun b hb => (hbefore b hb).trans_le hmedian,
          forall_mem_singleton.mpr hkeyMedian⟩
    rw [hfirst, hsecond]
    constructor
    · refine blocks_replace [] _ h ?_ ?_ ?_ ?_ ?_
      · exact forall_mem_cons.mpr ⟨hleftOk, forall_mem_singleton.mpr hrightOk⟩
      · exact pairwise_pair.mpr ⟨hkeyMedian, hs.left_lt⟩
      · exact forall_mem_cons.mpr ⟨hboundKey, forall_mem_singleton.mpr hmedian⟩
      · refine forall_mem_cons.mpr ⟨fun a ha => ⟨hkeyAfter a ha, fun x hx => ?_⟩,
          forall_mem_singleton.mpr hrightAfter⟩
        exact (hafter a ha).2 x (hleftmem x hx)
      · intro hbot
        rw [← hkey, if_pos (hinf.mpr hbot)]
        rfl
    · intro x
      simp only [contents, flatMap_append, flatMap_cons, flatMap_nil, append_nil, mem_append, hmem]
      rfl
  case isFalse hdrop =>
    have hbot : ¬ bound = ⊥ := fun h => hdrop (.inr (hinf.mpr h))
    have hleftnil : r.left.elems = [] := by
      apply length_eq_zero_iff.mp
      rw [← hs.left.size_eq]
      exact not_not.mp fun h => hdrop (.inl h)
    rw [emplace_append _ (fun b hb => (hbefore b hb).trans_le hmedian) hmedianAfter]
    constructor
    · refine blocks_replace [] [(r.median, ⟨r.right, r.rmax⟩)] h ?_ ?_ ?_ ?_ fun h => absurd h hbot
      · exact forall_mem_singleton.mpr hrightOk
      · exact pairwise_singleton _ _
      · exact forall_mem_singleton.mpr hmedian
      · exact forall_mem_singleton.mpr hrightAfter
    · intro x
      simp only [contents, flatMap_append, flatMap_cons, mem_append, hmem, hleftnil,
        not_mem_nil, false_or]
      rfl

theorem blocks_set {block' : RangeBlock α} (hok : BlockOk (bound, block'))
    (hafter : ∀ a ∈ after, Before (bound, block') a) :
      Blocks (before ++ (bound, block') :: after) := by
  refine blocks_replace [] [(bound, block')] h ?_ (pairwise_singleton _ _) ?_ ?_ fun _ => rfl
  · exact forall_mem_singleton.mpr hok
  · exact forall_mem_singleton.mpr le_rfl
  · exact forall_mem_singleton.mpr hafter

end

variable [SuccOrder α] {value : α}

/-- The block next to one with a single value: it begins right after that value. -/
theorem add_next (h : Blocks (before ++ (bound, block) :: after)) (maxSize id : ℕ)
    (hseen : bound = block.maxSeen) (hlt : bound < value) (hafter : ∀ a ∈ after, value < a.1)
    (hfinite : ⊥ < value ∧ value < ⊤) :
    ((emplace (before ++ (bound, block) :: after) (Order.succ bound) (.empty maxSize)).modify
      (lowerBound (emplace (before ++ (bound, block) :: after) (Order.succ bound) (.empty maxSize))
        (Order.succ bound)) fun e => (e.1, e.2.insert (entry id value))) =
      before ++
        ([(bound, block), (Order.succ bound, (RangeBlock.empty maxSize).insert (entry id value))] ++
        after) ∧
      Blocks (before ++ ([(bound, block),
        (Order.succ bound, (RangeBlock.empty maxSize).insert (entry id value))] ++ after)) := by
  have hsucc : bound < Order.succ bound := Order.lt_succ_of_not_isMax hlt.not_isMax
  have hle : Order.succ bound ≤ value := Order.succ_le_of_lt hlt
  obtain ⟨hbefore, hbeforeAfter⟩ := before_of_blocks h
  have hok : BlockOk (bound, block) := h.ok _ mem_append_cons_self
  have hsmaller : ∀ b ∈ before ++ [(bound, block)], b.1 < Order.succ bound := by
    exact forall_mem_append.mpr ⟨fun b hb => (hbefore b hb).trans hsucc,
      forall_mem_singleton.mpr hsucc⟩
  have hlarger : ∀ a ∈ after, Order.succ bound < a.1 := fun a ha => hle.trans_lt (hafter a ha)
  have hemplace := emplace_append (RangeBlock.empty maxSize) hsmaller hlarger
  constructor
  · rw [append_cons, hemplace, lowerBound_append hsmaller (forall_mem_cons.mpr ⟨le_rfl, fun a ha =>
      (hlarger a ha).le⟩), modify_length, append_assoc]
    rfl
  · have hnew := blockOk_insert (blockOk_empty (Order.succ bound) maxSize)
      (e := entry id value) hle hfinite
    refine blocks_replace [] _ h ?_ ?_ ?_ ?_ fun _ => rfl
    · exact forall_mem_cons.mpr ⟨hok, forall_mem_singleton.mpr hnew⟩
    · exact pairwise_pair.mpr ⟨hsucc, fun x hx => (hok.seen x hx).trans_lt (hseen ▸ hsucc)⟩
    · exact forall_mem_cons.mpr ⟨le_rfl, forall_mem_singleton.mpr hsucc.le⟩
    · refine forall_mem_cons.mpr ⟨hbeforeAfter, forall_mem_singleton.mpr fun a ha => ?_⟩
      exact before_insert (BlockList.inv_empty maxSize)
        ⟨hlarger a ha, forall_mem_nil _⟩ (hafter a ha)

/-- **`Add`** keeps the invariant and adds the pair. -/
theorem add_spec {t : RangeTree α} (h : Blocks t.entries) (id : ℕ)
    (hfinite : ⊥ < value ∧ value < ⊤) :
    Blocks (t.add id value).entries ∧ (t.add id value).maxSize = t.maxSize ∧
      ∀ x, x ∈ contents (t.add id value).entries ↔ x = entry id value ∨ x ∈ contents t.entries := by
  obtain ⟨maxSize, entries⟩ := t
  obtain ⟨before, ⟨bound, block⟩, after, hentries, hfind, hle, hafter⟩ :=
    findRangeBlock_spec h value
  subst hentries
  have hok : BlockOk (bound, block) := h.ok _ mem_append_cons_self
  obtain ⟨hbefore, hbeforeAfter⟩ := before_of_blocks h
  rw [add]
  simp only [hfind, getElem?_length, set_length]
  split
  case isTrue hmono =>
    have hlt : bound < value := lt_of_le_of_ne hle (Ne.symm hmono.2.2)
    obtain ⟨heq, hblocks⟩ := add_next h maxSize id hmono.2.1 hlt hafter hfinite
    refine ⟨heq ▸ hblocks, rfl, fun x => ?_⟩
    have hnew : x ∈ ((RangeBlock.empty maxSize).insert (entry id value)).elems ↔
      x = entry id value :=
      (mem_insert (b := RangeBlock.empty maxSize) (BlockList.inv_empty maxSize)).trans
        (or_iff_left not_mem_nil)
    rw [heq, cons_append, mem_contents_middle, singleton_append, contents_cons, mem_append, hnew,
      mem_contents_middle, or_left_comm (b := x = entry id value), or_left_comm]
  case isFalse =>
    have hok' := blockOk_insert hok (e := entry id value) hle hfinite
    have hblocks :=
      blocks_set h hok' fun a ha => before_insert hok.inv (hbeforeAfter a ha) (hafter a ha)
    have hcontents : ∀ x, x ∈ contents (before ++ (bound, block.insert (entry id value)) :: after) ↔
        x = entry id value ∨ x ∈ contents (before ++ (bound, block) :: after) := by
      intro x
      rw [mem_contents_middle, mem_contents_middle, mem_insert hok.inv, or_assoc]
    split
    case isTrue => exact ⟨hblocks, rfl, hcontents⟩
    case isFalse =>
      have hne : (block.insert (entry id value)).elems ≠ [] := fun hnil => by
        have hin := (mem_insert hok.inv).mpr (.inl rfl : entry id value = entry id value ∨ _)
        rw [hnil] at hin
        cases hin
      obtain ⟨hsplit, hsame⟩ := splitBlock_spec hblocks hne
      exact ⟨hsplit, rfl, fun x => (hsame x).trans (hcontents x)⟩

end Add

/-! ## §4 Removing -/

section Remove

variable {before after : List (α × RangeBlock α)} {bound lbound : α} {block lblock : RangeBlock α}

theorem foldl_insert_spec {b : RangeBlock α} (hb : BlockOk (key, b)) (pairs : List (Entry α))
    (hpairs : ∀ x ∈ pairs, key ≤ x.value ∧ ⊥ < x.value ∧ x.value < ⊤) :
    BlockOk (key, pairs.foldl RangeBlock.insert b) ∧
      ∀ x, x ∈ (pairs.foldl RangeBlock.insert b).elems ↔ x ∈ pairs ∨ x ∈ b.elems := by
  induction pairs generalizing b with
  | nil => exact ⟨hb, fun x => (or_iff_right not_mem_nil).symm⟩
  | cons e pairs ih =>
    obtain ⟨⟨hle, hfinite⟩, hrest⟩ := forall_mem_cons.mp hpairs
    obtain ⟨hok, hmem⟩ := ih (blockOk_insert hb hle hfinite) hrest
    refine ⟨hok, fun x => (hmem x).trans ?_⟩
    rw [mem_insert hb.inv, mem_cons, or_left_comm, or_assoc]

theorem blocks_merge (h : Blocks (before ++ (lbound, lblock) :: (bound, block) :: after)) :
    Blocks (before ++ (lbound, block.elems.foldl RangeBlock.insert lblock) :: after) ∧
      ∀ x, x ∈ contents (before ++ (lbound, block.elems.foldl RangeBlock.insert lblock) :: after) ↔
        x ∈ contents (before ++ (lbound, lblock) :: (bound, block) :: after) := by
  have hlok : BlockOk (lbound, lblock) := h.ok _ mem_append_cons_self
  have hok : BlockOk (bound, block) := h.ok _ (mem_append_right _ (mem_cons_of_mem _ mem_cons_self))
  obtain ⟨hleft, hright⟩ := pairwise_cons.mp (pairwise_append.mp h.ordered).2.1
  obtain ⟨hafter, _⟩ := pairwise_cons.mp hright
  have hlt : lbound < bound := (hleft _ mem_cons_self).1
  obtain ⟨hmerged, hmem⟩ := foldl_insert_spec hlok block.elems fun x hx =>
    ⟨hlt.le.trans (hok.le x hx), hok.finite x hx⟩
  constructor
  · refine blocks_replace [(bound, block)]
      [(lbound, block.elems.foldl RangeBlock.insert lblock)] h ?_
      (pairwise_singleton _ _) ?_ ?_ fun _ => rfl
    · exact forall_mem_singleton.mpr hmerged
    · exact forall_mem_singleton.mpr le_rfl
    · refine forall_mem_singleton.mpr fun a ha => ⟨hlt.trans (hafter a ha).1, fun x hx => ?_⟩
      rcases (hmem x).mp hx with hx | hx
      · exact (hafter a ha).2 x hx
      · exact (hleft a (mem_cons_of_mem _ ha)).2 x hx
  · intro x
    rw [mem_contents_middle, mem_contents_middle, contents_cons, mem_append, hmem, or_assoc,
      or_left_comm (b := x ∈ block.elems), or_left_comm]

/-- **`Remove`** keeps the invariant and takes the pair away. -/
theorem remove_spec {t : RangeTree α} (h : Blocks t.entries) (id : ℕ) (value : α) :
    Blocks (t.remove id value).entries ∧ (t.remove id value).maxSize = t.maxSize ∧
      ∀ x, x ∈ contents (t.remove id value).entries ↔ x ≠ entry id value ∧
        x ∈ contents t.entries := by
  obtain ⟨maxSize, entries⟩ := t
  obtain ⟨before, ⟨bound, block⟩, after, hentries, hfind, hle, hafter⟩ :=
    findRangeBlock_spec h value
  subst hentries
  have hok : BlockOk (bound, block) := h.ok _ mem_append_cons_self
  obtain ⟨hbefore, hbeforeAfter⟩ := before_of_blocks h
  obtain ⟨hinv, _, hmem⟩ := BlockList.remove_spec hok.inv (entry id value)
  generalize hblock' :
    (⟨(block.list.remove (entry id value)).1, block.maxSeen⟩ : RangeBlock α) = block'
  have hmem' : ∀ x, x ∈ block'.elems ↔ x ≠ entry id value ∧ x ∈ block.elems := by
    rw [← hblock']
    exact hmem
  have hok' : BlockOk (bound, block') := by
    rw [← hblock'] at hmem' ⊢
    exact ⟨hinv, fun x hx => hok.le x ((hmem' x).mp hx).2, fun x hx =>
      hok.seen x ((hmem' x).mp hx).2, fun x hx => hok.finite x ((hmem' x).mp hx).2⟩
  have hblocks := blocks_set h hok' fun a ha =>
    ⟨(hbeforeAfter a ha).1, fun x hx => (hbeforeAfter a ha).2 x ((hmem' x).mp hx).2⟩
  -- a pair with this value is in this block or nowhere
  have helsewhere : ∀ x, x ∈ contents before ∨ x ∈ contents after → x ≠ entry id value := by
    rintro x (hx | hx) rfl
    · obtain ⟨b, hb, hx⟩ := mem_flatMap.mp hx
      have hlt := ((pairwise_append.mp h.ordered).2.2 b hb _ mem_cons_self).2 _ hx
      exact absurd (hlt.trans_le hle) (lt_irrefl value)
    · obtain ⟨a, ha, hx⟩ := mem_flatMap.mp hx
      have hge := (h.ok a (mem_append_right _ (mem_cons_of_mem _ ha))).le _ hx
      exact absurd ((hafter a ha).trans_le hge) (lt_irrefl value)
  have hcontents : ∀ x, x ∈ contents (before ++ (bound, block') :: after) ↔
      x ≠ entry id value ∧ x ∈ contents (before ++ (bound, block) :: after) := by
    intro x
    rw [mem_contents_middle, mem_contents_middle, hmem', and_or_left,
      and_iff_right_of_imp (helsewhere x)]
  rw [remove]
  simp only [hfind, getElem?_length, set_length, hblock']
  split
  · exact ⟨hblocks, rfl, hcontents⟩
  case h_2 lbound lblock hprev =>
    split
    case isTrue hmerge =>
      rcases eq_nil_or_concat before with rfl | ⟨init, left, rfl⟩
      · exact absurd rfl hmerge.2.1
      · rw [concat_eq_append] at *
        have hlen : (init ++ [left]).length - 1 = init.length := by
          simp
        rw [hlen, ← append_cons, getElem?_length] at hprev
        cases hprev
        rw [← append_cons] at hblocks
        obtain ⟨hmerged, hsame⟩ := blocks_merge hblocks
        have heq : ((init ++ [(lbound, lblock)] ++ (bound, block') :: after).set
            ((init ++ [(lbound, lblock)]).length - 1)
            (lbound, block'.elems.foldl RangeBlock.insert lblock)).eraseIdx
              (init ++ [(lbound, lblock)]).length =
            init ++ (lbound, block'.elems.foldl RangeBlock.insert lblock) :: after := by
          simp [eraseIdx_append_of_length_le]
        refine ⟨heq ▸ hmerged, rfl, fun x => ?_⟩
        have hx := hcontents x
        rw [← append_cons] at hx
        rw [heq]
        exact (hsame x).trans hx
    case isFalse => exact ⟨hblocks, rfl, hcontents⟩

end Remove

/-! ## §5 Runs -/

theorem blocks_new (maxSize : ℕ) : Blocks (new maxSize : RangeTree α).entries where
  ok := forall_mem_singleton.mpr (blockOk_empty ⊥ maxSize)
  ordered := pairwise_singleton _ _
  first := rfl

end RangeTree

end Drakeydb.Search
