import Mathlib.Algebra.Order.BigOperators.Group.Finset
import Mathlib.Data.Fintype.BigOperators
import Drakeydb.Dash.StashIndex

/-!
# Cells of a Segment and Lookup

A segment seen as a function from iterators to slots, its cells. Everything an operation does to the
entries of a segment is a sequence of updates of single cells, so the facts about placement,
uniqueness of keys, stash residents and contents are proved once for such an update. A segment is
well formed when its cells are (every entry is in its home bucket, in the neighbour as a probing
entry, or in the stash; no key has two cells) and the stash pointers index the stash entries.
-/

namespace Drakeydb.Dash

open Option Function Finset

namespace Segment

variable {P : Policy} {K V : Type}

/-- The cells of a segment. -/
abbrev Cells (P : Policy) (K V : Type) := Iterator P → Option (Slot K V)

def cell (s : Segment P K V) : Cells P K V := fun it => s.slot it.1 it.2

/-! ## §1 Placement -/

/-- An entry may stand in this bucket: its fingerprint is that of its key, and a regular bucket is
    the home bucket of its own entries and the neighbour of the home bucket of its probing ones. -/
def Placed (hashFn : K → Hash) (bid : PhysicalBid P) (e : Slot K V) : Prop :=
  e.fp = fpHash (hashFn e.key) ∧
    match bid with
    | .regular b => refOwner b e.probe = homeIndex P (hashFn e.key)
    | .stash _ => e.probe = false

/-- Every entry is where it may be, and no key has two cells. -/
structure CellsOk (hashFn : K → Hash) (c : Cells P K V) : Prop where
  placed : ∀ it e, c it = some e → Placed hashFn it.1 e
  unique : ∀ it it' e e', c it = some e → c it' = some e' → e.key = e'.key → it = it'

def Absent (c : Cells P K V) (key : K) : Prop := ∀ it e, c it = some e → e.key ≠ key

def Contains (c : Cells P K V) (key : K) (value : V) : Prop :=
  ∃ it e, c it = some e ∧ e.key = key ∧ e.value = value

variable {hashFn : K → Hash} {c : Cells P K V} {key : K}

theorem absent_iff_not_contains : Absent c key ↔ ∀ value, ¬Contains c key value := by
  constructor
  · rintro h value ⟨it, e, he, hkey, -⟩
    exact h it e he hkey
  · intro h it e he hkey
    exact h e.value ⟨it, e, he, hkey, rfl⟩

variable {it x : Iterator P} {e e' : Slot K V}

/-- What is left after a cell has been emptied was there before, in another cell. -/
theorem eq_some_of_erase (hx : update c it none x = some e) : x ≠ it ∧ c x = some e := by
  by_cases hxi : x = it
  · rw [hxi, update_self] at hx
    cases hx
  · rw [update_of_ne hxi] at hx
    exact ⟨hxi, hx⟩

/-- After a cell has been filled, an entry is the new one or was there before, in another cell. -/
theorem eq_some_of_put (hx : update c it (some e) x = some e') :
    (x = it ∧ e' = e) ∨ (x ≠ it ∧ c x = some e') := by
  by_cases hxi : x = it
  · rw [hxi, update_self] at hx
    exact .inl ⟨hxi, (some.inj hx).symm⟩
  · rw [update_of_ne hxi] at hx
    exact .inr ⟨hxi, hx⟩

/-- Emptying a cell keeps every entry placed and every key unique. -/
theorem CellsOk.erase (h : CellsOk hashFn c) (it : Iterator P) :
    CellsOk hashFn (update c it none) :=
  ⟨fun x e hx => h.placed x e (eq_some_of_erase hx).2, fun x y e e' hx hy =>
    h.unique x y e e' (eq_some_of_erase hx).2 (eq_some_of_erase hy).2⟩

theorem CellsOk.put (h : CellsOk hashFn c) (hplaced : Placed hashFn it.1 e)
    (hfresh : Absent c e.key) :
    CellsOk hashFn (update c it (some e)) := by
  constructor
  case placed =>
    intro x e' hx
    rcases eq_some_of_put hx with ⟨rfl, rfl⟩ | ⟨-, hx'⟩
    · exact hplaced
    · exact h.placed x e' hx'
  case unique =>
    intro x y e1 e2 hx hy hkey
    rcases eq_some_of_put hx with ⟨rfl, rfl⟩ | ⟨-, hx'⟩ <;>
      rcases eq_some_of_put hy with ⟨rfl, rfl⟩ | ⟨-, hy'⟩
    · rfl
    · exact absurd hkey.symm (hfresh y e2 hy')
    · exact absurd hkey (hfresh x e1 hx')
    · exact h.unique x y e1 e2 hx' hy' hkey

/-- The cells after the slots within the buckets have been reordered. -/
def reorder (c : Cells P K V) (σ : PhysicalBid P → Equiv.Perm (SlotId P)) : Cells P K V :=
  fun it => c (it.1, σ it.1 it.2)

theorem CellsOk.reorder (h : CellsOk hashFn c) (σ : PhysicalBid P → Equiv.Perm (SlotId P)) :
    CellsOk hashFn (reorder c σ) := by
  refine ⟨fun it e he => h.placed (it.1, σ it.1 it.2) e he, ?_⟩
  rintro ⟨bid, j⟩ ⟨bid', j'⟩ e e' he he' hkey
  have heq := h.unique _ _ e e' he he' hkey
  simp only [Prod.mk.injEq] at heq
  obtain ⟨rfl, hj⟩ := heq
  rw [(σ bid).injective hj]

theorem Absent.erase (h : Absent c key) (it : Iterator P) : Absent (update c it none) key :=
  fun x e hx => h x e (eq_some_of_erase hx).2

theorem CellsOk.absent_erase (h : CellsOk hashFn c)
    (he : c it = some e) : Absent (update c it none) e.key := by
  intro x e' hx hkey
  obtain ⟨hxi, hx⟩ := eq_some_of_erase hx
  exact hxi (h.unique x it e' e hx he hkey)

theorem Absent.put (h : Absent c key) (hne : e.key ≠ key)
    (it : Iterator P) : Absent (update c it (some e)) key := by
  intro x e' hx
  rcases eq_some_of_put hx with ⟨-, rfl⟩ | ⟨-, hx⟩
  · exact hne
  · exact h x e' hx

variable {it' : Iterator P}

theorem CellsOk.move (h : CellsOk hashFn c) (he : c it = some e) (e' : Slot K V)
    (hkey : e'.key = e.key) (hplaced : Placed hashFn it'.1 e') :
    CellsOk hashFn (update (update c it none) it' (some e')) :=
  (h.erase it).put hplaced (hkey ▸ h.absent_erase he)

/-! ## §2 Contents -/

variable {value : V}

/-- Erasing a cell removes its key and nothing else. -/
theorem CellsOk.contains_erase (h : CellsOk hashFn c) (he : c it = some e) :
    Contains (update c it none) key value ↔ Contains c key value ∧ key ≠ e.key := by
  constructor
  · rintro ⟨x, e', hx, rfl, rfl⟩
    exact ⟨⟨x, e', (eq_some_of_erase hx).2, rfl, rfl⟩, h.absent_erase he x e' hx⟩
  · rintro ⟨⟨x, e', hx, rfl, rfl⟩, hne⟩
    have hxi : x ≠ it := by
      rintro rfl
      rw [hx] at he
      exact hne (congrArg Slot.key (some.inj he))
    exact ⟨x, e', by rwa [update_of_ne hxi], rfl, rfl⟩

/-- Filling a free cell adds its entry and nothing else. -/
theorem contains_put (hfree : c it = none) (e : Slot K V) :
    Contains (update c it (some e)) key value ↔ Contains c key value ∨
      (key = e.key ∧ value = e.value) := by
  constructor
  · rintro ⟨x, e', hx, rfl, rfl⟩
    rcases eq_some_of_put hx with ⟨-, rfl⟩ | ⟨-, hx⟩
    · exact .inr ⟨rfl, rfl⟩
    · exact .inl ⟨x, e', hx, rfl, rfl⟩
  · rintro (⟨x, e', hx, rfl, rfl⟩ | ⟨rfl, rfl⟩)
    · have hxi : x ≠ it := by
        rintro rfl
        rw [hx] at hfree
        cases hfree
      exact ⟨x, e', by rwa [update_of_ne hxi], rfl, rfl⟩
    · exact ⟨it, e, update_self .., rfl, rfl⟩

variable (σ : PhysicalBid P → Equiv.Perm (SlotId P))

theorem contains_reorder : Contains (reorder c σ) key value ↔ Contains c key value := by
  constructor
  · rintro ⟨it, e, he, hkey⟩
    exact ⟨(it.1, σ it.1 it.2), e, he, hkey⟩
  · rintro ⟨⟨bid, j⟩, e, he, hkey⟩
    exact ⟨(bid, (σ bid).symm j), e, by simpa [reorder] using he, hkey⟩

section

variable (h : CellsOk hashFn c)
include h

theorem CellsOk.contains_inj {value' : V} (hv : Contains c key value)
    (hv' : Contains c key value') :
    value = value' := by
  obtain ⟨it, e, he, hkey, rfl⟩ := hv
  obtain ⟨it', e', he', hkey', rfl⟩ := hv'
  obtain rfl := h.unique it it' e e' he he' (hkey.trans hkey'.symm)
  exact congrArg Slot.value (some.inj (he.symm.trans he'))

theorem CellsOk.contains_restore (he : c it = some e) :
    (Contains c key value ∧ key ≠ e.key) ∨ (key = e.key ∧ value = e.value) ↔
      Contains c key value := by
  constructor
  · rintro (⟨hc, -⟩ | ⟨rfl, rfl⟩)
    · exact hc
    · exact ⟨it, e, he, rfl, rfl⟩
  · intro hc
    by_cases hk : key = e.key
    · subst hk
      exact .inr ⟨rfl, h.contains_inj hc ⟨it, e, he, rfl, rfl⟩⟩
    · exact .inl ⟨hc, hk⟩

theorem CellsOk.contains_move (he : c it = some e) (hfree : c it' = none) (e' : Slot K V)
    (hkey : e'.key = e.key) (hvalue : e'.value = e.value) :
    Contains (update (update c it none) it' (some e')) key value ↔ Contains c key value := by
  have hne : it' ≠ it := by
    rintro rfl
    rw [he] at hfree
    cases hfree
  rw [contains_put (by rwa [update_of_ne hne]), h.contains_erase he, hkey, hvalue]
  exact h.contains_restore he

end

/-! ## §3 Stash Residents -/

/-- What one cell of stash bucket `pos` contributes to the stash entries of home bucket `y`. -/
def residentOf (hashFn : K → Hash) (y : LogicalBid P) (pos : StashPos) :
    Option (Slot K V) → Multiset (UInt8 × StashPos)
  | some e => if homeIndex P (hashFn e.key) = y then {(e.fp, pos)} else 0
  | none => 0

/-- The stash entries of home bucket `y`, as fingerprints with positions. -/
def residents (hashFn : K → Hash) (c : Cells P K V) (y : LogicalBid P) :
    Multiset (UInt8 × StashPos) :=
  ∑ x : StashPos × SlotId P, residentOf hashFn y x.1 (c (.stash x.1, x.2))

variable {pos : StashPos} {j : SlotId P}

theorem mem_residents (he : c (.stash pos, j) = some e) :
    (e.fp, pos) ∈ residents hashFn c (homeIndex P (hashFn e.key)) := by
  rw [residents, Multiset.mem_sum]
  exact ⟨(pos, j), mem_univ _, by simp [residentOf, he]⟩

theorem residents_congr {c' : Cells P K V} (h : ∀ pos j, c' (.stash pos, j) = c (.stash pos, j)) :
    residents hashFn c' = residents hashFn c := by
  funext y
  exact sum_congr rfl fun x _ => by rw [h]

theorem residents_update_regular (b : LogicalBid P) (j : SlotId P) (o : Option (Slot K V)) :
    residents hashFn (update c (.regular b, j) o) = residents hashFn c :=
  residents_congr fun _ _ => update_of_ne (by simp) ..

/-- Writing a stash cell changes the residents of a home bucket by that cell alone. -/
theorem residents_update_stash (pos : StashPos) (j : SlotId P) (o : Option (Slot K V))
    (y : LogicalBid P) :
    residents hashFn (update c (.stash pos, j) o) y
        + residentOf hashFn y pos (c (.stash pos, j)) = residents hashFn c y +
          residentOf hashFn y pos o := by
  have h := Lib.sum_exchange (fun x : StashPos × SlotId P => residentOf hashFn y x.1)
    (fun x => c (.stash x.1, x.2)) (pos, j) o
  have hupd : (fun x : StashPos × SlotId P => update c (.stash pos, j) o (.stash x.1, x.2))
      = update (fun x : StashPos × SlotId P => c (.stash x.1, x.2)) (pos, j) o := by
    funext x
    by_cases hx : x = (pos, j)
    · subst hx
      simp
    · have hne : ((.stash x.1, x.2) : Iterator P) ≠ (.stash pos, j) := by
        intro heq
        apply hx
        simpa [Prod.ext_iff] using heq
      rw [update_of_ne hne, update_of_ne hx]
  have hsum : residents hashFn (update c (.stash pos, j) o) y
      = ∑ x : StashPos × SlotId P, residentOf hashFn y x.1
          (update (fun x : StashPos × SlotId P => c (.stash x.1, x.2)) (pos, j) o x) := by
    apply sum_congr rfl
    intro x _
    rw [← congrFun hupd x]
  rw [hsum]
  exact h

theorem residents_put_stash (hfree : c (.stash pos, j) = none) (e : Slot K V) :
    residents hashFn (update c (.stash pos, j) (some e))
      = update (residents hashFn c) (homeIndex P (hashFn e.key))
          ((e.fp, pos) ::ₘ residents hashFn c (homeIndex P (hashFn e.key))) := by
  funext y
  have h : residents hashFn (update c (.stash pos, j) (some e)) y
        + residentOf hashFn y pos (c (.stash pos, j))
      = residents hashFn c y + residentOf hashFn y pos (some e) := residents_update_stash ..
  rw [hfree] at h
  simp only [residentOf, add_zero] at h
  rw [h]
  by_cases hy : homeIndex P (hashFn e.key) = y
  · subst hy
    rw [if_pos rfl, update_self, add_comm, Multiset.singleton_add]
  · rw [if_neg hy, update_of_ne (Ne.symm hy), add_zero]

theorem residents_erase_stash (he : c (.stash pos, j) = some e) : residents hashFn c
      = update (residents hashFn (update c (.stash pos, j) none))
          (homeIndex P (hashFn e.key)) ((e.fp, pos) ::ₘ
            residents hashFn (update c (.stash pos, j) none) (homeIndex P (hashFn e.key))) := by
  have h : residents hashFn (update (update c (.stash pos, j) none)
      (.stash pos, j) (some e)) = _ := residents_put_stash (update_self ..) e
  rwa [update_idem, ← he, update_eq_self] at h

theorem residents_reorder : residents hashFn (reorder c σ) = residents hashFn c := by
  funext y
  rw [residents, residents, Fintype.sum_prod_type, Fintype.sum_prod_type]
  apply sum_congr rfl
  intro pos _
  exact Equiv.sum_comp (σ (.stash pos)) fun j => residentOf hashFn y pos (c (.stash pos, j))

/-- The busy slots of the stash buckets. -/
def stashSize (c : Cells P K V) : ℕ :=
  ∑ x : StashPos × SlotId P, (c (.stash x.1, x.2)).isSome.toNat

theorem card_residents_le (y : LogicalBid P) :
    Multiset.card (residents hashFn c y) ≤ stashSize c := by
  rw [residents, Multiset.card_sum]
  apply sum_le_sum
  intro x _
  rcases hx : c (.stash x.1, x.2) with _ | e
  · simp [residentOf]
  · by_cases hy : homeIndex P (hashFn e.key) = y <;> simp [residentOf, hy]

theorem stashSize_lt (hfree : c (.stash pos, j) = none) :
    stashSize c < kStashBucketNum * P.kSlotNum := by
  have hlt : stashSize c < ∑ _x : StashPos × SlotId P, 1 := by
    apply sum_lt_sum
    · intro x _
      exact Bool.toNat_le _
    · exact ⟨(pos, j), mem_univ _, by simp [hfree]⟩
  simpa using hlt

variable {s : Segment P K V}

/-- The invariant of a segment. -/
structure WF (hashFn : K → Hash) (s : Segment P K V) : Prop where
  cells : CellsOk hashFn s.cell
  index : s.Indexes (residents hashFn s.cell)

/-- A constructed segment is well formed. -/
theorem WF.empty (depth : ℕ) : WF hashFn (Segment.empty depth : Segment P K V) where
  cells := ⟨fun _ _ h => (nomatch h), fun _ _ _ _ h => (nomatch h)⟩
  index := by
    intro y
    have hres : residents hashFn (Segment.empty depth : Segment P K V).cell y = 0 :=
      Finset.sum_eq_zero fun _ _ => rfl
    have hrefs (b : PhysicalBid P) (pr : Bool) :
        (((Segment.empty depth : Segment P K V).bucket b).refs pr) = 0 :=
      Finset.sum_eq_zero fun _ _ => rfl
    rw [hres, refs, hrefs, hrefs]
    exact Lib.Tracks.empty

theorem WF.congr {s' : Segment P K V} (h : WF hashFn s) (hcell : s'.cell = s.cell)
    (hmeta : ∀ b, s'.stashMeta b = s.stashMeta b) : WF hashFn s' where
  cells := hcell ▸ h.cells
  index := by
    rw [hcell]
    exact h.index.congr hmeta

/-! ## §4 Soundness -/

variable {pred : K → Bool} {bid : PhysicalBid P} {j : SlotId P} {hash : Hash} {probe : Bool}

private theorem findInBucket_sound (h : (s.bucket bid).findByFp (fpHash hash) probe pred = some j) :
    ∃ e, s.cell (bid, j) = some e ∧ pred e.key = true := by
  obtain ⟨e, he, -, -, hpred⟩ := Bucket.findByFp_eq_some h
  exact ⟨e, he, hpred⟩

variable {it : Iterator P}

theorem findIt_sound (h : s.findIt hash pred = some it) : ∃ e, s.cell it = some e ∧
    pred e.key = true := by
  dsimp only [findIt] at h
  split at h
  case h_1 sid hsid =>
    cases h
    exact findInBucket_sound hsid
  case h_2 =>
    split at h
    case h_1 sid hsid =>
      cases h
      exact findInBucket_sound hsid
    case h_2 =>
      split_ifs at h with hpresent hover
      · obtain ⟨pos, hpos, -⟩ := Fin.findSome?_eq_some_iff.mp h
        obtain ⟨sid, hsid, rfl⟩ := map_eq_some_iff.mp hpos
        exact findInBucket_sound hsid
      · split at h
        case h_1 pos sid hiter =>
          obtain ⟨i, -, hfound⟩ := Bucket.iterateStash_eq_some hiter
          cases h
          exact findInBucket_sound hfound
        case h_2 =>
          obtain ⟨⟨pos, sid⟩, hiter, rfl⟩ := map_eq_some_iff.mp h
          obtain ⟨i, -, hfound⟩ := Bucket.iterateStash_eq_some hiter
          exact findInBucket_sound hfound

/-! ## §5 Completeness -/

section

variable (hwf : WF hashFn s)
include hwf

private theorem findInBucket_complete {e : Slot K V} (he : s.cell (bid, j) = some e)
    (hpred : pred e.key = true) (hprobe : e.probe = probe) :
    (s.bucket bid).findByFp (fpHash (hashFn e.key)) probe pred ≠ none := by
  intro hnone
  have hrejected := Bucket.findByFp_eq_none hnone he (hwf.cells.placed _ _ he).1 hprobe
  rw [hpred] at hrejected
  cases hrejected

theorem WF.findIt_complete {e : Slot K V} (he : s.cell it = some e) (hpred : pred e.key = true) :
    s.findIt (hashFn e.key) pred ≠ none := by
  intro hnone
  have hplaced := hwf.cells.placed _ _ he
  dsimp only [findIt] at hnone
  split at hnone
  case h_1 => cases hnone
  case h_2 hhome =>
    split at hnone
    case h_1 => cases hnone
    case h_2 hnext =>
      obtain ⟨bid, j⟩ := it
      cases bid with
      | regular b =>
        -- an owned entry is in the home bucket, a probing one in its neighbour
        have howner : refOwner b e.probe = homeIndex P (hashFn e.key) := hplaced.2
        cases hprobe : e.probe with
        | false =>
          obtain rfl : b = homeIndex P (hashFn e.key) := by simpa [refOwner, hprobe] using howner
          exact findInBucket_complete hwf he hpred hprobe hhome
        | true =>
          obtain rfl : b = nextBid (homeIndex P (hashFn e.key)) := by
            rw [← howner, hprobe]
            simp [refOwner]
          exact findInBucket_complete hwf he hpred hprobe hnext
      | stash pos =>
        have hmem : (e.fp, pos) ∈ residents hashFn s.cell (homeIndex P (hashFn e.key)) :=
          mem_residents he
        have htracks := hwf.index (homeIndex P (hashFn e.key))
        have hne : residents hashFn s.cell (homeIndex P (hashFn e.key)) ≠ 0 := by
          rintro hzero
          rw [hzero] at hmem
          exact Multiset.notMem_zero _ hmem
        have hpresent : (s.bucket (.regular (homeIndex P (hashFn e.key)))).stashPresent = true :=
          htracks.flagged hne
        have hfound := findInBucket_complete hwf he hpred hplaced.2
        rw [if_neg (by simp [hpresent])] at hnone
        split_ifs at hnone with hover
        · have hpos := Fin.findSome?_eq_none_iff.mp hnone pos
          exact hfound (map_eq_none_iff.mp hpos)
        · -- the counter is zero, so a pointer leads to the entry
          have hzero : s.overflow (homeIndex P (hashFn e.key)) = 0 := by
            unfold overflow
            rw [not_not.mp hover]
            rfl
          rw [hzero] at htracks
          have hrefs := htracks.mem_refs hmem
          rw [hplaced.1, refs, Multiset.mem_add] at hrefs
          split at hnone
          case h_1 => cases hnone
          case h_2 hown =>
            rcases hrefs with href | href
            · exact Bucket.iterateStash_ne_none href (fun _ => hfound) hown
            · exact Bucket.iterateStash_ne_none href (fun _ => hfound)
                (map_eq_none_iff.mp hnone)

/-- **Lookup**: `FindIt` returns the cell of the key, and nothing if the key has none. -/
theorem WF.findIt_eq_some_iff [DecidableEq K] {key : K} :
    s.findIt (hashFn key) (· = key) = some it ↔ ∃ e, s.cell it = some e ∧ e.key = key := by
  constructor
  · intro h
    obtain ⟨e, he, hkey⟩ := findIt_sound h
    exact ⟨e, he, by simpa using hkey⟩
  · rintro ⟨e, he, rfl⟩
    have hne : s.findIt (hashFn e.key) (· = e.key) ≠ none := hwf.findIt_complete he (by simp)
    obtain ⟨it', hit'⟩ := ne_none_iff_exists'.mp hne
    obtain ⟨e', he', hkey⟩ := findIt_sound hit'
    rw [hit', hwf.cells.unique it' it e' e he' he (by simpa using hkey)]

theorem WF.findIt_eq_none_iff [DecidableEq K] {key : K} :
    s.findIt (hashFn key) (· = key) = none ↔ Absent s.cell key := by
  constructor
  · intro h it e he hkey
    rw [hwf.findIt_eq_some_iff.mpr ⟨e, he, hkey⟩] at h
    cases h
  · intro h
    rw [eq_none_iff_forall_ne_some]
    intro it hit
    obtain ⟨e, he, hkey⟩ := hwf.findIt_eq_some_iff.mp hit
    exact h it e he hkey

end

end Segment

end Drakeydb.Dash
