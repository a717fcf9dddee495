import Drakeydb.Dash.Split
import Drakeydb.Lib.Run

/-!
# Runs of a Segment

`Insert`, `Delete`, `BumpUp` and `UnloadStash` in any order, from a constructed segment on: every
segment reached is well formed, so `FindIt` finds exactly its entries. A split of such a segment
into a fresh one loses nothing as long as the fresh one has room for the entries that leave.

It does not always have room. Displacement goes one bucket far, so whether the entries fit depends
on the order in which they come, and `Split` inserts them in the order of the buckets.
-/

namespace Drakeydb.Dash

open Option Function

namespace Segment

variable {P : Policy} {K V : Type} [DecidableEq K] {hashFn : K → Hash} {s s' : Segment P K V}

/-! ## §1 Insert -/

/-- **`Insert`**: a duplicate and a full segment change nothing. -/
theorem insert_cases (s : Segment P K V) (key : K) (value : V) (hash : Hash) :
    (∃ it, s.findIt hash (· = key) = some it ∧ s.insert key value hash = (s, some it, false)) ∨
    (s.findIt hash (· = key) = none ∧ s.insertUniq key value hash true = none ∧
      s.insert key value hash = (s, none, false)) ∨
    ∃ s' it, s.findIt hash (· = key) = none ∧ s.insertUniq key value hash true = some (s', it) ∧
      s.insert key value hash = (s', some it, true) := by
  dsimp only [insert]
  rcases hfind : s.findIt hash (· = key) with _ | it
  · rcases hins : s.insertUniq key value hash true with _ | ⟨s', it⟩
    · exact .inr (.inl ⟨rfl, rfl, rfl⟩)
    · exact .inr (.inr ⟨s', it, rfl, rfl, rfl⟩)
  · exact .inl ⟨it, rfl, rfl⟩

theorem WF.insert (hwf : WF hashFn s) (key : K) (value : V) :
    WF hashFn (s.insert key value (hashFn key)).1 := by
  rcases insert_cases s key value (hashFn key) with ⟨it, -, h⟩ | ⟨-, -, h⟩ | ⟨s', it,
    hfind, hins, h⟩
  · rwa [h]
  · rwa [h]
  · rw [h]
    exact hwf.insertUniq (hwf.findIt_eq_none_iff.mp hfind) hins

/-! ## §2 Runs -/

/-- The operations on one segment. `Delete` and `BumpUp` are given the slot of an entry. -/
inductive SegmentOp (P : Policy) (K V : Type) where
  | insert (key : K) (value : V)
  | delete (it : Iterator P)
  | bumpUp (it : Iterator P) (bp : BumpPolicy K)
  | unloadStash

/-- One operation; `none` where the source asserts that the slot is busy. -/
def step (hashFn : K → Hash) (s : Segment P K V) : SegmentOp P K V → Option (Segment P K V)
  | .insert key value => some (s.insert key value (hashFn key)).1
  | .delete it => (s.cell it).map fun e => s.delete it (hashFn e.key)
  | .bumpUp it bp => (s.cell it).map fun e => (s.bumpUp it.1 it.2 (hashFn e.key) bp).1
  | .unloadStash => some (s.unloadStash hashFn).1

theorem WF.step (hwf : WF hashFn s) {op : SegmentOp P K V} (h : s.step hashFn op = some s') :
    WF hashFn s' := by
  cases op with
  | insert key value =>
    cases h
    exact hwf.insert key value
  | delete it =>
    obtain ⟨e, he, rfl⟩ := map_eq_some_iff.mp h
    exact hwf.delete he
  | bumpUp it bp =>
    obtain ⟨e, he, rfl⟩ := map_eq_some_iff.mp h
    exact (hwf.bumpUp he bp).wf
  | unloadStash =>
    cases h
    exact hwf.unloadStash.wf

/-- **Every segment reached from a constructed one is well formed.** -/
theorem run_wf {depth : ℕ} {ops : List (SegmentOp P K V)}
    (h : Lib.run (step hashFn) (Segment.empty depth) ops = some s) : WF hashFn s :=
  Lib.inv_of_run (fun _ _ _ hwf hstep => hwf.step hstep) (WF.empty depth) h

/-! ## §3 A Finite Map -/

/-- The entry of the key as `FindIt` returns it. -/
def lookup (hashFn : K → Hash) (s : Segment P K V) (key : K) : Option V :=
  (s.findIt (hashFn key) (· = key)).bind fun it => (s.cell it).map Slot.value

theorem WF.lookup_eq_some_iff (hwf : WF hashFn s) {key : K} {value : V} :
    lookup hashFn s key = some value ↔ Contains s.cell key value := by
  unfold lookup
  constructor
  · intro h
    obtain ⟨it, hit, hvalue⟩ := bind_eq_some_iff.mp h
    obtain ⟨e, he, hkey⟩ := hwf.findIt_eq_some_iff.mp hit
    rw [he] at hvalue
    exact ⟨it, e, he, hkey, some.inj hvalue⟩
  · rintro ⟨it, e, he, rfl, rfl⟩
    rw [hwf.findIt_eq_some_iff.mpr ⟨e, he, rfl⟩, bind_some, he]
    rfl

theorem WF.lookup_eq (hwf : WF hashFn s) {m : K → Option V}
    (h : ∀ key value, Contains s.cell key value ↔ m key = some value) : lookup hashFn s = m :=
  funext fun key => Option.ext fun value => hwf.lookup_eq_some_iff.trans (h key value)

theorem WF.lookup_eq_none_iff (hwf : WF hashFn s) {key : K} :
    lookup hashFn s key = none ↔ s.findIt (hashFn key) (· = key) = none := by
  rw [hwf.findIt_eq_none_iff, absent_iff_not_contains, eq_none_iff_forall_ne_some]
  exact forall_congr' fun value => not_congr hwf.lookup_eq_some_iff

/-- **A segment is a finite map**: in every segment that is reached, `Insert` adds an absent key if
there is room for it and changes nothing otherwise, `Delete` removes the key of its slot, and
`FindIt` does not see `BumpUp` and `UnloadStash`. -/
theorem run_refines_map {depth : ℕ} {ops : List (SegmentOp P K V)}
    (hrun : Lib.run (step hashFn) (Segment.empty depth) ops = some s) :
    (∀ key value, let r := s.insert key value (hashFn key)
      (r.2.2 = true ↔ lookup hashFn s key = none ∧ ¬s.NoRoom (homeIndex P (hashFn key))) ∧
      (r.2.2 = true → lookup hashFn r.1 = update (lookup hashFn s) key (some value)) ∧
      (r.2.2 = false → r.1 = s ∧ (r.2.1 = none ↔ lookup hashFn s key = none)) ∧
      ∀ it, r.2.1 = some it → ∃ e, r.1.cell it = some e ∧ e.key = key) ∧
    (∀ it e, s.cell it = some e →
      lookup hashFn (s.delete it (hashFn e.key)) = update (lookup hashFn s) e.key none ∧
      ∀ bp, lookup hashFn (s.bumpUp it.1 it.2 (hashFn e.key) bp).1 = lookup hashFn s) ∧
    lookup hashFn (s.unloadStash hashFn).1 = lookup hashFn s := by
  have hwf := run_wf hrun
  have hmoved {s'} (h : Rearranges hashFn s s') : lookup hashFn s' = lookup hashFn s :=
    h.wf.lookup_eq fun key value => (h.contains key value).trans hwf.lookup_eq_some_iff.symm
  refine ⟨fun key value => ?_, fun it e he => ⟨?_, fun bp => hmoved (hwf.bumpUp he bp)⟩,
    hmoved hwf.unloadStash⟩
  · have hwf' := hwf.insert key value
    rw [hwf.lookup_eq_none_iff, ← insertUniq_eq_none_iff key value true]
    rcases insert_cases s key value (hashFn key) with
      ⟨it, hfind, h⟩ | ⟨hfind, hins, h⟩ | ⟨s', it, hfind, hins, h⟩ <;> rw [h] at hwf' ⊢
    · simpa [hfind] using hwf.findIt_eq_some_iff.mp hfind
    · simp [hfind, hins]
    · refine ⟨by simp [hfind, hins], fun _ => hwf'.lookup_eq fun key' value' => ?_,
        fun h => (nomatch h), ?_⟩
      · have hnone := hwf.lookup_eq_none_iff.mpr hfind
        rw [hwf.contains_insertUniq hins, ← hwf.lookup_eq_some_iff, update_apply]
        split
        case isTrue heq => simp [heq, hnone, eq_comm]
        case isFalse hne => simp [hne]
      · intro it' heq
        cases heq
        exact cell_insertUniq hins
  · refine (hwf.delete he).lookup_eq fun key value => ?_
    rw [cell_delete, hwf.cells.contains_erase he, ← hwf.lookup_eq_some_iff, update_apply]
    split <;> simp_all

/-! ## §4 Splitting a Reached Segment -/

/-- The right segment, fresh from its construction, has room for the entries that leave: what
exceeds the capacity of their home buckets fits into the stash, or all of them fit into two buckets
and the stash. -/
def SplitFits (hashFn : K → Hash) (s : Segment P K V) : Prop :=
  (Segment.empty 0 : Segment P K V).HasRoomFor
    (demand hashFn (leavesAt hashFn (s.localDepth + 1)) s.cell)

instance (hashFn : K → Hash) (s : Segment P K V) : Decidable (SplitFits hashFn s) :=
  inferInstanceAs (Decidable (HasRoomFor _ _))

/-- **A split with room in the right segment loses nothing**, in every segment that is reached: each
`InsertUniq` of `Split` finds a slot, left and right have the entries of the segment between them,
each on the side of its new depth bit, and `FindIt` finds them there and nowhere else. -/
theorem split_keeps_entries (hashFn : K → Hash) (depth depthRight : ℕ)
    (ops : List (SegmentOp P K V)) (s : Segment P K V)
    (hrun : Lib.run (step hashFn) (Segment.empty depth) ops = some s)
    (hfits : SplitFits hashFn s) :
    let st := s.split hashFn (Segment.empty depthRight)
    st.found = true ∧
      (∀ key value, Contains st.left.cell key value ∨ Contains st.right.cell key value ↔
        Contains s.cell key value) ∧
      (∀ key value, Contains st.left.cell key value ↔
        Contains s.cell key value ∧ isMine (s.localDepth + 1) (hashFn key) = true) ∧
      (∀ key value, Contains st.right.cell key value ↔
        Contains s.cell key value ∧ isMine (s.localDepth + 1) (hashFn key) = false) ∧
      (∀ key value, lookup hashFn st.left key = some value ↔ Contains st.left.cell key value) ∧
      (∀ key value, lookup hashFn st.right key = some value ↔
        Contains st.right.cell key value) := by
  have hempty (d : ℕ) (key : K) (value : V) :
      ¬Contains (Segment.empty d : Segment P K V).cell key value := by
    rintro ⟨it, e, he, -⟩
    cases he
  have hsplit := split_spec (run_wf hrun) (WF.empty depthRight) (fun _ _ _ _ _ he => nomatch he)
    (hfits.congr rfl)
  have hright : ∀ key value,
      Contains (s.split hashFn (Segment.empty depthRight)).right.cell key value ↔
        Contains s.cell key value ∧ isMine (s.localDepth + 1) (hashFn key) = false := by
    intro key value
    rw [hsplit.containsRight, or_iff_right (hempty depthRight key value)]
  refine ⟨hsplit.found, fun key value => ?_, hsplit.containsLeft, hright,
    fun _ _ => hsplit.left.lookup_eq_some_iff, fun _ _ => hsplit.right.lookup_eq_some_iff⟩
  rw [hsplit.containsLeft, hright, ← and_or_left]
  cases isMine (s.localDepth + 1) (hashFn key) <;> simp

/-- The narrowest buckets the static assertions allow, four of them. -/
def narrow : Policy := ⟨1, 4, by decide, by decide, by decide, by decide⟩

/-- Every key has home bucket 0, and the odd keys leave. -/
def oddLeaves (key : ℕ) : Hash := .ofNat (key % 2 * 2 ^ 63 + key / 2)

/-- Six keys of one home bucket fill it, its neighbour and the stash. -/
def crowdedOps : List (SegmentOp narrow ℕ ℕ) := (List.range 6).map fun key => .insert key key

def crowded : Segment narrow ℕ ℕ :=
  (Lib.run (step oddLeaves) (Segment.empty 0) crowdedOps).get (by decide +kernel)

theorem run_refines_map_crowded :
    (crowded.insert 6 6 (oddLeaves 6)).2.2 = false ∧ crowded.NoRoom
    (homeIndex narrow (oddLeaves 6)) ∧
    lookup oddLeaves crowded 2 = some 2 ∧ ∀ it e, crowded.cell it = some e →
      lookup oddLeaves (crowded.delete it (oddLeaves e.key))
        = update (lookup oddLeaves crowded) e.key none := by
  have hrun : Lib.run (step oddLeaves) (Segment.empty 0) crowdedOps = some crowded :=
    (some_get _).symm
  obtain ⟨hinsert, hdelete, -⟩ := run_refines_map hrun
  have hfull : (crowded.insert 6 6 (oddLeaves 6)).2.2 = false := by decide +kernel
  have habsent : lookup oddLeaves crowded 6 = none := by decide +kernel
  refine ⟨hfull, ?_, by decide +kernel, fun it e he => (hdelete it e he).1⟩
  by_contra hroom
  cases hfull.symm.trans ((hinsert 6 6).1.mpr ⟨habsent, hroom⟩)

theorem split_keeps_entries_crowded :
    (crowded.insert 6 6 (oddLeaves 6)).2.1 = none ∧ SplitFits oddLeaves crowded ∧
      (crowded.split oddLeaves (Segment.empty 0)).found = true :=
  ⟨by decide +kernel, by decide +kernel,
    (split_keeps_entries oddLeaves 0 0 crowdedOps crowded (some_get _).symm
      (by decide +kernel)).1⟩

/-- The home bucket is the key mod 4, and every key leaves. -/
def allLeave (key : ℕ) : Hash := .ofNat (2 ^ 63 + key % 4 * 256 + key / 4)

def overfullOps : List (SegmentOp narrow ℕ ℕ) :=
  [3, 7, 0, 1, 11, 15, 19, 23].map fun key => .insert key key

def overfull : Segment narrow ℕ ℕ :=
  (Lib.run (step allLeave) (Segment.empty 0) overfullOps).get (by decide +kernel)

/-- **A split that drops an entry.**  Key 7 is hosted by bucket 0 on the left, but comes before key
3 in the order of the buckets and takes bucket 3 on the right. Keys 0 and 1 are then in their own
buckets and block the way of key 3 to its neighbour, so that it needs a slot of the stash, and the
last entry of the stash has none. -/
theorem split_drops_entry :
    Lib.run (step allLeave) (Segment.empty 0) overfullOps = some overfull ∧
      (overfull.insert 27 27 (allLeave 27)).2.1 = none ∧
      lookup allLeave overfull 11 = some 11 ∧ overfull.slowSize = 8 ∧
      let st := overfull.split allLeave (Segment.empty 0)
      st.found = false ∧ lookup allLeave st.left 11 = none ∧ lookup allLeave st.right 11 = none ∧
        st.left.slowSize + st.right.slowSize = 7 :=
  ⟨(some_get _).symm, by decide +kernel⟩

end Segment
end Drakeydb.Dash
