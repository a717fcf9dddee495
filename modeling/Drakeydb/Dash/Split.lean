import Drakeydb.Dash.Room

/-!
# Splitting a Segment

`Split` goes over the regular buckets and then over the stash buckets of a segment, moves the
entries whose new depth bit is 1 to the right segment, and brings stash entries that stay back to
regular buckets where there is room. `Transfer` is what holds between the two segments on the way:
the entries are spread over both, no key is in both, and the right segment has room for what is
still to come. The slots of a bucket are cleared when the bucket is done, so the left side of
`Transfer` is a segment with the marked slots cleared.
-/

namespace Drakeydb.Dash

open List Function

namespace Segment

variable {P : Policy} {K V : Type} {hashFn : K → Hash} {p : K → Bool} {c0 r0 : Cells P K V}

/-! ## §1 Transfer of Entries -/

/-- Part of the entries `c0` accepted by `p` have been moved to the segment `r`, which started with
    the entries `r0`; the others are still at `c`. -/
structure Transfer (hashFn : K → Hash) (p : K → Bool) (c0 r0 c : Cells P K V) (r : Segment P K V) :
    Prop where
  ok : CellsOk hashFn c
  right : WF hashFn r
  apart : ∀ key value, Contains c key value → Absent r.cell key
  left_le : ∀ key value, Contains c key value → Contains c0 key value
  right_le : ∀ key value, Contains r.cell key value →
    Contains r0 key value ∨ (Contains c0 key value ∧ p key = true)
  kept : ∀ key value, Contains c0 key value →
    Contains c key value ∨ (p key = true ∧ Contains r.cell key value)
  right_ge : ∀ key value, Contains r0 key value → Contains r.cell key value
  room : r.HasRoomFor (demand hashFn p c)

namespace Transfer

variable {c c' : Cells P K V} {r r' : Segment P K V}

theorem start (hok : CellsOk hashFn c) (hr : WF hashFn r)
    (hapart : ∀ key value, Contains c key value → Absent r.cell key)
    (hroom : r.HasRoomFor (demand hashFn p c)) : Transfer hashFn p c r.cell c r where
  ok := hok
  right := hr
  apart := hapart
  left_le _ _ h := h
  right_le _ _ h := .inl h
  kept _ _ h := .inl h
  right_ge _ _ h := h
  room := hroom

section

variable (h : Transfer hashFn p c0 r0 c r)
include h

theorem congr_right (hcell : r'.cell = r.cell) (hmeta : ∀ b, r'.stashMeta b = r.stashMeta b) :
    Transfer hashFn p c0 r0 c r' where
  ok := h.ok
  right := h.right.congr hcell hmeta
  apart := hcell ▸ h.apart
  left_le := h.left_le
  right_le := hcell ▸ h.right_le
  kept := hcell ▸ h.kept
  right_ge := hcell ▸ h.right_ge
  room := h.room.congr hcell

theorem rearrange (hok : CellsOk hashFn c')
    (hcontains : ∀ key value, Contains c' key value ↔ Contains c key value)
    (hdemand : ∀ b, demand hashFn p c' b = demand hashFn p c b) : Transfer hashFn p c0 r0 c' r where
  ok := hok
  right := h.right
  apart key value hc := h.apart key value ((hcontains key value).mp hc)
  left_le key value hc := h.left_le key value ((hcontains key value).mp hc)
  right_le := h.right_le
  kept key value hc := (h.kept key value hc).imp_left (hcontains key value).mpr
  right_ge := h.right_ge
  room := h.room.mono fun b => (hdemand b).le

/-- **Moving one entry**: it finds a slot, and the rest still has room. -/
theorem step {it : Iterator P} {e : Slot K V} (he : c it = some e) (hp : p e.key = true) :
    ∃ r' it', r.insertUniq e.key e.value (hashFn e.key) false = some (r', it') ∧
      Transfer hashFn p c0 r0 (Function.update c it none) r' := by
  obtain ⟨hpos, hdemand⟩ := demand_erase hashFn he hp
  obtain ⟨r', it', hins, hroom⟩ := h.room.insertUniq hpos e.key e.value
  have hfresh : Absent r.cell e.key := h.apart _ _ ⟨it, e, he, rfl, rfl⟩
  have hright (key value) : Contains r'.cell key value ↔
      Contains r.cell key value ∨ (key = e.key ∧ value = e.value) :=
    h.right.contains_insertUniq hins
  have hleft (key value) : Contains (update c it none) key value ↔
      Contains c key value ∧ key ≠ e.key := h.ok.contains_erase he
  refine ⟨r', it', hins, ?_⟩
  constructor
  case ok => exact h.ok.erase it
  case right => exact h.right.insertUniq hfresh hins
  case apart =>
    intro key value hc
    obtain ⟨hc, hne⟩ := (hleft key value).mp hc
    rw [absent_iff_not_contains]
    intro value' hr
    rcases (hright key value').mp hr with hr | ⟨hkey, -⟩
    · exact absent_iff_not_contains.mp (h.apart key value hc) value' hr
    · exact hne hkey
  case left_le => exact fun key value hc => h.left_le key value ((hleft key value).mp hc).1
  case right_le =>
    intro key value hr
    rcases (hright key value).mp hr with hr | ⟨rfl, rfl⟩
    · exact h.right_le key value hr
    · exact .inr ⟨h.left_le _ _ ⟨it, e, he, rfl, rfl⟩, hp⟩
  case kept =>
    intro key value hc
    rcases h.kept key value hc with hc | ⟨hpk, hr⟩
    · -- the entry that moves is the only one with its key
      rcases (h.ok.contains_restore he).mpr hc with hstay | hmove
      · exact .inl ((hleft key value).mpr hstay)
      · exact .inr ⟨hmove.1 ▸ hp, (hright key value).mpr (.inr hmove)⟩
    · exact .inr ⟨hpk, (hright key value).mpr (.inl hr)⟩
  case right_ge => exact fun key value hr => (hright key value).mpr (.inl (h.right_ge key value hr))
  case room => rwa [hdemand]

end

end Transfer

/-! ## §2 The State of a Split -/

/-- The entries that leave for the right segment at this depth. -/
def leavesAt (hashFn : K → Hash) (depth : ℕ) (key : K) : Bool := !isMine depth (hashFn key)

/-- What holds of the two segments while the cells `todo` are still to be visited: every assert has
    held, and no entry that leaves is left behind. -/
structure SplitOk (hashFn : K → Hash) (depth : ℕ) (c0 r0 : Cells P K V) (todo : Iterator P → Prop)
    (st : SplitState P K V) : Prop where
  found : st.found = true
  transfer : Transfer hashFn (leavesAt hashFn depth) c0 r0 st.left.cell st.right
  index : st.left.Indexes (residents hashFn st.left.cell)
  leftDepth : st.left.localDepth = depth
  rightDepth : st.right.localDepth = depth
  done : ∀ it e, st.left.cell it = some e → ¬todo it → leavesAt hashFn depth e.key = false

namespace SplitOk

variable {depth : ℕ} {todo todo' : Iterator P → Prop} {st : SplitState P K V} {it : Iterator P}

section

variable (h : SplitOk hashFn depth c0 r0 todo st)
include h

theorem stay (it : Iterator P)
    (hstay : ∀ e, st.left.cell it = some e → leavesAt hashFn depth e.key = false)
    (htodo : ∀ x, ¬todo' x → ¬todo x ∨ x = it) : SplitOk hashFn depth c0 r0 todo' st where
  found := h.found
  transfer := h.transfer
  index := h.index
  leftDepth := h.leftDepth
  rightDepth := h.rightDepth
  done x e hx hdone := by
    rcases htodo x hdone with hx' | rfl
    · exact h.done x e hx hx'
    · exact hstay e hx

theorem left : WF hashFn st.left := ⟨h.transfer.ok, h.index⟩

variable {left' : Segment P K V}

/-- **One entry leaves**: the assert holds, and the entry is in the right segment. -/
theorem leave {e : Slot K V} (he : st.left.cell it = some e)
    (hp : leavesAt hashFn depth e.key = true)
    (hcell : left'.cell = Function.update st.left.cell it none)
    (hindex : left'.Indexes (residents hashFn (Function.update st.left.cell it none)))
    (hdepth : left'.localDepth = depth) (htodo : ∀ x, ¬todo' x → ¬todo x ∨ x = it) (version : ℕ) :
    ∃ r', (∀ st' : SplitState P K V, st'.right = st.right →
        st'.moveRight e (hashFn e.key) version = { st' with right := r' }) ∧
      SplitOk hashFn depth c0 r0 todo' ⟨left', r', st.found⟩ := by
  obtain ⟨r', it', hins, htransfer⟩ := h.transfer.step he hp
  have hversion : Transfer hashFn (leavesAt hashFn depth) c0 r0 (update st.left.cell it none)
      (r'.modify it'.1 (·.updateVersion version)) :=
    htransfer.congr_right (cell_modify_of_same rfl) (stashMeta_modify ⟨rfl, rfl, rfl⟩)
  refine ⟨r'.modify it'.1 (·.updateVersion version), fun st' hst' => ?_, ?_⟩
  · rw [SplitState.moveRight, hst', hins]
  · constructor
    case found => exact h.found
    case transfer => rwa [hcell]
    case index => rwa [hcell]
    case leftDepth => exact hdepth
    case rightDepth => exact (insertUniq_localDepth hins).trans h.rightDepth
    case done =>
      intro x e' hx hdone
      rw [hcell] at hx
      obtain ⟨hxi, hx⟩ := eq_some_of_erase hx
      exact h.done x e' hx ((htodo x hdone).resolve_right hxi)

/-- **One entry changes its place on the left.** -/
theorem move {it' : Iterator P} {e e' : Slot K V} (he : st.left.cell it = some e)
    (hfree : st.left.cell it' = none)
    (hcell : left'.cell = Function.update (Function.update st.left.cell it none) it' (some e'))
    (hkey : e'.key = e.key) (hstay : leavesAt hashFn depth e.key = false)
    (hrearr : Rearranges hashFn st.left left') (htodo : ∀ x, ¬todo' x → ¬todo x ∨ x = it) :
    SplitOk hashFn depth c0 r0 todo' ⟨left', st.right, st.found⟩ where
  found := h.found
  transfer := h.transfer.rearrange hrearr.wf.cells hrearr.contains fun b => by
    rw [hcell]
    exact demand_move hashFn _ he hfree e' hkey b
  index := hrearr.wf.index
  leftDepth := hrearr.depth.trans h.leftDepth
  rightDepth := h.rightDepth
  done x e1 hx hdone := by
    rw [hcell] at hx
    rcases eq_some_of_put hx with ⟨-, rfl⟩ | ⟨-, hx⟩
    · rwa [hkey]
    · obtain ⟨hxi, hx⟩ := eq_some_of_erase hx
      exact h.done x e1 hx ((htodo x hdone).resolve_right hxi)

end

end SplitOk

/-! ## §3 Regular Buckets -/

/-- The mask while the slots `l` are still to be visited. -/
private def maskAfter (m : SlotId P → Bool) (l : List (SlotId P)) (i : SlotId P) : Bool :=
  m i && decide (i ∉ l)

variable {j : SlotId P} {m : SlotId P → Bool}

private theorem maskAfter_of_not (h : m j = false) (l : List (SlotId P)) :
    maskAfter m l = maskAfter m (j :: l) := by
  funext i
  by_cases hi : i = j
  · subst hi
    simp [maskAfter, h]
  · simp [maskAfter, hi]

variable {l : List (SlotId P)}

private theorem maskAfter_of_mem (h : m j = true) (hj : j ∉ l) :
    maskAfter m l = Function.update (maskAfter m (j :: l)) j true := by
  funext i
  by_cases hi : i = j
  · subst hi
    simp [maskAfter, h, hj]
  · simp [maskAfter, hi]

/-- What is still to be visited when the slots `l` of bucket `bid` are. -/
private def todoIn (todo : Iterator P → Prop) (bid : PhysicalBid P) (l : List (SlotId P))
    (it : Iterator P) : Prop := todo it ∧ (it.1 = bid → it.2 ∈ l)

variable {bid : PhysicalBid P}

private theorem todoIn_cons {todo : Iterator P → Prop} (x : Iterator P) (h : ¬todoIn todo bid l x) :
    ¬todoIn todo bid (j :: l) x ∨ x = (bid, j) := by
  by_cases hx : x = (bid, j)
  · exact .inr hx
  · refine .inl fun h' => h ⟨h'.1, fun hbid => ?_⟩
    rcases mem_cons.mp (h'.2 hbid) with hj | hl
    · exact absurd (Prod.ext hbid hj) hx
    · exact hl

variable {depth : ℕ} {todo : Iterator P → Prop} {st : SplitState P K V} {b : LogicalBid P}

/-- The left segment without the entries that leave, while the slots `l` are still to be visited. -/
private def visited (left : Segment P K V) (hashFn : K → Hash) (b : LogicalBid P)
    (l : List (SlotId P)) :
    Segment P K V :=
  left.masked (.regular b) (maskAfter (left.leaves hashFn (.regular b)) l)

/-- One slot of a regular bucket: the left segment stands still, and with the visited slots cleared
    it satisfies the invariant. -/
private theorem splitRegularSlot_step {left : Segment P K V} (hj : j ∉ l) (acc : SplitState P K V)
    (h : SplitOk hashFn depth c0 r0 (todoIn todo (.regular b) (j :: l))
      ⟨left.visited hashFn b (j :: l), acc.right, acc.found⟩) :
    let acc' := acc.splitRegularSlot hashFn left.localDepth (left.bucket (.regular b)) j
    acc'.left = acc.left ∧ SplitOk hashFn depth c0 r0 (todoIn todo (.regular b) l)
      ⟨left.visited hashFn b l, acc'.right, acc'.found⟩ := by
  have hdepth : left.localDepth = depth := h.leftDepth
  have hcell : (left.visited hashFn b (j :: l)).cell (.regular b, j) =
    left.slot (.regular b) j := by
    rw [visited, cell_masked, if_neg (by simp [maskAfter])]
    rfl
  -- a slot with nothing to move is not marked
  have hskip (hstay : ∀ e, left.slot (.regular b) j = some e → leavesAt hashFn depth e.key = false)
      (hleaves : left.leaves hashFn (.regular b) j = false) :
      SplitOk hashFn depth c0 r0 (todoIn todo (.regular b) l) ⟨left.visited hashFn b l, acc.right,
        acc.found⟩ := by
    rw [visited, maskAfter_of_not hleaves]
    exact h.stay (.regular b, j) (hcell ▸ hstay) todoIn_cons
  rcases hslot : left.slot (.regular b) j with _ | e
  · rw [SplitState.splitRegularSlot, show (left.bucket (.regular b)).slot j = _ from hslot]
    exact ⟨rfl, hskip (by simp [hslot]) (by simp [leaves, hslot])⟩
  · rw [SplitState.splitRegularSlot, show (left.bucket (.regular b)).slot j = _ from hslot]
    dsimp only
    by_cases hmine : isMine left.localDepth (hashFn e.key) = true
    · rw [if_pos hmine]
      refine ⟨rfl, hskip (fun e' he' => ?_) (by simp [leaves, hslot, hmine])⟩
      cases hslot.symm.trans he'
      rw [leavesAt, ← hdepth, hmine]
      rfl
    · -- the entry leaves
      have hleaves : left.leaves hashFn (.regular b) j = true := by
        simpa [leaves, hslot] using hmine
      have hp : leavesAt hashFn depth e.key = true := by simpa [leavesAt, hdepth] using hmine
      have hmasked := cell_masked_update (s := left) (.regular b)
        (maskAfter (left.leaves hashFn (.regular b)) (j :: l)) j
      rw [← maskAfter_of_mem hleaves hj] at hmasked
      have hindex : (left.visited hashFn b l).Indexes
          (residents hashFn
            (update (left.visited hashFn b (j :: l)).cell (.regular b, j) none)) := by
        exact h.index.congr fun b => by rw [visited, stashMeta_masked, visited, stashMeta_masked]
      obtain ⟨r', hmove, hok⟩ := h.leave (hcell.trans hslot) hp hmasked hindex hdepth todoIn_cons
        (left.bucket (.regular b)).version
      rw [if_neg hmine, hmove acc rfl]
      exact ⟨rfl, hok⟩

private theorem splitRegular_loop {left : Segment P K V} (hl : l.Nodup) (acc : SplitState P K V)
    (h : SplitOk hashFn depth c0 r0 (todoIn todo (.regular b) l)
      ⟨left.visited hashFn b l, acc.right, acc.found⟩) :
    let res :=
  l.foldl (SplitState.splitRegularSlot hashFn left.localDepth (left.bucket (.regular b))) acc
    res.left = acc.left ∧ SplitOk hashFn depth c0 r0 (todoIn todo (.regular b) [])
      ⟨left.visited hashFn b [], res.right, res.found⟩ := by
  induction l generalizing acc with
  | nil => exact ⟨rfl, h⟩
  | cons j l ih =>
    obtain ⟨hj, hl⟩ := nodup_cons.mp hl
    obtain ⟨hleft, hok⟩ := splitRegularSlot_step hj acc h
    obtain ⟨hleft', hok'⟩ := ih hl _ hok
    exact ⟨hleft'.trans hleft, hok'⟩

private theorem SplitOk.enter (h : SplitOk hashFn depth c0 r0 todo st) (bid : PhysicalBid P) :
    SplitOk hashFn depth c0 r0 (todoIn todo bid (List.finRange P.kSlotNum))
      ⟨st.left.masked bid fun _ => false, st.right, st.found⟩ := by
  have hcell : (st.left.masked bid fun _ => false).cell = st.left.cell := masked_none bid
  constructor
  case found => exact h.found
  case transfer =>
    rw [hcell]
    exact h.transfer
  case index =>
    rw [hcell]
    exact h.index.congr (stashMeta_masked _ _)
  case leftDepth => exact h.leftDepth
  case rightDepth => exact h.rightDepth
  case done =>
    intro it e he hdone
    rw [hcell] at he
    exact h.done it e he fun ht => hdone ⟨ht, fun _ => mem_finRange _⟩

private theorem SplitOk.leaveBucket (h : SplitOk hashFn depth c0 r0 (todoIn todo bid []) st) :
    SplitOk hashFn depth c0 r0 (fun it => todo it ∧ it.1 ≠ bid) st := by
  refine h.stay (bid, lastSlot P) (fun e he => h.done _ e he (by simp [todoIn])) fun x hx => ?_
  exact .inl fun hx' => hx ⟨hx'.1, fun hbid => not_mem_nil (hx'.2 hbid)⟩

/-- **One regular bucket of `Split`.** -/
theorem SplitOk.splitRegular (h : SplitOk hashFn depth c0 r0 todo st) (b : LogicalBid P) :
    SplitOk hashFn depth c0 r0 (fun it => todo it ∧ it.1 ≠ .regular b)
      (st.splitRegular hashFn b) := by
  have hall : maskAfter (st.left.leaves hashFn (.regular b)) (finRange P.kSlotNum)
      = fun _ => false := by
    funext i
    simp [maskAfter]
  have hnil : maskAfter (st.left.leaves hashFn (.regular b)) []
      = st.left.leaves hashFn (.regular b) := by
    funext i
    simp [maskAfter]
  have hstart := h.enter (.regular b)
  rw [← hall] at hstart
  obtain ⟨hleft, hok⟩ := splitRegular_loop (nodup_finRange _) st hstart
  rw [visited, hnil] at hok
  dsimp only [SplitState.splitRegular]
  rw [hleft]
  exact hok.leaveBucket

/-! ## §4 Stash Buckets -/

variable {pos : StashPos}

/-- One slot of a stash bucket; the marks of the other slots stand still. -/
private theorem splitStashSlot_step (acc : SplitState P K V × (SlotId P → Bool))
    (hmask : acc.2 j = false) (h : SplitOk hashFn depth c0 r0 (todoIn todo (.stash pos) (j :: l))
      ⟨acc.1.left.masked (.stash pos) acc.2, acc.1.right, acc.1.found⟩) :
    let acc' := SplitState.splitStashSlot hashFn pos acc j
    (∀ i, i ≠ j → acc'.2 i = acc.2 i) ∧
      SplitOk hashFn depth c0 r0 (todoIn todo (.stash pos) l)
        ⟨acc'.1.left.masked (.stash pos) acc'.2, acc'.1.right, acc'.1.found⟩ := by
  obtain ⟨st, mask⟩ := acc
  dsimp only at hmask h
  have hdepth : st.left.localDepth = depth := h.leftDepth
  have hcell : (st.left.masked (.stash pos) mask).cell (.stash pos, j)
      = st.left.slot (.stash pos) j := by
    rw [cell_masked, if_neg (by simp [hmask])]
    rfl
  have hmark : ∀ i, i ≠ j → update mask j true i = mask i := fun i hi => update_of_ne hi ..
  rcases hslot : st.left.slot (.stash pos) j with _ | e
  · simp only [SplitState.splitStashSlot, hslot]
    exact ⟨fun _ _ => trivial, h.stay (.stash pos, j) (by simp [hcell, hslot]) todoIn_cons⟩
  · have hme := hcell.trans hslot
    by_cases hmine : isMine st.left.localDepth (hashFn e.key) = true
    · have hstay : leavesAt hashFn depth e.key = false := by
        rw [leavesAt, ← hdepth, hmine]
        rfl
      rcases hmove : st.left.tryMoveFromStash pos j (hashFn e.key) with _ | ⟨left', it⟩
      · simp only [SplitState.splitStashSlot, hslot, hmine, hmove, if_true]
        refine ⟨fun _ _ => trivial, h.stay (.stash pos, j) (fun e' he' => ?_) todoIn_cons⟩
        cases hme.symm.trans he'
        exact hstay
      · -- there is room in the home bucket or next to it
        simp only [SplitState.splitStashSlot, hslot, hmine, hmove, if_true]
        obtain ⟨b, i, probe, -, hfree, hcell', -⟩ := cell_masked_tryMoveFromStash mask hslot hmove
        exact ⟨hmark, h.move hme hfree hcell' rfl hstay
          (h.left.masked_tryMoveFromStash hslot hmask hmove) todoIn_cons⟩
    · have hp : leavesAt hashFn depth e.key = true := by simpa [leavesAt, hdepth] using hmine
      have hkeep := keepsData_removeStashReference st.left pos (hashFn e.key)
      have hcell' : ((st.left.removeStashReference pos (hashFn e.key)).masked (.stash pos)
          (update mask j true)).cell
          = update (st.left.masked (.stash pos) mask).cell (.stash pos, j) none := by
        rw [← cell_masked_update]
        funext x
        rw [cell_masked, cell_masked, hkeep.cell]
      have hindex : ((st.left.removeStashReference pos (hashFn e.key)).masked (.stash pos)
          (update mask j true)).Indexes (residents hashFn
            (update (st.left.masked (.stash pos) mask).cell (.stash pos, j) none)) := by
        have hleft : st.left.Indexes (residents hashFn (st.left.masked (.stash pos) mask).cell) :=
          h.index.congr fun b => (stashMeta_masked _ _ b).symm
        exact (hleft.removeStashReference hme (h.left.cells.placed _ _ hme).1).congr
          (stashMeta_masked _ _)
      obtain ⟨r', hright, hok⟩ := h.leave hme hp hcell' hindex (hkeep.1.trans hdepth) todoIn_cons
        (st.left.bucket (.stash pos)).version
      simp only [SplitState.splitStashSlot, hslot, hmine, hright st rfl]
      exact ⟨hmark, hok⟩

private theorem splitStash_loop (hl : l.Nodup) (acc : SplitState P K V × (SlotId P → Bool))
    (hmask : ∀ j ∈ l, acc.2 j = false)
    (h : SplitOk hashFn depth c0 r0 (todoIn todo (.stash pos) l)
      ⟨acc.1.left.masked (.stash pos) acc.2, acc.1.right, acc.1.found⟩) :
    let res := l.foldl (SplitState.splitStashSlot hashFn pos) acc
    SplitOk hashFn depth c0 r0 (todoIn todo (.stash pos) [])
      ⟨res.1.left.masked (.stash pos) res.2, res.1.right, res.1.found⟩ := by
  -- the slots still to come are not marked
  induction l generalizing acc with
  | nil => exact h
  | cons j l ih =>
    obtain ⟨hj, hl⟩ := nodup_cons.mp hl
    obtain ⟨hmarks, hok⟩ := splitStashSlot_step acc (hmask j mem_cons_self) h
    refine ih hl _ (fun i hi => ?_) hok
    rw [hmarks i (by rintro rfl; exact hj hi)]
    exact hmask i (mem_cons_of_mem _ hi)

/-- **One stash bucket of `Split`.** -/
theorem SplitOk.splitStash (h : SplitOk hashFn depth c0 r0 todo st) (pos : StashPos) :
    SplitOk hashFn depth c0 r0 (fun it => todo it ∧ it.1 ≠ .stash pos) (st.splitStash hashFn pos) :=
  (splitStash_loop (nodup_finRange _) (st, fun _ => false) (fun _ _ => rfl)
    (h.enter (.stash pos))).leaveBucket

/-! ## §5 The Split -/

private theorem SplitOk.foldl {ι : Type} {f : SplitState P K V → ι → SplitState P K V}
    {toBid : ι → PhysicalBid P} (hf : ∀ todo st, SplitOk hashFn depth c0 r0 todo st → ∀ i,
      SplitOk hashFn depth c0 r0 (fun it => todo it ∧ it.1 ≠ toBid i) (f st i))
    (l : List ι) (h : SplitOk hashFn depth c0 r0 todo st) :
    SplitOk hashFn depth c0 r0 (fun it => todo it ∧ ∀ i ∈ l, it.1 ≠ toBid i) (l.foldl f st) := by
  induction l generalizing todo st with
  | nil => simpa using h
  | cons i l ih => simpa [and_assoc] using ih (hf todo st h i)

/-- What `Split` did: it found room for every entry that leaves, and the entries are where the new
    depth bit says. -/
structure Splits (hashFn : K → Hash) (s dest : Segment P K V) (st : SplitState P K V) : Prop where
  found : st.found = true
  left : WF hashFn st.left
  right : WF hashFn st.right
  leftDepth : st.left.localDepth = s.localDepth + 1
  rightDepth : st.right.localDepth = s.localDepth + 1
  containsLeft : ∀ key value, Contains st.left.cell key value ↔
    Contains s.cell key value ∧ isMine (s.localDepth + 1) (hashFn key) = true
  containsRight : ∀ key value, Contains st.right.cell key value ↔
    Contains dest.cell key value ∨
      (Contains s.cell key value ∧ isMine (s.localDepth + 1) (hashFn key) = false)

/-- **`Split` with room in the right segment.**  The right segment may hold entries already, as in
    the rollback of a merge. -/
theorem split_spec {s dest : Segment P K V} (hs : WF hashFn s) (hdest : WF hashFn dest)
    (hapart : ∀ key value, Contains s.cell key value → Absent dest.cell key)
    (hroom : dest.HasRoomFor (demand hashFn (leavesAt hashFn (s.localDepth + 1)) s.cell)) :
    Splits hashFn s dest (s.split hashFn dest) := by
  have hstart : SplitOk hashFn (s.localDepth + 1) s.cell dest.cell (fun _ => True)
      ⟨{ s with localDepth := s.localDepth + 1 },
        { dest with localDepth := s.localDepth + 1 }, true⟩ := by
    constructor
    case found => rfl
    case transfer =>
      exact (Transfer.start hs.cells hdest hapart hroom).congr_right rfl fun _ => rfl
    case index => exact hs.index
    case leftDepth => rfl
    case rightDepth => rfl
    case done => exact fun _ _ _ h => absurd trivial h
  have hregular := hstart.foldl (fun todo st h b => h.splitRegular b) (finRange P.kBucketNum)
  have hstash := hregular.foldl (fun todo st h pos => h.splitStash pos)
    (finRange kStashBucketNum)
  -- every cell is in a bucket that has been visited
  have hdone (it e) (he : (s.split hashFn dest).left.cell it = some e) :
      leavesAt hashFn (s.localDepth + 1) e.key = false := by
    refine hstash.done it e he fun h => ?_
    obtain ⟨⟨-, hb⟩, hpos⟩ := h
    rcases hbid : it.1 with b | pos
    · exact hb b (mem_finRange b) hbid
    · exact hpos pos (mem_finRange pos) hbid
  constructor
  case found => exact hstash.found
  case left => exact hstash.left
  case right => exact hstash.transfer.right
  case leftDepth => exact hstash.leftDepth
  case rightDepth => exact hstash.rightDepth
  case containsLeft =>
    intro key value
    refine ⟨fun h => ⟨hstash.transfer.left_le key value h, ?_⟩, fun ⟨h, hmine⟩ => ?_⟩
    · obtain ⟨it, e, he, rfl, -⟩ := h
      simpa [leavesAt] using hdone it e he
    · refine (hstash.transfer.kept key value h).resolve_right fun ⟨hp, _⟩ => ?_
      simp [leavesAt, hmine] at hp
  case containsRight =>
    intro key value
    refine ⟨fun h => ?_, fun h => ?_⟩
    · exact (hstash.transfer.right_le key value h).imp_right fun ⟨hc, hp⟩ =>
        ⟨hc, by simpa [leavesAt] using hp⟩
    · rcases h with h | ⟨h, hmine⟩
      · exact hstash.transfer.right_ge key value h
      · refine ((hstash.transfer.kept key value h).resolve_left fun hleft => ?_).2
        obtain ⟨it, e, he, rfl, -⟩ := hleft
        have hnot := hdone it e he
        simp [leavesAt, hmine] at hnot

end Segment
end Drakeydb.Dash
