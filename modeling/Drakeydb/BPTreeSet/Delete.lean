import Drakeydb.BPTreeSet.Insert

/-!
# Deletion

A deletion removes an item from a leaf and comes back up; `Deleted` says what a level hands to the
one above. A level that lost an item of its own may have one too few, which only happens while the
loop of `Delete(path)` is still running; the level above then merges the child with a neighbour, or
moves items over from it.
-/

namespace Drakeydb.BPTreeSet

open List Option
open Child hiding toList

open Lib (Alternating)
open Lib.Alternating

variable {α : Type} {L : Layout} {h : ℕ} {A B : List α} {path : Path} {x : α}

namespace Node

/-- What a level hands to the one above: the node with the contents `ys`, and whether the loop is
still running. -/
structure Deleted (L : Layout) (n : Node α h) (ys : List α) (res : Node α h × Bool) : Prop where
  shape : res.1.Shape L 0
  toList_eq : res.1.toList = ys
  numItems_eq : res.1.numItems = n.numItems ∨ res.2 = true ∧ res.1.numItems + 1 = n.numItems

/-! ## §1 Filling up a child -/

variable {n : Node α (h + 1)} {pre : List (Child α (h + 1) × α)} {l r : Node α h} {k : α}
  {post : List (α × Child α (h + 1))}

/-- Where two neighbours do not fit one node, half of what the larger one has more fills up the
smaller one. -/
theorem fewest_of_not_fit {few : ℕ} (many : ℕ) (hfew : few < L.minItems h)
    (hfit : ¬few + 1 + many ≤ L.maxItems h) :
    1 ≤ (many - few) / 2 ∧ (many - few) / 2 ≤ many ∧
      L.fewest h ≤ few + (many - few) / 2 ∧ L.fewest h ≤ many - (many - few) / 2 := by
  unfold Layout.minItems at hfew
  unfold Layout.fewest
  omega

theorem mergeChildren_plug (hn : n.items = plug pre l ((k, r) :: post)) :
    n.mergeChildren L pre.length =
      if l.numItems + 1 + r.numItems ≤ L.maxItems h then
        some ⟨n.count, plug pre (l.mergeFromRight k r) post⟩
      else none := by
  simp [mergeChildren, window_plug hn, setChild, hn, setChild_plug, erase_plug]

variable {c : Node α h}

section

variable (hsides : SidesOk L pre post) (hcount : n.count = n.toList.length)
  (hle : n.numItems ≤ L.maxItems (h + 1))
include hsides hcount hle

theorem deleted_merge (hn : n.items = plug pre l ((k, r) :: post)) (hl : l.Shape L 0)
    (hr : r.Shape L 0)
    (hfit : l.numItems + 1 + r.numItems ≤ L.maxItems h)
    (hlow : L.fewest h ≤ l.numItems + 1 + r.numItems) :
    Deleted L n n.toList (⟨n.count, plug pre (l.mergeFromRight k r) post⟩, true) := by
  have hmerge := mergeFromRight_spec k hl hr hfit
  have hnum : (l.mergeFromRight k r).numItems = l.numItems + 1 + r.numItems := num_merge ..
  have hlist : (⟨n.count, plug pre (l.mergeFromRight k r) post⟩ : Node α (h + 1)).items.seq
      (Child.toList (h + 1)) = n.toList := by
    rw [toList_of_plug hn, seq_plug, seqAfter_cons, toList_succ, toList, mergeFromRight,
      seq_merge, append_assoc]
    rfl
  have hparent : n.numItems = pre.length + post.length + 1 := by
    rw [numItems, hn, num_plug, length_cons]
    rfl
  refine ⟨⟨?_, ?_, ?_⟩, hlist, .inr ⟨rfl, ?_⟩⟩
  · show (plug pre (l.mergeFromRight k r) post).num ≤ _
    rw [num_plug]
    omega
  · show n.count = (Alternating.seq _ _).length + 0
    rw [hlist]
    exact hcount
  · exact children_ok_plug.mpr ⟨hsides, ok_succ.mpr ⟨hnum.symm ▸ hlow, hmerge⟩⟩
  · show (plug pre (l.mergeFromRight k r) post).num + 1 = _
    rw [num_plug, hparent]

/-- The outcome for the parent of two children whose items were cut anew. -/
theorem deleted_window (hn : n.items = plug pre l ((k, r) :: post)) {l' r' : Node α h} {k' : α}
    (hl : Ok L (h + 1) l') (hr : Ok L (h + 1) r')
    (hcut : l'.items.merge k' r'.items = l.items.merge k r.items) :
    Deleted L n n.toList (⟨n.count, plug pre l' ((k', r') :: post)⟩, false) := by
  have hre := refilled_window hn hsides k' hl hr
  have hlist : around pre (l'.toList ++ k' :: r'.toList) post = n.toList := by
    have hseq := congrArg (seq · (Child.toList h)) hcut
    simp only [seq_merge] at hseq
    rw [toList_of_plug hn, toList, toList, hseq]
    exact around_cons.symm
  rw [hlist] at hre
  refine ⟨⟨hre.numItems_eq.trans_le hle, ?_, hre.children⟩, hre.toList_eq, .inl hre.numItems_eq⟩
  rw [hre.toList_eq]
  exact hre.count_eq.trans hcount

theorem refill_from_right (hn : n.items = plug pre c ((k, r) :: post)) (hc : c.Shape L 0)
    (hr : r.Shape L 0)
    (hfew : c.numItems < L.minItems h) (hfit : ¬c.numItems + 1 + r.numItems ≤ L.maxItems h) :
    ∃ n', n.rebalanceChildToLeft (pre.length + 1) ((r.numItems - c.numItems) / 2) = some n' ∧
      Deleted L n n.toList (n', false) := by
  obtain ⟨hone, hmany, hclow, hrlow⟩ := fewest_of_not_fit r.numItems hfew hfit
  have hrle := hr.numItems_le
  have hfree : c.numItems + (r.numItems - c.numItems) / 2 ≤ L.maxItems h := by omega
  obtain ⟨c', k', r', hmove, hcut, hcnum, hrnum, hc', hr'⟩ :=
    moveToLeft_spec k hc hr hone hmany hfree
  refine ⟨⟨n.count, plug pre c' ((k', r') :: post)⟩, ?_, ?_⟩
  · rw [rebalanceChildToLeft, Nat.add_sub_cancel, window_plug hn]
    simp only [hmove, map_some, setWindow_plug hn]
  · exact deleted_window hsides hcount hle hn (ok_succ.mpr ⟨by omega, hc'⟩)
      (ok_succ.mpr ⟨by omega, hr'⟩) hcut

theorem refill_from_left (hn : n.items = plug pre l ((k, c) :: post)) (hc : c.Shape L 0)
    (hl : l.Shape L 0)
    (hfew : c.numItems < L.minItems h) (hfit : ¬l.numItems + 1 + c.numItems ≤ L.maxItems h) :
    ∃ n', n.rebalanceChildToRight pre.length ((l.numItems - c.numItems) / 2) = some n' ∧
      Deleted L n n.toList (n', false) := by
  obtain ⟨hone, hmany, hclow, hllow⟩ := fewest_of_not_fit l.numItems hfew (by omega)
  have hlle := hl.numItems_le
  have hfree : c.numItems + (l.numItems - c.numItems) / 2 ≤ L.maxItems h := by omega
  obtain ⟨l', k', c', hmove, hcut, hcnum, hlnum, hc', hl'⟩ :=
    moveToRight_spec k hc hl hone hmany hfree
  refine ⟨⟨n.count, plug pre l' ((k', c') :: post)⟩, ?_, ?_⟩
  · rw [rebalanceChildToRight, window_plug hn]
    simp only [hmove, map_some, setWindow_plug hn]
  · exact deleted_window hsides hcount hle hn (ok_succ.mpr ⟨by omega, hl'⟩)
      (ok_succ.mpr ⟨by omega, hc'⟩) hcut

/-- **Filling up.** A child with too few items is merged with a neighbour or gets items from it. -/
theorem mergeOrRebalanceChild_spec (hn : n.items = plug pre c post) (hc : c.Shape L 0)
    (hfew : c.numItems < L.minItems h) (hpos : 0 < n.numItems) :
    ∃ res, n.mergeOrRebalanceChild L pre.length = some res ∧ Deleted L n n.toList res := by
  have hnum : n.numItems = pre.length + post.length := by simp [numItems, hn]
  -- the second half, with the neighbour on the right
  have hright : ∀ (k : α) (r : Node α h) (post' : List (α × Child α (h + 1))),
    post = (k, r) :: post' →
      (if 0 < pre.length then n.mergeChildren L (pre.length - 1) else none) = none →
      ∃ res, n.mergeOrRebalanceChild L pre.length = some res ∧ Deleted L n n.toList res := by
    rintro k r post' rfl hleft
    obtain ⟨hsides, hr⟩ := sidesOk_cons.mp hsides
    obtain ⟨hrlow, hr⟩ := ok_succ.mp hr
    rw [mergeOrRebalanceChild, hleft]
    rw [if_pos (by rw [hnum, length_cons]; omega), mergeChildren_plug hn, window_plug hn]
    by_cases hfit : c.numItems + 1 + r.numItems ≤ L.maxItems h
    · rw [if_pos hfit]
      exact ⟨_, rfl, deleted_merge hsides hcount hle hn hc hr hfit (by omega)⟩
    · rw [if_neg hfit]
      obtain ⟨n', hmove, hdel⟩ := refill_from_right hsides hcount hle hn hc hr hfew hfit
      exact ⟨_, by simp [hmove], hdel⟩
  rcases eq_nil_or_concat pre with rfl | ⟨pre, ⟨l, k⟩, rfl⟩
  · -- no neighbour on the left
    cases post with
    | nil => exact absurd hnum hpos.ne'
    | cons p post' => exact hright p.1 p.2 post' rfl (if_neg (Nat.lt_irrefl 0))
  · rw [concat_eq_append] at *
    obtain ⟨hsides', hl⟩ := sidesOk_concat.mp hsides
    obtain ⟨hllow, hl⟩ := ok_succ.mp hl
    have hn' := hn.trans (plug_concat k l c pre post)
    have hlen : (pre ++ [(l, k)]).length = pre.length + 1 := length_append ..
    have hpred : (pre ++ [(l, k)]).length - 1 = pre.length := by omega
    have hleft : (if 0 < (pre ++ [(l, k)]).length then
        n.mergeChildren L ((pre ++ [(l, k)]).length - 1) else none) = _ :=
      (if_pos (hlen ▸ Nat.succ_pos _)).trans ((congrArg _ hpred).trans (mergeChildren_plug hn'))
    by_cases hfit : numItems l + 1 + c.numItems ≤ L.maxItems h
    · rw [mergeOrRebalanceChild, hleft, if_pos hfit]
      exact ⟨_, rfl, deleted_merge hsides' hcount hle hn' hl hc hfit (by omega)⟩
    · rw [if_neg hfit] at hleft
      cases post with
      | nil =>
        rw [mergeOrRebalanceChild, hleft]
        rw [if_neg (by rw [hnum]; exact Nat.lt_irrefl _), hpred, window_plug hn']
        obtain ⟨n', hmove, hdel⟩ := refill_from_left hsides' hcount hle hn' hc hl hfew hfit
        exact ⟨_, by simp [hmove], hdel⟩
      | cons p post' => exact hright p.1 p.2 post' rfl hleft

end

/-! ## §2 One level -/

/-- **One level.** The parent takes the child that lost an item. -/
theorem deleteUp_spec {ys : List α} {below : Node α h × Bool} (hs : n.Shape L 0)
    (hn : n.items = plug pre c post) (hpos : 0 < n.numItems) (hbelow : Deleted L c ys below)
    (hlen : ys.length + 1 = c.toList.length) :
    ∃ res, n.deleteUp L pre.length below = some res ∧ Deleted L n (around pre ys post) res := by
  obtain ⟨c', active⟩ := below
  obtain ⟨hsides, hc⟩ := children_ok_plug.mp (hn ▸ hs.children)
  obtain ⟨hlow, -⟩ := ok_succ.mp hc
  have hset : (n.setChild pre.length c').decreaseTreeCount 1 = ⟨n.count - 1, plug pre c' post⟩ := by
    rw [setChild, hn, setChild_plug]
    rfl
  have hnum : (plug pre c' post).num = n.numItems := by
    rw [numItems, hn, num_plug, num_plug]
  have hlist : (⟨n.count - 1, plug pre c' post⟩ : NodeOf α (Child α (h + 1))).items.seq
      (Child.toList (h + 1)) = around pre ys post := by
    rw [← hbelow.toList_eq, seq_plug]
    rfl
  have hcount : n.count - 1 = (around pre ys post).length := by
    rw [hs.count_eq, toList_of_plug hn]
    simp only [length_append]
    omega
  simp only [deleteUp, hset]
  rw [← hlist] at hcount ⊢
  split
  case isTrue hfew =>
    obtain ⟨-, hfew⟩ := (Bool.and_eq_true _ _).mp hfew |>.imp id of_decide_eq_true
    obtain ⟨res, hres, hdel⟩ := mergeOrRebalanceChild_spec (n := ⟨n.count - 1, plug pre c' post⟩)
      hsides hcount (hnum.trans_le hs.numItems_le) rfl hbelow.shape hfew (hpos.trans_eq hnum.symm)
    refine ⟨res, hres, hdel.shape, hdel.toList_eq, ?_⟩
    have heq := hdel.numItems_eq
    rwa [show numItems (⟨n.count - 1, plug pre c' post⟩ : NodeOf α (Child α (h + 1))) =
      n.numItems from hnum] at heq
  case isFalse hfew =>
    -- the child has enough items
    have hclow : L.fewest h ≤ c'.numItems := by
      rcases hbelow.numItems_eq with heq | ⟨hactive, heq⟩
      · exact hlow.trans heq.ge
      · have : ¬c'.numItems < L.minItems h := fun hlt =>
          hfew ((Bool.and_eq_true _ _).mpr ⟨hactive, decide_eq_true hlt⟩)
        unfold Layout.minItems at this
        unfold Layout.fewest
        omega
    refine ⟨_, rfl, ⟨hnum.trans_le hs.numItems_le, hcount, ?_⟩, rfl, .inl hnum⟩
    exact children_ok_plug.mpr ⟨hsides, ok_succ.mpr ⟨hclow, hbelow.shape⟩⟩

/-! ## §3 The whole way -/

theorem leafErase_spec {n : Node α 0} (hs : n.Shape L 0) (hn : n.items.keys = A ++ x :: B) :
    Deleted L n (A ++ B) (n.leafErase A.length, true) := by
  have hlen := length_keys n.items
  rw [hn, length_append, length_cons] at hlen
  obtain ⟨pre, c, post, hplug, hpre⟩ := n.items.exists_plug (i := A.length) (by omega)
  rw [hplug, keys_plug] at hn
  obtain ⟨rfl, hpost⟩ := append_inj hn ((length_map _).trans hpre)
  obtain ⟨⟨k, c'⟩, post, rfl, rfl, rfl⟩ := map_eq_cons_iff.mp hpost
  have herase : n.leafErase (pre.map Prod.snd).length = ⟨n.count - 1, plug pre c post⟩ := by
    rw [leafErase, ← hpre, hplug, erase_plug]
  rw [herase]
  have hlist : (⟨n.count - 1, plug pre c post⟩ : NodeOf α (Child α 0)).items.seq (Child.toList 0) =
      pre.map Prod.snd ++ post.map Prod.fst := by
    rw [seq_of_nil _ (Child.toList 0) fun _ => rfl, keys_plug]
  have hnum : (plug pre c post).num + 1 = n.numItems := by
    rw [numItems, hplug, num_plug, num_plug, length_cons]
    rfl
  refine ⟨⟨?_, ?_, fun _ _ => trivial⟩, hlist, .inr ⟨rfl, hnum⟩⟩
  · exact (Nat.le_succ _).trans (hnum.trans_le hs.numItems_le)
  · show n.count - 1 = (Alternating.seq _ _).length + 0
    have hcount := hs.count_eq
    rw [n.toList_leaf, length_keys] at hcount
    rw [hlist, length_append, length_map, length_map, hcount]
    rw [num_plug] at hnum
    simp only [numItems] at hnum
    omega

theorem popRight_spec : {h : ℕ} → {n : Node α h} → n.Shape L 0 → 0 < n.numItems →
    ∃ k res ys, n.popRight L = some (k, res) ∧ n.toList = ys ++ [k] ∧ Deleted L n ys res
  | 0, n, hs, hpos => by
    obtain ⟨A, x, hn⟩ := (eq_nil_or_concat n.items.keys).resolve_left (keys_ne_nil hpos)
    rw [concat_eq_append] at hn
    have hlen := length_keys n.items
    rw [hn, length_append, length_singleton] at hlen
    have hlast : n.numItems - 1 = A.length := by
      rw [numItems, ← hlen, Nat.add_sub_cancel]
    have hkey : n.items.key A.length = some x := by
      rw [key_eq, hn, getElem?_concat_length]
    have hdel := leafErase_spec hs hn
    rw [append_nil] at hdel
    exact ⟨x, _, A, by rw [popRight, hlast, hkey], n.toList_leaf.trans hn, hdel⟩
  | h + 1, n, hs, hpos => by
    obtain ⟨pre, c, post, hn, hlen⟩ := n.items.exists_plug (le_refl n.numItems)
    have hpost : post = [] := by
      have hnum : n.numItems = pre.length + post.length := by rw [numItems, hn, num_plug]
      exact eq_nil_of_length_eq_zero (by omega)
    subst hpost
    obtain ⟨-, hc⟩ := children_ok_plug.mp (hn ▸ hs.children)
    obtain ⟨k, below, ys, hpop, hlist, hdel⟩ := popRight_spec (ok_succ.mp hc).2 hc.numItems_pos
    obtain ⟨res, hres, hdel'⟩ := deleteUp_spec hs hn hpos hdel (by
      rw [hlist, length_append, length_singleton])
    have hchild : n.items.child n.numItems = some c := by
      rw [← hlen, hn]
      exact child_plug c pre []
    refine ⟨k, res, _, ?_, ?_, hdel'⟩
    · rw [popRight, hchild]
      simp only [hpop, ← hlen, hres, map_some]
    · rw [toList_of_plug hn, hlist]
      simp [seqAfter]

theorem deleteAt_cons {pos : ℕ} (hne : path ≠ []) (hc : n.items.child pos = some c) :
    n.deleteAt L (pos :: path) = (c.deleteAt L path).bind (n.deleteUp L pos) := by
  cases path with
  | nil => exact absurd rfl hne
  | cons p path => simp [deleteAt, hc]

/-- **Deletion** of the item a path points to. -/
theorem deleteAt_spec {n : Node α h} (hat : At n path A (x :: B)) (hterm : n.terminal path = some x)
    (hs : n.Shape L 0) (hpos : 0 < n.numItems) :
    ∃ res, n.deleteAt L path = some res ∧ Deleted L n (A ++ B) res := by
  generalize hxB : x :: B = B' at hat
  induction hat generalizing B with
  | @leaf n A B' hn =>
    subst hxB
    have hlen := length_keys n.items
    rw [hn, length_append, length_cons] at hlen
    refine ⟨_, ?_, leafErase_spec hs hn⟩
    rw [deleteAt, if_pos (by rw [numItems, ← hlen]; omega)]
  | @key h n pre c k c' post hn =>
    obtain ⟨rfl, rfl⟩ := cons.inj hxB
    obtain ⟨hsides, hc⟩ := children_ok_plug.mp (hn ▸ hs.children)
    obtain ⟨hsides, hc'⟩ := sidesOk_cons.mp hsides
    obtain ⟨k', below, ys, hpop, hlist, hdel⟩ := popRight_spec (ok_succ.mp hc).2 hc.numItems_pos
    -- the key is overwritten, which changes no count
    have hset : (n.setKey pre.length k').items = plug pre c ((k', c') :: post) := by
      rw [setKey, hn, setKey_plug]
    have hnum : (n.setKey pre.length k').numItems = n.numItems := by
      rw [numItems, numItems, hset, hn, num_plug, num_plug]
      rfl
    have hs' : (n.setKey pre.length k').Shape L 0 := by
      refine ⟨hnum.trans_le hs.numItems_le, ?_, ?_⟩
      · show n.count = _
        rw [hs.count_eq, toList_of_plug hn, toList_of_plug hset, seqAfter_cons, seqAfter_cons]
        simp
      · rw [hset]
        exact children_ok_plug.mpr ⟨sidesOk_cons.mpr ⟨hsides, hc'⟩, hc⟩
    obtain ⟨res, hres, hdel'⟩ := deleteUp_spec hs' hset (hpos.trans_eq hnum.symm) hdel (by
      rw [hlist, length_append, length_singleton])
    have hchild : n.items.child pre.length = some c := hn ▸ child_plug c pre _
    refine ⟨res, ?_, hdel'.shape, ?_, hnum ▸ hdel'.numItems_eq⟩
    · rw [deleteAt, hchild]
      simp only [hpop]
      exact hres
    · rw [hdel'.toList_eq, around, seqAfter_cons, toList_succ c, hlist]
      simp
  | @child h n pre c post hn path A B' hc ih =>
    have hchild : n.items.child pre.length = some c := hn ▸ child_plug c pre post
    rw [terminal_cons hc.ne_nil hchild] at hterm
    obtain ⟨B', rfl⟩ := hc.exists_cons hterm
    rw [cons_append] at hxB
    obtain ⟨-, rfl⟩ := cons.inj hxB
    obtain ⟨-, hcok⟩ := children_ok_plug.mp (hn ▸ hs.children)
    obtain ⟨below, hbelow, hdel⟩ := ih hterm (ok_succ.mp hcok).2 hcok.numItems_pos rfl
    obtain ⟨res, hres, hdel'⟩ := deleteUp_spec hs hn hpos hdel (by
      rw [hc.toList_eq]
      simp only [length_append, length_cons]
      omega)
    refine ⟨res, ?_, ?_⟩
    · rw [deleteAt_cons hc.ne_nil hchild, hbelow]
      exact hres
    · simpa only [around, append_assoc] using hdel'

end Node

end Drakeydb.BPTreeSet
