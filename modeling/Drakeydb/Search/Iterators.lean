import Mathlib.Data.Nat.Log
import Drakeydb.Lib.SortedCursor
import Drakeydb.Search.RangeTree

/-!
# Iterators over block lists

The iterators of `block_list.{h,cc}`, and `BasicSeekGE` of `base.h`. An iterator is modelled by what
it has not passed yet: a suffix of a vector, or of a block together with the blocks after it.
-/

namespace Drakeydb.Search

open Lib Lib.SortedCursor List

/-! ## §1 Seeking in a vector -/

section Seek

variable {τ : Type} (docId : τ → ℕ)

/-- One round of the galloping loop. -/
def gallopStep (minDocId step : ℕ) (it : List τ) : List τ :=
  if step < it.length then
    match it[step]? with
    | some e => if docId e < minDocId then it.drop step else it
    | none => it
  else it

/-- The galloping loop: the steps are halved each round. -/
def gallop (minDocId : ℕ) : ℕ → List τ → List τ
  | 0, it => gallopStep docId minDocId 1 it
  | k + 1, it => gallop minDocId k (gallopStep docId minDocId (2 ^ (k + 1)) it)

/-- `BasicSeekGE`; only random access iterators gallop. -/
def basicSeekGE (randomAccess : Bool) (minDocId : ℕ) (it : List τ) : List τ :=
  (if randomAccess then gallop docId minDocId it.length.log2 it else it).dropWhile
    fun e => decide (docId e < minDocId)

variable {docId}

/-- The documents do not decrease. -/
def ById (docId : τ → ℕ) (v : List τ) : Prop := v.Pairwise fun a b => docId a ≤ docId b

variable (minDocId step : ℕ)

theorem gallopStep_suffix (it : List τ) : gallopStep docId minDocId step it <:+ it := by
  rw [gallopStep]
  split
  · split
    · split
      · exact drop_suffix _ _
      · exact suffix_refl _
    · exact suffix_refl _
  · exact suffix_refl _

variable {it : List τ}

theorem dropWhile_gallopStep (hsorted : ById docId it) :
    (gallopStep docId minDocId step it).dropWhile (fun e => decide (docId e < minDocId)) =
      it.dropWhile fun e => decide (docId e < minDocId) := by
  rw [gallopStep]
  split
  case isFalse => rfl
  case isTrue hlt =>
    rw [getElem?_eq_getElem hlt]
    dsimp only
    split
    case isFalse => rfl
    case isTrue hbelow =>
      have hskipped : ∀ e ∈ it.take step, decide (docId e < minDocId) = true := by
        intro e he
        have hparts := take_append_drop step it ▸ hsorted
        have hle := (pairwise_append.mp hparts).2.2 e he it[step]
          (by rw [drop_eq_getElem_cons hlt]; exact mem_cons_self)
        exact decide_eq_true (hle.trans_lt hbelow)
      conv_rhs => rw [← take_append_drop step it]
      rw [dropWhile_append_of_pos hskipped]

theorem dropWhile_gallop (minDocId k : ℕ) (hsorted : ById docId it) :
    (gallop docId minDocId k it).dropWhile (fun e => decide (docId e < minDocId)) =
      it.dropWhile fun e => decide (docId e < minDocId) := by
  induction k generalizing it with
  | zero => exact dropWhile_gallopStep minDocId 1 hsorted
  | succ k ih =>
    rw [gallop, ih (hsorted.sublist (gallopStep_suffix _ _ _).sublist)]
    exact dropWhile_gallopStep minDocId _ hsorted

/-- **`BasicSeekGE`** goes to the first entry that is not below the document. -/
theorem basicSeekGE_eq (randomAccess : Bool) (minDocId : ℕ) (hsorted : ById docId it) :
    basicSeekGE docId randomAccess minDocId it = it.dropWhile fun e =>
      decide (docId e < minDocId) := by
  rw [basicSeekGE]
  split
  · exact dropWhile_gallop minDocId _ hsorted
  · rfl

end Seek

/-! ## §2 Block lists -/

/-- `BlockListIterator`: the rest of the block, and the blocks after it; the end is the rest of no
block. -/
structure BlockIter (τ : Type) where
  cur : List τ
  later : List (List τ)

namespace BlockIter

variable {τ : Type} {docId : τ → ℕ}

/-- The constructor. -/
def start : List (List τ) → BlockIter τ
  | [] => ⟨[], []⟩
  | block :: blocks => ⟨block, blocks⟩

/-- What the iterator has not passed. -/
def entries (it : BlockIter τ) : List τ := it.cur ++ it.later.flatten

/-- `operator++`. -/
def next (it : BlockIter τ) : BlockIter τ :=
  match it.cur.tail with
  | [] => start it.later
  | e :: cur => ⟨e :: cur, it.later⟩

/-- The lambda `needed_block`. -/
def needed (docId : τ → ℕ) (minDocId : ℕ) (block : List τ) : Bool :=
  block.getLast?.any fun e => decide (minDocId ≤ docId e)

def seekGE (docId : τ → ℕ) (randomAccess : Bool) (minDocId : ℕ) (it : BlockIter τ) : BlockIter τ :=
  match it.cur with
  | [] => ⟨[], []⟩
  | e :: cur =>
    if needed docId minDocId (e :: cur) then
      ⟨basicSeekGE docId randomAccess minDocId (e :: cur), it.later⟩
    else
      match it.later.dropWhile fun block => !needed docId minDocId block with
      | [] => ⟨[], []⟩
      | block :: blocks => ⟨basicSeekGE docId randomAccess minDocId block, blocks⟩

/-- An iterator into a block list: no block is empty, and the end is the end of all blocks. -/
structure Valid (docId : τ → ℕ) (it : BlockIter τ) : Prop where
  later_ne : ∀ block ∈ it.later, block ≠ []
  later_eq : it.cur = [] → it.later = []
  sorted : ById docId it.entries

variable {blocks : List (List τ)}

theorem valid_start (hne : ∀ block ∈ blocks, block ≠ []) (hsorted : ById docId blocks.flatten) :
    Valid docId (start blocks) ∧ (start blocks).entries = blocks.flatten := by
  cases blocks with
  | nil => exact ⟨⟨forall_mem_nil _, fun _ => rfl, List.Pairwise.nil⟩, rfl⟩
  | cons block blocks =>
    refine ⟨⟨fun b hb => hne b (mem_cons_of_mem _ hb), fun h => ?_, hsorted⟩, rfl⟩
    exact absurd h (hne block mem_cons_self)

variable {it : BlockIter τ}

theorem entries_eq_nil_iff (h : Valid docId it) : it.entries = [] ↔ it.cur = [] := by
  constructor
  · intro hnil
    exact (append_eq_nil_iff.mp hnil).1
  · intro hnil
    rw [entries, hnil, h.later_eq hnil]
    rfl

/-- **The next position.** -/
theorem next_spec (h : Valid docId it) :
    Valid docId it.next ∧ it.next.entries = it.entries.tail := by
  obtain ⟨cur, later⟩ := it
  cases cur with
  | nil =>
    have hlater : later = [] := h.later_eq rfl
    subst hlater
    exact ⟨h, rfl⟩
  | cons e cur =>
    have hsorted : ById docId (cur ++ later.flatten) := (pairwise_cons.mp h.sorted).2
    cases cur with
    | nil => exact valid_start h.later_ne hsorted
    | cons e' cur => exact ⟨⟨h.later_ne, fun hnil => absurd hnil (cons_ne_nil _ _), hsorted⟩, rfl⟩

variable {block : List τ}

theorem not_needed (hsorted : ById docId block) {minDocId : ℕ}
    (hnot : needed docId minDocId block = false) :
    ∀ e ∈ block, decide (docId e < minDocId) = true := by
  have hfrom : FromSome (fun e => decide (minDocId ≤ docId e)) block :=
    hsorted.imp fun hle => by simpa using hle.trans'
  simpa using hfrom.eq_false_of_getLast? hnot

theorem dropWhile_of_needed {minDocId : ℕ} (hneeded : needed docId minDocId block = true)
    (rest : List τ) :
    (block ++ rest).dropWhile (fun e => decide (docId e < minDocId)) =
        block.dropWhile (fun e => decide (docId e < minDocId)) ++ rest ∧
      block.dropWhile (fun e => decide (docId e < minDocId)) ≠ [] := by
  obtain ⟨e, hlast, hle⟩ : ∃ e, block.getLast? = some e ∧ minDocId ≤ docId e := by
    rw [needed, Option.any_eq_true] at hneeded
    obtain ⟨e, hlast, hle⟩ := hneeded
    exact ⟨e, hlast, of_decide_eq_true hle⟩
  have hne : block.dropWhile (fun e => decide (docId e < minDocId)) ≠ [] := by
    intro hnil
    have hall := List.dropWhile_eq_nil_iff.mp hnil e (List.mem_of_getLast? hlast)
    exact absurd (of_decide_eq_true hall) (Nat.not_lt_of_le hle)
  refine ⟨?_, hne⟩
  rw [List.dropWhile_append, if_neg]
  rwa [List.isEmpty_iff]

/-- The blocks from the first one that is needed, with a seek in that one. -/
def seekBlocks (docId : τ → ℕ) (randomAccess : Bool) (minDocId : ℕ) (blocks : List (List τ)) :
    BlockIter τ :=
  match blocks.dropWhile fun block => !needed docId minDocId block with
  | [] => ⟨[], []⟩
  | block :: blocks => ⟨basicSeekGE docId randomAccess minDocId block, blocks⟩

variable (randomAccess : Bool) (minDocId : ℕ)

theorem seekBlocks_cons (block : List τ) (blocks : List (List τ)) :
    seekBlocks docId randomAccess minDocId (block :: blocks) =
      if needed docId minDocId block then ⟨basicSeekGE docId randomAccess minDocId block, blocks⟩
      else seekBlocks docId randomAccess minDocId blocks := by
  cases hneeded : needed docId minDocId block <;> simp [seekBlocks, hneeded]

theorem seekBlocks_spec (hne : ∀ block ∈ blocks, block ≠ []) (hsorted : ById docId blocks.flatten) :
    Valid docId (seekBlocks docId randomAccess minDocId blocks) ∧
      (seekBlocks docId randomAccess minDocId blocks).entries =
        blocks.flatten.dropWhile fun e => decide (docId e < minDocId) := by
  induction blocks with
  | nil => exact ⟨⟨forall_mem_nil _, fun _ => rfl, List.Pairwise.nil⟩, rfl⟩
  | cons block blocks ih =>
    obtain ⟨-, hrest⟩ := forall_mem_cons.mp hne
    obtain ⟨hblock, hblocks, -⟩ := pairwise_append.mp hsorted
    rw [flatten_cons] at hsorted ⊢
    cases hneeded : needed docId minDocId block with
    | true =>
      obtain ⟨heq, hne'⟩ := dropWhile_of_needed hneeded blocks.flatten
      have hleft := hsorted.sublist (dropWhile_sublist fun e => decide (docId e < minDocId))
      rw [heq] at hleft
      rw [seekBlocks_cons, if_pos hneeded, basicSeekGE_eq _ _ hblock, heq]
      exact ⟨⟨hrest, fun hnil => absurd hnil hne', hleft⟩, rfl⟩
    | false =>
      -- a block that is not needed has only smaller documents
      rw [seekBlocks_cons, if_neg (Bool.eq_false_iff.mp hneeded),
        dropWhile_append_of_pos (not_needed hblock hneeded)]
      exact ih hrest hblocks

/-- **`SeekGE`** of a block list goes to the first entry that is not below the document. -/
theorem seekGE_spec (h : Valid docId it) :
    Valid docId (it.seekGE docId randomAccess minDocId) ∧
      (it.seekGE docId randomAccess minDocId).entries =
        it.entries.dropWhile fun e => decide (docId e < minDocId) := by
  obtain ⟨cur, later⟩ := it
  cases cur with
  | nil =>
    obtain rfl : later = [] := h.later_eq rfl
    exact ⟨h, rfl⟩
  | cons e cur =>
    have hseek : seekGE docId randomAccess minDocId ⟨e :: cur, later⟩ =
        seekBlocks docId randomAccess minDocId ((e :: cur) :: later) := by
      rw [seekBlocks_cons]
      rfl
    rw [hseek]
    exact seekBlocks_spec randomAccess minDocId
      (forall_mem_cons.mpr ⟨cons_ne_nil _ _, h.later_ne⟩) h.sorted

end BlockIter

end Drakeydb.Search
