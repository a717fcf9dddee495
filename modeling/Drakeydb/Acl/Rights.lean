import Mathlib.Data.List.Sort
import Drakeydb.Lib.Overwrite
import Drakeydb.Acl.Registry

/-!
# Command rights and their history

A user keeps, for each category and command that was ever changed, the last change and its sequence
number. The command masks are the result of these changes alone, in the order of their numbers: a
change is forgotten only when one of the same category or command, and thus with the same mask,
comes after it.
-/

namespace Drakeydb.Acl

open Lib Lib.Ascii List

/-! ## §1 The changes of a user -/

/-- What a change is of. -/
inductive ChangeKey
  | category (cat : UInt32)
  | command (index : ℕ) (bit : UInt64)
deriving DecidableEq

/-- `CategoryAndMetadata` or `CommandAndMetadata`. -/
structure Change where
  key : ChangeKey
  sign : Sign
  seqNo : ℕ
deriving DecidableEq

/-- The two tables, one after the other. -/
def listTables (cats : CategoryChanges) (cmds : CommandChanges) : List Change :=
  cats.entries.map (fun entry => ⟨.category entry.1, entry.2.sign, entry.2.seqNo⟩) ++
    cmds.entries.map fun entry => ⟨.command entry.1.1 entry.1.2, entry.2.sign, entry.2.seqNo⟩

def mergeTables (cats : CategoryChanges) (cmds : CommandChanges) : List Change :=
  (listTables cats cmds).insertionSort fun a b => a.seqNo ≤ b.seqNo

/-- The changes of a user, in no order. -/
def User.changes (u : User) : List Change := listTables u.catChanges u.cmdChanges

/-- The changes of a user, in order. -/
def User.history (u : User) : List (ChangeKey × Sign) :=
  (mergeTables u.catChanges u.cmdChanges).map fun change => (change.key, change.sign)

/-! ## §2 The effect of a change -/

/-- The effect on the mask of a family. -/
def overlay : Sign → UInt64 → UInt64 → UInt64
  | .plus, mask, bits => bits ||| mask
  | .minus, mask, bits => (bits ||| mask) ^^^ mask

variable (fam : AclFamily)

/-- The bits of a family that a change is about. -/
def maskAt : ChangeKey → ℕ → UInt64
  | .category cat, f =>
    if cat = catAll then allCommands
      else ((User.categoryGroup fam cat).bind fun group => group[f]?).getD 0
  | .command index bit, f => if f = index then bit else 0

/-- The effect on the masks of all families. -/
def applyChange (commands : List UInt64) (op : ChangeKey × Sign) : List UInt64 :=
  commands.mapIdx fun f bits => overlay op.2 (maskAt fam op.1 f) bits

/-- The masks without the bits a change is about. -/
def outside (key : ChangeKey) (commands : List UInt64) : List UInt64 :=
  commands.mapIdx fun f bits => bits &&& ~~~maskAt fam key f

theorem overlay_zero (sign : Sign) (bits : UInt64) : overlay sign 0 bits = bits := by
  cases sign <;> simp [overlay]

variable (bits : UInt64)

theorem overlay_plus_all : overlay .plus allCommands bits = allCommands :=
  UInt64.or_neg_one

theorem overlay_minus_all : overlay .minus allCommands bits = 0 := by
  have hall : bits ||| allCommands = allCommands := UInt64.or_neg_one
  simp [overlay, hall]

/-- Outside a mask an overlay changes nothing, and what is there does not matter inside. -/
theorem overlay_outside (sign : Sign) (mask other bits : UInt64) :
    overlay sign mask bits &&& ~~~mask = bits &&& ~~~mask ∧
    overlay sign mask (bits &&& ~~~mask) = overlay sign mask bits ∧
    overlay sign mask (bits &&& ~~~other) &&& ~~~other = overlay sign mask bits &&& ~~~other := by
  refine ⟨?_, ?_, ?_⟩ <;> apply UInt64.toBitVec_inj.mp <;> ext i <;> cases sign <;>
    simp [overlay] <;> grind

/-- **Overwriting.** A change sets the bits of its mask, whatever they were, and no others. -/
theorem overwrites_applyChange :
    Overwrites (applyChange fam) fun key x y => outside fam key x = outside fam key y where
  refl _ _ := rfl
  trans _ _ _ _ hxy hyz := hxy.trans hyz
  changes key sign x := by
    rw [applyChange, outside, mapIdx_mapIdx]
    exact congrArg (mapIdx · x) (funext fun f => funext fun bits => (overlay_outside _ _ 0 _).1)
  keeps key x y op hxy := by
    have hfactor : ∀ z, outside fam key (applyChange fam z op) =
        outside fam key (applyChange fam (outside fam key z) op) := by
      simp [applyChange, outside, Function.comp_def, (overlay_outside _ _ _ _).2.2]
    rw [hfactor x, hfactor y, hxy]
  determines key sign x y hxy := by
    have hfactor : ∀ z, applyChange fam z (key, sign) =
      applyChange fam (outside fam key z) (key, sign) := by
      intro z
      simp [applyChange, outside, Function.comp_def, (overlay_outside _ _ 0 _).2.1]
    rw [hfactor x, hfactor y, hxy]

/-! ## §3 The code of a change -/

variable {fam} {cat : UInt32}

namespace User

theorem modify_eq_mapIdx (index : ℕ) (g : UInt64 → UInt64) (commands : List UInt64) :
    commands.modify index g = commands.mapIdx fun f bits => if f = index then g bits else bits := by
  apply ext_getElem?
  intro f
  rw [getElem?_mapIdx, getElem?_modify]
  simp only [eq_comm]
  rfl

theorem changeAclCommands_eq_mapIdx {index : ℕ} (hindex : index ≠ sizeMax) (sign : Sign)
    (bit : UInt64) (commands : List UInt64) :
    changeAclCommands sign index bit commands =
      commands.mapIdx fun f bits => overlay sign (if f = index then bit else 0) bits := by
  have hone : ∀ f bits, overlay sign (if f = index then bit else 0) bits =
      if f = index then overlay sign bit bits else bits := by
    intro f bits
    split
    · rfl
    · exact overlay_zero sign bits
  simp only [hone]
  cases sign with
  | plus =>
    rw [changeAclCommands, setAclCommands, if_neg hindex, modify_eq_mapIdx]
    rfl
  | minus =>
    rw [changeAclCommands, unsetAclCommands, if_neg hindex, setAclCommands, if_neg hindex,
      modify_modify_eq, modify_eq_mapIdx]
    rfl

theorem foldl_changeAclCommands (sign : Sign) (group : List UInt64) {k : ℕ}
    (hk : k + group.length ≤ sizeMax) (commands : List UInt64) :
    (group.zipIdx k).foldl
    (fun commands entry => changeAclCommands sign entry.2 entry.1 commands) commands =
      commands.mapIdx fun f bits =>
        if k ≤ f then overlay sign (group[f - k]?.getD 0) bits else bits := by
  induction group generalizing k commands with
  | nil => simp [overlay_zero, mapIdx_eq_zipIdx_map]
  | cons mask group ih =>
    rw [length_cons] at hk
    rw [zipIdx_cons, foldl_cons, changeAclCommands_eq_mapIdx (by omega), ih (by omega),
      mapIdx_mapIdx]
    refine congrArg (mapIdx · commands) (funext fun f => funext fun bits => ?_)
    rcases Nat.lt_trichotomy f k with hlt | rfl | hgt
    · simp [Nat.not_le.mpr hlt, Nat.not_le.mpr (Nat.lt_succ_of_lt hlt), Nat.ne_of_lt hlt,
        overlay_zero]
    · simp
    · have hle : k + 1 ≤ f := hgt
      obtain ⟨d, rfl⟩ := Nat.exists_eq_add_of_le hle
      simp [overlay_zero, show k + 1 + d - k = d + 1 by omega, show k ≤ k + 1 + d by omega,
        show k + 1 + d ≠ k by omega]

theorem categoryGroup_length {group : List UInt64} (h : categoryGroup fam cat = some group) :
    group.length = fam.cmdRegistry.familyOfCommands.length := by
  obtain ⟨name, -, hindex⟩ := Option.bind_eq_some_iff.mp h
  rw [CommandTable.categoryToCommandsIndex] at hindex
  split at hindex
  · cases hindex
  · simp [← Option.some.inj hindex]

/-- A category sets or clears the bits of its commands. -/
theorem changeCategoryCommands_eq {sign : Sign} {commands commands' : List UInt64}
    (h : changeCategoryCommands fam sign cat commands = some commands') :
    commands' = applyChange fam commands (.category cat, sign) := by
  rw [changeCategoryCommands] at h
  split at h
  case isTrue hall =>
    obtain rfl := Option.some.inj h
    have hconst : ∀ bits : UInt64, commands.map (fun _ => bits) =
      commands.mapIdx fun _ _ => bits := by
      intro bits
      rw [mapIdx_eq_zipIdx_map, map_const', map_const', length_zipIdx]
    simp only [applyChange, maskAt, if_pos hall]
    cases sign with
    | plus =>
      simp only [overlay_plus_all, changeAclCommands, setAclCommands, if_true]
      exact hconst _
    | minus =>
      simp only [overlay_minus_all, changeAclCommands, unsetAclCommands, if_true]
      exact hconst _
  case isFalse hnot =>
    obtain ⟨group, hgroup, rfl⟩ := Option.map_eq_some_iff.mp h
    have hlen := categoryGroup_length hgroup
    have hfew := fam.cmdRegistry.ok.few
    rw [changeGroup, foldl_changeAclCommands sign group (by rw [hlen, sizeMax]; omega)]
    simp [applyChange, maskAt, hnot, hgroup]

theorem exists_changeCategoryCommands (sign : Sign) (commands : List UInt64)
    (h : cat = catAll ∨ (categoryGroup fam cat).isSome) :
    ∃ commands', changeCategoryCommands fam sign cat commands = some commands' := by
  rw [changeCategoryCommands]
  split
  · exact ⟨_, rfl⟩
  · next hnot =>
    obtain ⟨group, hgroup⟩ := Option.isSome_iff_exists.mp (h.resolve_left hnot)
    exact ⟨_, by rw [hgroup, Option.map_some]⟩

/-! ## §4 The history -/

end User

theorem kerase_eq_filter {α : Type} {β : α → Type} [DecidableEq α] {l : List (Sigma β)}
    (h : l.NodupKeys) (a : α) : l.kerase a = l.filter fun entry => entry.1 ≠ a := by
  induction l with
  | nil => rfl
  | cons entry l ih =>
    obtain ⟨hnot, hl⟩ := nodupKeys_cons.mp h
    by_cases ha : a = entry.1
    · rw [kerase_cons_eq ha, filter_cons_of_neg (by simp [ha]), filter_eq_self.mpr]
      intro entry' hmem
      have hne : entry'.1 ≠ a := fun heq => hnot (by
        rw [← ha, ← heq]
        exact mem_keys_of_mem hmem)
      simpa using hne
    · rw [kerase_cons_ne ha, ih hl, filter_cons_of_pos (by simpa using Ne.symm ha)]

theorem entries_insert_perm {α : Type} {β : α → Type} [DecidableEq α] (table : AList β)
    (a : α) (b : β a) :
    (table.insert a b).entries = ⟨a, b⟩ :: table.entries.filter fun entry => entry.1 ≠ a := by
  rw [← kerase_eq_filter table.nodupKeys]
  rfl

variable (cats : CategoryChanges) (cmds : CommandChanges)

theorem mergeTables_perm : (mergeTables cats cmds).Perm (listTables cats cmds) :=
  perm_insertionSort _ _

theorem mergeTables_pairwise : (mergeTables cats cmds).Pairwise fun a b => a.seqNo ≤ b.seqNo :=
  pairwise_insertionSort _ _

theorem eq_of_perm_of_pairwise {xs ys : List Change} (hperm : xs.Perm ys)
    (hnodup : (xs.map Change.seqNo).Nodup) (hxs : xs.Pairwise fun a b => a.seqNo ≤ b.seqNo)
    (hys : ys.Pairwise fun a b => a.seqNo ≤ b.seqNo) : xs = ys := by
  refine List.Perm.eq_of_pairwise ?_ hxs hys hperm
  intro a b ha hb hab hba
  exact inj_on_of_nodup_map hnodup ha (hperm.mem_iff.mpr hb) (Nat.le_antisymm hab hba)

/-- The category or command of a rule. -/
def RuleUpdate.key : RuleUpdate → ChangeKey
  | .category _ cat => .category cat
  | .command _ index bit => .command index bit

def RuleUpdate.sign : RuleUpdate → Sign
  | .category sign _ => sign
  | .command sign _ _ => sign

variable (fam) in
/-- The category has a name, or the command is registered. -/
def ChangeKey.Known : ChangeKey → Prop
  | .category cat => ∃ name, (name, cat) ∈ catTable
  | .command index bit =>
    ∃ c ∈ fam.cmdRegistry.cmdMap, c.isAlias = false ∧ c.family = index ∧ c.bitIndex = bit

variable (fam) in
/-- The change was possible. -/
def ChangeKey.Possible : ChangeKey → Prop
  | .category cat => cat = catAll ∨ (User.categoryGroup fam cat).isSome
  | .command _ _ => True

namespace User

variable (fam) in
/-- The masks of a new user. -/
def noCommands : List UInt64 := List.replicate fam.cmdRegistry.familyOfCommands.length 0

variable (fam) in
/-- The masks are the result of the changes, which are numbered and of known categories and
commands. -/
structure RightsOk (u : User) : Prop where
  commands_eq : u.commands = u.history.foldl (applyChange fam) (noCommands fam)
  seq_lt : ∀ change ∈ u.changes, change.seqNo < u.seq
  nodup : (u.changes.map Change.seqNo).Nodup
  known : ∀ change ∈ u.changes, change.key.Known fam
  possible : ∀ change ∈ u.changes, change.key.Possible fam

variable {u v : User}

/-- The history after a change that replaces the one of the same key. -/
theorem history_of_perm {key : ChangeKey} {sign : Sign} (hseq : ∀ c ∈ u.changes, c.seqNo < u.seq)
    (hnodup : (u.changes.map Change.seqNo).Nodup)
    (hperm : v.changes.Perm (⟨key, sign, u.seq⟩ :: u.changes.filter fun c => c.key ≠ key)) :
    (v.changes.map Change.seqNo).Nodup ∧
      v.history = (u.history.filter fun op => op.1 ≠ key) ++ [(key, sign)] := by
  have hkept : ∀ c ∈ u.changes.filter fun c => c.key ≠ key, c.seqNo < u.seq :=
    fun c hc => hseq c (mem_of_mem_filter hc)
  have hnodup' : (v.changes.map Change.seqNo).Nodup := by
    rw [(hperm.map Change.seqNo).nodup_iff, map_cons, nodup_cons]
    refine ⟨fun hmem => ?_, hnodup.sublist ((filter_sublist).map _)⟩
    obtain ⟨c, hc, heq⟩ := mem_map.mp hmem
    exact absurd heq (Nat.ne_of_lt (hkept c hc))
  refine ⟨hnodup', ?_⟩
  have hmerged : mergeTables v.catChanges v.cmdChanges =
      ((mergeTables u.catChanges u.cmdChanges).filter fun c => c.key ≠ key) ++
        [⟨key, sign, u.seq⟩] := by
    have hmu := mergeTables_perm u.catChanges u.cmdChanges
    have hmv := mergeTables_perm v.catChanges v.cmdChanges
    refine eq_of_perm_of_pairwise ?_ ?_ (mergeTables_pairwise _ _) ?_
    · exact (hmv.trans hperm).trans
        (((hmu.filter _).symm.cons _).trans (perm_append_singleton _ _).symm)
    · rwa [(hmv.map Change.seqNo).nodup_iff]
    · -- the new change has the greatest number
      refine pairwise_append.mpr ⟨(mergeTables_pairwise _ _).filter _, pairwise_singleton _ _, ?_⟩
      intro a ha b hb
      obtain rfl := mem_singleton.mp hb
      exact (hkept a ((hmu.filter _).mem_iff.mp ha)).le
  rw [history, hmerged, map_append, history, filter_map]
  rfl

/-- One change is the last one of the history. -/
theorem RightsOk.change (h : u.RightsOk fam) {key : ChangeKey} {sign : Sign}
    (hperm : v.changes.Perm (⟨key, sign, u.seq⟩ :: u.changes.filter fun c => c.key ≠ key))
    (hseq : v.seq = u.seq + 1) (hcommands : v.commands = applyChange fam u.commands (key, sign))
    (hknown : key.Known fam) (hpossible : key.Possible fam) : v.RightsOk fam := by
  obtain ⟨hnodup, hhistory⟩ := history_of_perm h.seq_lt h.nodup hperm
  have hchanges : ∀ {P : Change → Prop}, P ⟨key, sign, u.seq⟩ → (∀ c ∈ u.changes, P c) →
      ∀ c ∈ v.changes, P c := by
    intro P hnew hold c hc
    rcases mem_cons.mp (hperm.mem_iff.mp hc) with rfl | hmem
    · exact hnew
    · exact hold c (mem_of_mem_filter hmem)
  refine ⟨?_, hseq ▸ hchanges ?_ ?_, hnodup, hchanges hknown h.known, hchanges hpossible h.possible⟩
  · rw [hcommands, hhistory, (overwrites_applyChange fam).foldl_filter, ← h.commands_eq]
  · exact Nat.lt_succ_self _
  · exact fun c hc => Nat.lt_succ_of_lt (h.seq_lt c hc)

theorem listTables_insert_category (cat : UInt32) (sign : Sign) (n : ℕ) :
    (listTables (cats.insert cat ⟨sign, n⟩) cmds).Perm
      (⟨.category cat, sign, n⟩ :: (listTables cats cmds).filter fun c =>
        c.key ≠ .category cat) := by
  rw [listTables, entries_insert_perm, listTables, filter_append, filter_map, filter_map,
    map_cons, cons_append]
  refine List.Perm.cons _ (List.Perm.append (List.Perm.of_eq ?_) (List.Perm.of_eq ?_))
  · exact congrArg (map _) (filter_congr fun entry _ => by simp)
  · exact congrArg (map _) (filter_eq_self.mpr fun entry _ => by simp).symm

theorem listTables_insert_command (index : ℕ) (bit : UInt64) (sign : Sign) (n : ℕ) :
    (listTables cats (cmds.insert (index, bit) ⟨sign, n⟩)).Perm
      (⟨.command index bit, sign, n⟩ :: (listTables cats cmds).filter fun c =>
        c.key ≠ .command index bit) := by
  rw [listTables, entries_insert_perm, listTables, filter_append, filter_map, filter_map, map_cons]
  refine perm_middle.trans
    (List.Perm.cons _ (List.Perm.append (List.Perm.of_eq ?_) (List.Perm.of_eq ?_)))
  · exact congrArg (map _) (filter_eq_self.mpr fun entry _ => by simp).symm
  · exact congrArg (map _) (filter_congr fun entry _ => by simp [Prod.ext_iff])

theorem command_ne_sizeMax {c : CommandId} (hc : c ∈ fam.cmdRegistry.cmdMap)
    (halias : c.isAlias = false) :
    c.family ≠ sizeMax := by
  obtain ⟨pos, name, -, -, -, hname, -⟩ := fam.cmdRegistry.ok.listed c hc halias
  obtain ⟨names, hnames, -⟩ := Option.bind_eq_some_iff.mp hname
  obtain ⟨hlt, -⟩ := List.getElem?_eq_some_iff.mp hnames
  have hfew := fam.cmdRegistry.ok.few
  rw [sizeMax]
  omega

/-- **Rules.** A change of a known category or command keeps the masks and the history together. -/
theorem RightsOk.updateRule (h : u.RightsOk fam) {rule : RuleUpdate} (hknown : rule.key.Known fam)
    (hup : u.updateRule fam rule = some v) :
    v.RightsOk fam ∧ v.commands = applyChange fam u.commands (rule.key, rule.sign) := by
  cases rule with
  | category sign cat =>
    obtain ⟨commands, hcommands, rfl⟩ := Option.map_eq_some_iff.mp hup
    have heq := changeCategoryCommands_eq hcommands
    have hpossible : (ChangeKey.category cat).Possible fam := by
      rw [changeCategoryCommands] at hcommands
      split at hcommands
      · next hall => exact Or.inl hall
      · obtain ⟨group, hgroup, -⟩ := Option.map_eq_some_iff.mp hcommands
        exact Or.inr (Option.isSome_iff_exists.mpr ⟨group, hgroup⟩)
    exact ⟨h.change (listTables_insert_category u.catChanges u.cmdChanges cat sign u.seq)
      rfl heq hknown
      hpossible, heq⟩
  | command sign index bit =>
    obtain rfl := Option.some.inj hup
    obtain ⟨c, hc, halias, rfl, rfl⟩ := id hknown
    have heq : changeAclCommands sign c.family c.bitIndex u.commands =
        applyChange fam u.commands (.command c.family c.bitIndex, sign) :=
      changeAclCommands_eq_mapIdx (command_ne_sizeMax hc halias) sign c.bitIndex u.commands
    exact ⟨h.change
      (listTables_insert_command u.catChanges u.cmdChanges c.family c.bitIndex sign u.seq) rfl
      heq hknown trivial, heq⟩

end User

end Drakeydb.Acl
