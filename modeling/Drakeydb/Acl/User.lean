import Mathlib.Data.List.AList
import Drakeydb.Lib.Ascii

/-!
# Commands and users

The command registry as far as access control reads it (`command_registry.cc`), and the indexes that
`AclFamily::BuildIndexers` derives from it. A command is known by its family and a bit in the mask
of the family. Subcommands share the bit of the command before them, apart from those of `ACL`.

`User` of `acl/user.cc`. The hash tables of the rules a user was given are association lists; each
change of a category or command replaces the one before it and takes the next sequence number. An
update throws if a category has no command, which is an update without a result here.
-/

namespace Drakeydb.Acl

open Lib.Ascii List Option

/-! ## §1 The registry -/

/-- What access control reads of a `CommandId`. -/
structure CommandId where
  name : Bytes
  aclCategories : UInt32
  family : ℕ
  bitIndex : UInt64
  isAlias : Bool
deriving DecidableEq

/-- `cmd_map_` and `family_of_commands_`. -/
structure CommandTable where
  cmdMap : List CommandId
  familyOfCommands : List (List Bytes)

namespace CommandTable

section

variable (reg : CommandTable)

def find (name : Bytes) : Option CommandId :=
  reg.cmdMap.find? fun c => c.name = name

/-- The name that stands for a bit of a family. -/
def nameAt (family pos : ℕ) : Option Bytes :=
  reg.familyOfCommands[family]?.bind fun names => names[pos]?

/-- `1ULL << pos`. -/
def bit (pos : ℕ) : UInt64 := UInt64.ofNat (1 <<< pos)

def startFamily : CommandTable :=
  { reg with familyOfCommands := reg.familyOfCommands ++ [[]] }

/-- The family that was started last. -/
def lastFamily : List Bytes := reg.familyOfCommands.getLast?.getD []

/-- `operator<<`: a name may be registered once. The bit index is the number of names in the
family. -/
def add (name : Bytes) (cats : UInt32) : Option CommandTable :=
  if (reg.find name).isSome then none
  else
    let family := reg.familyOfCommands.length - 1
    if 32 ∉ name ∨ text "ACL" <+: name then
      some { cmdMap := reg.cmdMap ++ [⟨name, cats, family, bit reg.lastFamily.length, false⟩]
             familyOfCommands := reg.familyOfCommands.dropLast ++ [reg.lastFamily ++ [name]] }
    else
      -- the bit of the command before it
      some { reg with
        cmdMap := reg.cmdMap ++ [⟨name, cats, family, bit (reg.lastFamily.length - 1), false⟩] }

/-- An alias of `CommandRegistry::Init`. It does not replace a command, and has no bit of its
own. -/
def addAlias (name : Bytes) (cats : UInt32) : CommandTable :=
  if (reg.find name).isSome then reg
  else { reg with cmdMap := reg.cmdMap ++ [⟨name, cats, 0, 0, true⟩] }

/-- The bit of a command has a name, and the name is that of a command with this bit. -/
def Listed (c : CommandId) : Prop :=
  ∃ pos name c', pos < 64 ∧ c.bitIndex = bit pos ∧ reg.nameAt c.family pos = some name ∧
    reg.find name = some c' ∧ c'.isAlias = false ∧ c'.family = c.family ∧ c'.bitIndex = c.bitIndex

/-- Every command is listed, under a name in capitals that is not taken for one of a category. The
families can be counted. -/
structure Ok : Prop where
  listed : ∀ c ∈ reg.cmdMap, c.isAlias = false → reg.Listed c
  found : ∀ f pos name, reg.nameAt f pos = some name → pos < 64 ∧
    ∃ c, reg.find name = some c ∧ c.isAlias = false ∧ c.family = f ∧ c.bitIndex = bit pos
  upper : ∀ f pos name, reg.nameAt f pos = some name → asciiStrToUpper name = name ∧
    name.head? ≠ some 64
  few : reg.familyOfCommands.length < 4294967296

end

/-- What `StartFamily`, `operator<<` and the aliases of `Init` make of an empty registry. -/
inductive Built : CommandTable → Prop
  | empty : Built ⟨[], []⟩
  | startFamily {reg} : Built reg → reg.familyOfCommands.length + 1 < 4294967296 →
    Built reg.startFamily
  | add {reg reg' init names name cats} : Built reg → reg.familyOfCommands = init ++ [names] →
      names.length < 64 → asciiStrToUpper name = name ∧ name.head? ≠ some 64 →
      (32 ∈ name → ¬text "ACL" <+: name → names ≠ []) → reg.add name cats = some reg' → Built reg'
  | addAlias {reg} (name : Bytes) (cats : UInt32) : Built reg → Built (reg.addAlias name cats)

end CommandTable

/-- The registry of a server. -/
structure CommandRegistry extends CommandTable where
  ok : toCommandTable.Ok

namespace CommandTable

variable {reg reg' : CommandTable}

theorem ok_empty : (⟨[], []⟩ : CommandTable).Ok where
  listed _ hc := absurd hc not_mem_nil
  found _ _ _ hname := by cases hname
  upper _ _ _ hname := by cases hname
  few := by decide

variable {name : Bytes} {c : CommandId}

/-- What keeps a registry in order: names stay where they are and find what they found; a new
command is listed, and a new name finds one with its bit. -/
theorem Ok.extend (h : reg.Ok) (hfind : ∀ n d, reg.find n = some d → reg'.find n = some d)
    (hname : ∀ f pos n, reg.nameAt f pos = some n → reg'.nameAt f pos = some n)
    (hcmd : ∀ d ∈ reg'.cmdMap, d.isAlias = false → reg.Listed d ∨ reg'.Listed d)
    (hnew : ∀ f pos n, reg'.nameAt f pos = some n → reg.nameAt f pos = some n ∨
      (asciiStrToUpper n = n ∧ n.head? ≠ some 64) ∧ pos < 64 ∧
        ∃ d, reg'.find n = some d ∧ d.isAlias = false ∧ d.family = f ∧ d.bitIndex = bit pos)
    (hfew : reg'.familyOfCommands.length < 4294967296) : reg'.Ok where
  listed d hd halias := by
    rcases hcmd d hd halias with ⟨pos, n, c', hpos, hbit, hn, hf, hrest⟩ | hlisted
    · exact ⟨pos, n, c', hpos, hbit, hname _ _ _ hn, hfind _ _ hf, hrest⟩
    · exact hlisted
  found f pos n hn := by
    rcases hnew f pos n hn with hn | ⟨-, hfound⟩
    · obtain ⟨hpos, d, hf, hrest⟩ := h.found f pos n hn
      exact ⟨hpos, d, hfind _ _ hf, hrest⟩
    · exact hfound
  upper f pos n hn := (hnew f pos n hn).elim (h.upper f pos n) And.left
  few := hfew

theorem nameAt_concat (cmds : List CommandId) (init : List (List Bytes)) (names : List Bytes)
    (f pos : ℕ) :
    (CommandTable.mk cmds (init ++ [names])).nameAt f pos =
      if f = init.length then names[pos]? else init[f]?.bind fun names => names[pos]? := by
  grind [nameAt]

theorem Ok.startFamily (h : reg.Ok) (hfew : reg.familyOfCommands.length + 1 < 4294967296) :
    reg.startFamily.Ok := by
  have hname : ∀ f pos, reg.startFamily.nameAt f pos = reg.nameAt f pos := by
    grind [nameAt, CommandTable.startFamily]
  refine h.extend (fun _ _ hfind => hfind) (by simp [hname])
    (fun d hd halias => .inl (h.listed d hd halias))
    (by simp +contextual [hname]) ?_
  rwa [CommandTable.startFamily, length_append]

theorem find_append_of_some (families : List (List Bytes)) {c c' : CommandId}
    (h : reg.find name = some c') :
    (CommandTable.mk (reg.cmdMap ++ [c]) families).find name = some c' := by
  rw [find, find?_append, ← find, h, some_or]

theorem Ok.append (h : reg.Ok) (hlisted : c.isAlias = false → reg.Listed c) :
    ({ reg with cmdMap := reg.cmdMap ++ [c] } : CommandTable).Ok := by
  refine h.extend (fun _ _ => find_append_of_some _) (fun _ _ _ hn => hn)
    (fun d hd halias => .inl ?_)
    (fun _ _ _ hn => .inl hn) h.few
  rcases mem_append.mp hd with hd | hd
  · exact h.listed d hd halias
  · obtain rfl := mem_singleton.mp hd
    exact hlisted halias

theorem Ok.addAlias (h : reg.Ok) (name : Bytes) (cats : UInt32) : (reg.addAlias name cats).Ok := by
  rw [CommandTable.addAlias]
  split
  · exact h
  · exact h.append fun halias => by cases halias

variable {init : List (List Bytes)} {names : List Bytes}

/-- **Registration**: a command takes the next bit of the last family and is named there, or it is a
    subcommand and takes the bit of the last name. -/
theorem add_cases {cats : UInt32} (hfam : reg.familyOfCommands = init ++ [names])
    (hadd : reg.add name cats = some reg') :
    reg.find name = none ∧
      ((32 ∉ name ∨ text "ACL" <+: name) ∧
        reg' = ⟨reg.cmdMap ++ [⟨name, cats, init.length, bit names.length, false⟩],
          init ++ [names ++ [name]]⟩ ∨
      (32 ∈ name ∧ ¬text "ACL" <+: name) ∧
        reg' = ⟨reg.cmdMap ++ [⟨name, cats, init.length, bit (names.length - 1), false⟩],
          reg.familyOfCommands⟩) := by
  have hlast : reg.lastFamily = names := by simp [lastFamily, hfam]
  simp only [CommandTable.add, hlast, hfam, length_append, length_singleton, Nat.add_sub_cancel,
    dropLast_concat] at hadd
  split at hadd
  · cases hadd
  next hnone =>
  refine ⟨by simpa using hnone, ?_⟩
  split at hadd
  case isTrue hown => exact .inl ⟨hown, (some.inj hadd).symm⟩
  case isFalse hsub =>
    rw [not_or, not_not] at hsub
    exact .inr ⟨hsub, by rw [← some.inj hadd, hfam]⟩

/-- A command in capitals is added to a family that was started and has a bit left; a subcommand
comes after its command. -/
theorem Ok.add (h : reg.Ok) {cats : UInt32} (hfam : reg.familyOfCommands = init ++ [names])
    (hlen : names.length < 64) (hupper : asciiStrToUpper name = name ∧ name.head? ≠ some 64)
    (hparent : 32 ∈ name → ¬text "ACL" <+: name → names ≠ [])
    (hadd : reg.add name cats = some reg') :
    reg'.Ok := by
  obtain ⟨hnone, ⟨-, rfl⟩ | ⟨hsub, rfl⟩⟩ := add_cases hfam hadd
  all_goals
    obtain ⟨cmds, families⟩ := reg
    obtain rfl : families = init ++ [names] := hfam
  · have hself : (CommandTable.mk (cmds ++ [⟨name, cats, init.length, bit names.length, false⟩])
        (init ++ [names ++ [name]])).find name =
          some ⟨name, cats, init.length, bit names.length, false⟩ := by
      grind [find]
    refine h.extend (fun _ _ => find_append_of_some _) ?_ ?_ ?_ ?_
    · grind [nameAt_concat]
    · intro d hd halias
      rcases mem_append.mp hd with hd | hd
      · exact .inl (h.listed d hd halias)
      · obtain rfl := mem_singleton.mp hd
        exact .inr ⟨names.length, name, _, hlen, rfl, by simp [nameAt_concat], hself, rfl, rfl, rfl⟩
    · grind [nameAt_concat]
    · simpa using h.few
  · refine h.append fun _ => ?_
    -- the bit is that of the last name
    have hne := hparent hsub.1 hsub.2
    have hname : (CommandTable.mk cmds (init ++ [names])).nameAt init.length (names.length - 1) =
        some (names.getLast hne) := by
      rw [nameAt_concat, if_pos rfl, ← getLast?_eq_getElem?, getLast?_eq_some_getLast hne]
    obtain ⟨hlt, c, hfind, halias, hf, hb⟩ := h.found _ _ _ hname
    exact ⟨names.length - 1, _, c, hlt, rfl, hname, hfind, halias, hf, hb⟩

theorem Built.ok (h : Built reg) : reg.Ok := by
  induction h with
  | empty => exact ok_empty
  | startFamily _ hfew ih => exact ih.startFamily hfew
  | add _ hfam hlen hupper hparent hadd ih => exact ih.add hfam hlen hupper hparent hadd
  | addAlias name cats _ ih => exact ih.addAlias name cats

/-- A command after its family was started. -/
def memoryTable : CommandTable := ⟨[⟨text "MEMORY", 1, 0, 1, false⟩], [[text "MEMORY"]]⟩

theorem built_memoryTable : Built memoryTable :=
  @Built.add _ _ [] [] (text "MEMORY") 1 (.startFamily .empty (by decide)) rfl
    (by decide) (by decide)
    (by decide) rfl

end CommandTable

/-! ## §2 Categories -/

/-- `acl::ALL`. -/
def catAll : UInt32 := 4294967295

def catTable : List (Bytes × UInt32) :=
  [(text "KEYSPACE", 1), (text "READ", 2), (text "WRITE", 4), (text "SET", 8),
    (text "SORTEDSET", 16),
    (text "LIST", 32), (text "HASH", 64), (text "STRING", 128), (text "BITMAP", 256),
      (text "HYPERLOG", 512),
    (text "GEO", 1024), (text "STREAM", 2048), (text "PUBSUB", 4096), (text "ADMIN", 8192),
    (text "FAST", 16384), (text "SLOW", 32768), (text "BLOCKING", 65536),
      (text "DANGEROUS", 131072),
    (text "CONNECTION", 262144), (text "TRANSACTION", 524288), (text "SCRIPTING", 1048576),
    (text "CUCKOO_FILTER", 33554432), (text "TOPK", 67108864), (text "CMS", 134217728),
    (text "BLOOM", 268435456), (text "FT_SEARCH", 536870912), (text "SEARCH", 536870912),
    (text "THROTTLE", 1073741824), (text "JSON", 2147483648), (text "ALL", catAll)]

def reverseCatTable : List Bytes :=
  [text "KEYSPACE", text "READ", text "WRITE", text "SET", text "SORTEDSET", text "LIST",
    text "HASH",
    text "STRING", text "BITMAP", text "HYPERLOG", text "GEO", text "STREAM", text "PUBSUB",
      text "ADMIN",
    text "FAST", text "SLOW", text "BLOCKING", text "DANGEROUS", text "CONNECTION",
      text "TRANSACTION",
    text "SCRIPTING", text "_RESERVED", text "_RESERVED", text "_RESERVED", text "_RESERVED",
    text "CUCKOO_FILTER", text "TOPK", text "CMS", text "BLOOM", text "FT_SEARCH", text "THROTTLE",
      text "JSON"]

/-- The category of a name. -/
def findCategory (name : Bytes) : Option UInt32 :=
  (catTable.find? fun entry => entry.1 = name).map Prod.snd

/-- The category of a bit. -/
def catBit (i : ℕ) : UInt32 := UInt32.ofNat (1 <<< i)

/-- `CategoryToIdx().at`, which throws if there is no such category. -/
def categoryToIdx (cat : UInt32) : Option ℕ := (List.range 32).find? fun i => catBit i = cat

/-- `reverse_cat_table_[CategoryToIdx().at(cat)]`. -/
def categoryName (cat : UInt32) : Option Bytes :=
  (categoryToIdx cat).bind fun i => reverseCatTable[i]?

namespace CommandTable

/-- The commands of the category with this name. -/
def inCategory (reg : CommandTable) (name : Bytes) : List CommandId :=
  reg.cmdMap.filter fun c => !c.isAlias && (List.range 32).any fun i =>
    c.aclCategories &&& catBit i ≠ 0 && reverseCatTable[i]? = some name

/-- `CategoryToCommandsIndex().at`: the masks by family. It throws if the category has no
command. -/
def categoryToCommandsIndex (reg : CommandTable) (name : Bytes) : Option (List UInt64) :=
  let members := reg.inCategory name
  if members = [] then none
  else some ((List.range reg.familyOfCommands.length).map fun f =>
    (members.filter fun c => c.family = f).foldl (fun mask c => mask ||| c.bitIndex) 0)

end CommandTable

/-! ## §3 Data -/

/-- `std::numeric_limits<size_t>::max()`. -/
def sizeMax : ℕ := 18446744073709551615

def allCommands : UInt64 := 18446744073709551615

inductive Sign
  | plus
  | minus
deriving DecidableEq

inductive KeyOp
  | read
  | write
  | readWrite
deriving DecidableEq

structure UpdateKey where
  key : Bytes
  op : KeyOp
  allKeys : Bool
  resetKeys : Bool
deriving DecidableEq

structure UpdatePass where
  password : Bytes
  unset : Bool
  nopass : Bool
  resetPassword : Bool
  isHashed : Bool
deriving DecidableEq

structure UpdatePubSub where
  pattern : Bytes
  hasAsterisk : Bool
  allChannels : Bool
  resetChannels : Bool
deriving DecidableEq

/-- A rule for a category, or for the bit of a command. -/
inductive RuleUpdate
  | category (sign : Sign) (cat : UInt32)
  | command (sign : Sign) (index : ℕ) (bit : UInt64)
deriving DecidableEq

structure UpdateRequest where
  passwords : List UpdatePass := []
  isActive : Option Bool := none
  updates : List RuleUpdate := []
  keys : List UpdateKey := []
  resetAllKeys : Bool := false
  allowAllKeys : Bool := false
  pubSub : List UpdatePubSub := []
  resetChannels : Bool := false
  allChannels : Bool := false
  selectDb : Option ℕ := none
  ns : Bytes := []
deriving DecidableEq

structure ChangeMetadata where
  sign : Sign
  seqNo : ℕ
deriving DecidableEq

structure AclKeys where
  keyGlobs : List (Bytes × KeyOp) := []
  allKeys : Bool := false
deriving DecidableEq

structure AclPubSub where
  globs : List (Bytes × Bool) := []
  allChannels : Bool := false
deriving DecidableEq

abbrev CategoryChanges := AList fun _ : UInt32 => ChangeMetadata

/-- `CommandChanges`, by index and bit. -/
abbrev CommandChanges := AList fun _ : ℕ × UInt64 => ChangeMetadata

structure User where
  passwordHashes : List Bytes := []
  nopass : Bool := false
  aclCategories : UInt32 := 0
  commands : List UInt64
  catChanges : CategoryChanges := ∅
  cmdChanges : CommandChanges := ∅
  seq : ℕ := 0
  keys : AclKeys := {}
  pubSub : AclPubSub := {}
  isActive : Bool := false
  ns : Bytes := []
  db : ℕ := sizeMax

/-- The commands, the number of databases, the mode of the server and the hash function. -/
structure AclFamily where
  cmdRegistry : CommandRegistry
  dbnum : ℕ
  isClusterEnabled : Bool
  stringSHA256 : Bytes → Bytes

variable (fam : AclFamily)

def User.new : User := { commands := List.replicate fam.cmdRegistry.familyOfCommands.length 0 }

namespace User

/-! ## §4 Passwords -/

def setNopass (u : User) : User := { u with nopass := true, passwordHashes := [] }

/-- A hash that is not hexadecimal is logged and left out. -/
def setPasswordHash (password : Bytes) (isHashed : Bool) (u : User) : User :=
  let u := { u with nopass := false }
  if isHashed then
    match hexStringToBytes password with
    | some binary => { u with passwordHashes := u.passwordHashes.insert binary }
    | none => u
  else { u with passwordHashes := u.passwordHashes.insert (fam.stringSHA256 password) }

def unsetPassword (password : Bytes) (u : User) : User :=
  { u with passwordHashes := u.passwordHashes.filter fun hash => hash ≠ fam.stringSHA256 password }

def updatePassword (u : User) (pass : UpdatePass) : User :=
  if pass.nopass then u.setNopass
  else if pass.unset then u.unsetPassword fam pass.password
  else if pass.resetPassword then { u with passwordHashes := [] }
  else u.setPasswordHash fam pass.password pass.isHashed

def hasPassword (u : User) (password : Bytes) : Bool :=
  u.nopass || u.passwordHashes.contains (fam.stringSHA256 password)

/-! ## §5 Categories and commands -/

def setAclCommands (index : ℕ) (bit : UInt64) (commands : List UInt64) : List UInt64 :=
  if index = sizeMax then commands.map fun _ => allCommands
  else commands.modify index (· ||| bit)

def unsetAclCommands (index : ℕ) (bit : UInt64) (commands : List UInt64) : List UInt64 :=
  if index = sizeMax then commands.map fun _ => 0
  else (setAclCommands index bit commands).modify index (· ^^^ bit)

/-- `SetAclCommands` or `UnsetAclCommands`. -/
def changeAclCommands (sign : Sign) (index : ℕ) (bit : UInt64) (commands : List UInt64) :
    List UInt64 :=
  match sign with
  | .plus => setAclCommands index bit commands
  | .minus => unsetAclCommands index bit commands

/-- The loop over the families of a category. -/
def changeGroup (sign : Sign) (group : List UInt64) (commands : List UInt64) : List UInt64 :=
  group.zipIdx.foldl
    (fun commands entry => changeAclCommands sign entry.2 entry.1 commands) commands

/-- The masks of a category that is not `ALL`. -/
def categoryGroup (cat : UInt32) : Option (List UInt64) :=
  (categoryName cat).bind fam.cmdRegistry.categoryToCommandsIndex

/-- The command masks after a category was changed. -/
def changeCategoryCommands (sign : Sign) (cat : UInt32) (commands : List UInt64) :
    Option (List UInt64) :=
  if cat = catAll then some (changeAclCommands sign sizeMax 0 commands)
  else (categoryGroup fam cat).map fun group => changeGroup sign group commands

/-- `SetAclCategoriesAndIncrSeq` and `UnsetAclCategoriesAndIncrSeq`. -/
def changeAclCategoriesAndIncrSeq (sign : Sign) (cat : UInt32) (u : User) : Option User :=
  (changeCategoryCommands fam sign cat u.commands).map fun commands =>
    { u with
      aclCategories := match sign with
        | .plus => u.aclCategories ||| cat
        | .minus => u.aclCategories ^^^ cat
      commands := commands
      catChanges := u.catChanges.insert cat ⟨sign, u.seq⟩
      seq := u.seq + 1 }

/-- `SetAclCommandsAndIncrSeq` and `UnsetAclCommandsAndIncrSeq`. -/
def changeAclCommandsAndIncrSeq (sign : Sign) (index : ℕ) (bit : UInt64) (u : User) : User :=
  { u with
    commands := changeAclCommands sign index bit u.commands
    cmdChanges := u.cmdChanges.insert (index, bit) ⟨sign, u.seq⟩
    seq := u.seq + 1 }

def updateRule (u : User) : RuleUpdate → Option User
  | .category sign cat => u.changeAclCategoriesAndIncrSeq fam sign cat
  | .command sign index bit => some (u.changeAclCommandsAndIncrSeq sign index bit)

/-! ## §6 Keys and channels -/

def setKeyGlob (keys : AclKeys) (key : UpdateKey) : AclKeys :=
  if key.allKeys then ⟨[], true⟩
  else if key.resetKeys then ⟨[], false⟩
  else { keys with keyGlobs := keys.keyGlobs ++ [(key.key, key.op)] }

def setPubSubGlob (pubSub : AclPubSub) (pattern : UpdatePubSub) : AclPubSub :=
  if pattern.allChannels then ⟨[], true⟩
  else if pattern.resetChannels then ⟨[], false⟩
  else { pubSub with globs := pubSub.globs ++ [(pattern.pattern, pattern.hasAsterisk)] }

/-! ## §7 The update -/

/-- What is left of the update after the passwords and the rules. The database is set only if the
request has one; the namespace is set in any case. -/
def updateRest (req : UpdateRequest) (u : User) : User :=
  { u with
    keys := req.keys.foldl setKeyGlob u.keys
    pubSub := req.pubSub.foldl setPubSubGlob u.pubSub
    isActive := req.isActive.getD u.isActive
    db := req.selectDb.getD u.db
    ns := req.ns }

def update (req : UpdateRequest) (u : User) : Option User :=
  (req.updates.foldlM (updateRule fam) (req.passwords.foldl (updatePassword fam) u)).map
    (updateRest req)

end User

end Drakeydb.Acl
