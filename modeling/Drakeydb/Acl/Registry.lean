import Drakeydb.Acl.User

/-!
# ACL SETUSER and the registry of users

`AclFamily::ParseAclSetUser` and the functions that recognise one kind of argument each. An argument
belongs to the first of them that takes it; some are then refused because of the arguments before.
`UserRegistry` is changed by `AclFamily::SetUser` and `AclFamily::DelUser`. A command that is
refused changes nothing.
-/

namespace Drakeydb.Acl

open Lib.Ascii

/-! ## §1 The kinds of arguments -/

section

variable (command : Bytes)

/-- `MaybeParsePassword`. The first byte of an empty argument is not one of these. -/
def maybeParsePassword (hashed : Bool) : Option UpdatePass :=
  if command = text "nopass" then some ⟨[], false, true, false, false⟩
  else if command = text "resetpass" then some ⟨[], false, false, true, false⟩
  else if command.head? = some 62 ∨ (hashed ∧ command.head? = some 35) then
    some ⟨command.drop 1, false, false, false, false⟩
  else if command.head? = some 60 then some ⟨command.drop 1, true, false, false, false⟩
  else none

/-- The operation at the front of a key pattern, and what follows it. -/
def splitKeyOp : KeyOp × Bytes :=
  if text "%RW" <+: command then (.readWrite, command.drop 3)
  else if text "%R" <+: command then (.read, command.drop 2)
  else if text "%W" <+: command then (.write, command.drop 2)
  else (.readWrite, command)

def maybeParseAclKey : Option UpdateKey :=
  if equalsIgnoreCase command (text "ALLKEYS") ∨ command = text "~*" then
    some ⟨[], .read, true, false⟩
  else if equalsIgnoreCase command (text "RESETKEYS") then some ⟨[], .read, false, true⟩
  else
    let res := splitKeyOp command
    if text "~" <+: res.2 ∧ res.2.drop 1 ≠ [] then some ⟨res.2.drop 1, res.1, false, false⟩
    else none

def maybeParseAclPubSub : Option UpdatePubSub :=
  if equalsIgnoreCase command (text "ALLCHANNELS") ∨ command = text "&*" then
    some ⟨[], false, true, false⟩
  else if equalsIgnoreCase command (text "RESETCHANNELS") then some ⟨[], false, false, true⟩
  else if text "&" <+: command ∧ 2 ≤ command.length then
    some ⟨command.drop 1, (command.drop 1).contains 42, false, false⟩
  else none

def maybeParseAclDflySelect (dbnum : ℕ) : Option ℕ :=
  if text "$" <+: command then
    ((simpleAtoi (command.drop 1)).filter fun res => res < dbnum).or
      (if equalsIgnoreCase (command.drop 1) (text "ALL") then some sizeMax else none)
  else none

/-- `MaybeParseStatus`, of an argument in capitals. -/
def maybeParseStatus : Option Bool :=
  if command = text "ON" then some true
  else if command = text "OFF" then some false
  else none

/-- `MaybeParseAclCategory`, of an argument in capitals. -/
def maybeParseAclCategory : Option (Sign × UInt32) :=
  if equalsIgnoreCase command (text "ALLCOMMANDS") then some (.plus, catAll)
  else if equalsIgnoreCase command (text "NOCOMMANDS") then some (.minus, catAll)
  else if text "+@" <+: command then (findCategory (command.drop 2)).map fun cat => (.plus, cat)
  else if text "-@" <+: command then (findCategory (command.drop 2)).map fun cat => (.minus, cat)
  else none

/-- `MaybeParseNamespace`, of an argument in capitals. -/
def maybeParseNamespace : Option Bytes :=
  if text "NAMESPACE:" <+: command then some (command.drop 10) else none

end

/-- A command that is not an alias. -/
def CommandTable.findOwn (reg : CommandTable) (name : Bytes) : Option (ℕ × UInt64) :=
  ((reg.find name).filter fun c => !c.isAlias).map fun c => (c.family, c.bitIndex)

/-- `MaybeParseAclCommand`, of an argument in capitals. -/
def maybeParseAclCommand (reg : CommandTable) (command : Bytes) : Option (Sign × ℕ × UInt64) :=
  if text "+" <+: command then (reg.findOwn (command.drop 1)).map fun cmd => (.plus, cmd)
  else if text "-" <+: command then (reg.findOwn (command.drop 1)).map fun cmd => (.minus, cmd)
  else none

/-- What an argument asks for. -/
inductive Modifier
  | password (pass : UpdatePass)
  | key (key : UpdateKey)
  | pubSub (pattern : UpdatePubSub)
  | select (db : ℕ)
  | status (isActive : Bool)
  | category (sign : Sign) (cat : UInt32)
  | ns (ns : Bytes)
  | command (sign : Sign) (index : ℕ) (bit : UInt64)
deriving DecidableEq

variable (fam : AclFamily)

/-- The order in which the functions are tried. -/
def parseModifier (hashed : Bool) (arg : Bytes) : Option Modifier :=
  let command := asciiStrToUpper arg
  ((maybeParsePassword arg hashed).map fun pass =>
      Modifier.password { pass with isHashed := hashed && arg.head? == some 35 }).or <|
    ((maybeParseAclKey arg).map .key).or <|
    ((maybeParseAclPubSub arg).map .pubSub).or <|
    ((maybeParseAclDflySelect arg fam.dbnum).map .select).or <|
    ((maybeParseStatus command).map .status).or <|
    ((maybeParseAclCategory command).map fun res => .category res.1 res.2).or <|
    ((maybeParseNamespace command).map .ns).or <|
    ((maybeParseAclCommand fam.cmdRegistry.toCommandTable command).map fun res =>
      .command res.1 res.2.1 res.2.2)

/-! ## §2 The request -/

/-- The request so far, and whether a pattern is of no use. -/
structure ParseState where
  req : UpdateRequest
  hasAllKeys : Bool
  hasAllChannels : Bool
deriving DecidableEq

def keyPatternError (arg : Bytes) : Bytes :=
  text "Error in ACL SETUSER modifier '" ++ arg ++
    text ("': Adding a pattern after the * pattern (or the 'allkeys' flag) is not valid and " ++
      "does not have any effect. Try 'resetkeys' to start with an empty list of patterns")

def channelPatternError (arg : Bytes) : Bytes :=
  text "ERR Error in ACL SETUSER modifier '" ++ arg ++
    text ("': Adding a pattern after the * pattern (or the 'allchannels' flag) is not valid and " ++
      "does not have any effect. Try 'resetchannels' to start with an empty list of channels")

/-- Why an argument is refused. -/
def ParseState.refusal (arg : Bytes) (st : ParseState) : Modifier → Option Bytes
  | .key key =>
    if (st.hasAllKeys ∨ st.req.allowAllKeys) ∧ !key.allKeys ∧ !key.resetKeys then
      some (keyPatternError arg)
    else none
  | .pubSub pattern =>
    if (st.hasAllChannels ∨ st.req.allChannels) ∧ !pattern.allChannels ∧ !pattern.resetChannels then
      some (channelPatternError arg)
    else none
  | .select db =>
    if st.req.selectDb.isSome then some (text "ERR Error, select db $ was used twice")
    else if fam.isClusterEnabled ∧ db ≠ 0 ∧ db ≠ sizeMax then
      some (text "ERR Error, select db $ is not allowed in cluster mode")
    else none
  | .status _ =>
    if st.req.isActive.isSome then some (text "Multiple ON/OFF are not allowed") else none
  | _ => none

/-- The request after one more argument. -/
def ParseState.extend (st : ParseState) : Modifier → ParseState
  | .password pass => { st with req.passwords := st.req.passwords ++ [pass] }
  | .key key =>
    { st with
      req.allowAllKeys := key.allKeys
      req.resetAllKeys := key.resetKeys
      hasAllKeys := st.hasAllKeys && !key.resetKeys
      req.keys := st.req.keys ++ [key] }
  | .pubSub pattern =>
    { st with
      req.allChannels := pattern.allChannels
      req.resetChannels := pattern.resetChannels
      hasAllChannels := st.hasAllChannels && !pattern.resetChannels
      req.pubSub := st.req.pubSub ++ [pattern] }
  | .select db => { st with req.selectDb := some db }
  | .status isActive => { st with req.isActive := some isActive }
  | .category sign cat => { st with req.updates := st.req.updates ++ [.category sign cat] }
  | .ns ns => { st with req.ns := ns }
  | .command sign index bit =>
    { st with req.updates := st.req.updates ++ [.command sign index bit] }

def ParseState.accept (arg : Bytes) (st : ParseState) (modifier : Modifier) :
    Except Bytes ParseState :=
  match st.refusal fam arg modifier with
  | some message => .error message
  | none => .ok (st.extend modifier)

/-- One round of the loop. -/
def ParseState.step (hashed : Bool) (st : ParseState) (arg : Bytes) : Except Bytes ParseState :=
  match parseModifier fam hashed arg with
  | none => .error (text "Unrecognized parameter " ++ asciiStrToUpper arg)
  | some modifier => st.accept fam arg modifier

def parseAclSetUser (args : List Bytes) (hashed hasAllKeys hasAllChannels : Bool) :
    Except Bytes UpdateRequest :=
  (args.foldlM (ParseState.step fam hashed) ⟨{}, hasAllKeys, hasAllChannels⟩).map ParseState.req

variable {fam} {st st' : ParseState} {hashed : Bool}

/-- An argument that was taken has a meaning, which the request is extended by. -/
theorem ParseState.step_eq_ok {arg : Bytes} (h : st.step fam hashed arg = .ok st') :
    ∃ modifier, parseModifier fam hashed arg = some modifier ∧ st.refusal fam arg modifier = none ∧
      st' = st.extend modifier := by
  rw [step] at h
  split at h
  · cases h
  next modifier hparse =>
  rw [accept] at h
  split at h
  · cases h
  · next hnone => exact ⟨modifier, hparse, hnone, (Except.ok.inj h).symm⟩

variable {args : List Bytes}

/-- What every accepted argument of the list keeps holds at the end. -/
theorem ParseState.run_induction {motive : ParseState → Prop}
    (hstep : ∀ arg ∈ args, ∀ modifier, parseModifier fam hashed arg = some modifier →
      ∀ st, st.refusal fam arg modifier = none → motive st → motive (st.extend modifier))
    (hrun : args.foldlM (step fam hashed) st = .ok st') (hst : motive st) : motive st' := by
  induction args generalizing st with
  | nil =>
    obtain rfl := Except.ok.inj hrun
    exact hst
  | cons arg args ih =>
    rw [List.foldlM_cons] at hrun
    cases hone : st.step fam hashed arg with
    | error message =>
      rw [hone] at hrun
      cases hrun
    | ok mid =>
      rw [hone] at hrun
      obtain ⟨modifier, hparse, hnone, rfl⟩ := step_eq_ok hone
      exact ih (fun arg' harg => hstep arg' (List.mem_cons_of_mem _ harg)) hrun
        (hstep arg List.mem_cons_self modifier hparse st hnone hst)

theorem parseAclSetUser_eq_ok {hashed hasAllKeys hasAllChannels : Bool} {req : UpdateRequest}
    (h : parseAclSetUser fam args hashed hasAllKeys hasAllChannels = .ok req) :
    ∃ st, args.foldlM (ParseState.step fam hashed) ⟨{}, hasAllKeys, hasAllChannels⟩ = .ok st ∧
      st.req = req := by
  rw [parseAclSetUser] at h
  cases hrun : args.foldlM (ParseState.step fam hashed) ⟨{}, hasAllKeys, hasAllChannels⟩ with
  | error message =>
    rw [hrun] at h
    cases h
  | ok st =>
    rw [hrun] at h
    exact ⟨st, rfl, Except.ok.inj h⟩

/-- The users by name. -/
abbrev Registry := AList fun _ : Bytes => User

/-- Why a command has no effect: it is answered with an error, or a table has no such category. -/
inductive Failure
  | reply (message : Bytes)
  | outOfRange
deriving DecidableEq

structure UserCredentials where
  aclCategories : UInt32
  aclCommands : List UInt64
  keys : AclKeys
  pubSub : AclPubSub
  ns : Bytes
  db : ℕ

variable (fam : AclFamily)

/-- The request a new user starts with. -/
def noCommandsRequest : UpdateRequest := { updates := [.category .minus catAll] }

def defaultUserUpdateRequest : UpdateRequest where
  passwords := [⟨[], false, true, false, false⟩]
  isActive := some true
  updates := [.category .plus catAll]
  keys := [⟨text "~*", .readWrite, true, false⟩]
  pubSub := [⟨[], false, true, false⟩]

/-- `User::Update`, which may throw. -/
def User.tryUpdate (req : UpdateRequest) (u : User) : Except Failure User :=
  match u.update fam req with
  | some u => .ok u
  | none => .error .outOfRange

/-- An update of `registry[username]`, which is a new user if there is none. -/
def createUser (req : UpdateRequest) : Except Failure User :=
  (User.new fam).tryUpdate fam noCommandsRequest >>= User.tryUpdate fam req

namespace Registry

def setUser (reg : Registry) (username : Bytes) (args : List Bytes) : Except Failure Registry :=
  let hasAllKeys := ((reg.lookup username).map fun u => u.keys.allKeys).getD false
  match parseAclSetUser fam args false hasAllKeys false with
  | .error message => .error (.reply message)
  | .ok req =>
    (match reg.lookup username with
      | some u => u.tryUpdate fam req
      | none => createUser fam req).map fun u => reg.insert username u

/-- `DelUser`: the default user stays. -/
def delUser (reg : Registry) (usernames : List Bytes) : Registry :=
  usernames.foldl (fun reg username => if username = text "default" then reg
    else reg.erase username) reg

def getCredentials (reg : Registry) (username : Bytes) : Option UserCredentials :=
  (reg.lookup username).map fun u => ⟨u.aclCategories, u.commands, u.keys, u.pubSub, u.ns, u.db⟩

/-- The registry of a new server without a password. -/
def init : Except Failure Registry :=
  ((User.new fam).tryUpdate fam defaultUserUpdateRequest).map fun u =>
    (∅ : Registry).insert (text "default") u

/-- What accepted commands lead to. -/
inductive Reachable : Registry → Prop
  | init {reg : Registry} (h : init fam = .ok reg) : Reachable reg
  | setUser {reg reg' : Registry} {username : Bytes} {args : List Bytes} (hreg : Reachable reg)
      (h : reg.setUser fam username args = .ok reg') : Reachable reg'
  | delUser {reg : Registry} (usernames : List Bytes) (hreg : Reachable reg) :
      Reachable (reg.delUser usernames)

end Registry

end Drakeydb.Acl
