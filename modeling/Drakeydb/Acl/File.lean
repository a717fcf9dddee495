import Drakeydb.Lib.Words
import Drakeydb.Acl.Rights

/-!
# The ACL file

The text that `AclFamily::RegistryToString` writes, a line for each user, and
`LoadToRegistryFromFile`, which splits it at line feeds and blanks and hands the words to the parser
of `ACL SETUSER`. Names and patterns are written as they are. A category or command that is not in
the tables is an exception.
-/

namespace Drakeydb.Acl

open Lib Lib.Ascii

/-! ## §1 The writer -/

def prettyPrintSha (pass : Bytes) (all : Bool) : Bytes :=
  if all then bytesToHexString pass else (bytesToHexString (pass.take 15)).take 15

def passwordsToString (passwords : List Bytes) (nopass fullSha : Bool) : Bytes :=
  if nopass then text "nopass "
  else passwords.flatMap fun pass => text "#" ++ prettyPrintSha pass fullSha ++ text " "

/-- A key pattern with its operation. -/
def keyGlobToString : Bytes × KeyOp → Bytes
  | (pattern, .readWrite) => text "~" ++ pattern
  | (pattern, .read) => text "%R~" ++ pattern
  | (pattern, .write) => text "%W~" ++ pattern

def aclKeysToString (keys : AclKeys) : Bytes :=
  if keys.allKeys then text "~*"
  else (keys.keyGlobs.flatMap fun glob => keyGlobToString glob ++ text " ").dropLast

def aclPubSubToString (pubSub : AclPubSub) : Bytes :=
  if pubSub.allChannels then text "&*"
  else (text "resetchannels " ++ pubSub.globs.flatMap fun glob =>
    text "&" ++ glob.1 ++ text " ").dropLast

def aclDbToString (db : ℕ) : Bytes := if db = sizeMax then text "all" else natToString db

/-- The sign of a rule. -/
def Sign.toBytes : Sign → Bytes
  | .plus => text "+"
  | .minus => text "-"

def aclCatToString (cat : UInt32) (sign : Sign) : Option Bytes :=
  if cat = catAll then some (sign.toBytes ++ text "@all")
  else (categoryName cat).map fun name => sign.toBytes ++ text "@" ++ asciiStrToLower name

/-- The loop that looks for the position of the highest bit. -/
def maskLength : ℕ → UInt64 → ℕ
  | 0, _ => 0
  | rounds + 1, mask => if mask = 0 then 0 else maskLength rounds (mask >>> 1) + 1

def aclCommandToString (reg : CommandTable) (family : ℕ) (mask : UInt64) (sign : Sign) :
    Option Bytes :=
  if mask = allCommands then
    reg.familyOfCommands[family]?.map fun names =>
      (names.flatMap fun name => sign.toBytes ++ asciiStrToLower name ++ text " ").dropLast
  else (reg.nameAt family (maskLength 64 mask - 1)).map fun name =>
    sign.toBytes ++ asciiStrToLower name

variable (fam : AclFamily)

def changeToString (key : ChangeKey) (sign : Sign) : Option Bytes :=
  match key with
  | .category cat => aclCatToString cat sign
  | .command index bit => aclCommandToString fam.cmdRegistry.toCommandTable index bit sign

def aclCatAndCommandToString (cats : CategoryChanges) (cmds : CommandChanges) : Option Bytes :=
  ((mergeTables cats cmds).mapM fun change => changeToString fam change.key change.sign).map
    fun rules =>
    (rules.flatMap fun rule => rule ++ text " ").dropLast

/-- The line of a user, without the line feed. -/
def userToString (username : Bytes) (u : User) : Option Bytes :=
  let aclKeys := aclKeysToString u.keys
  let maybeSpace := if aclKeys = [] then [] else text " "
  (aclCatAndCommandToString fam u.catChanges u.cmdChanges).map fun rules =>
    text "USER " ++ username ++ text " " ++ (if u.isActive then text "ON " else text "OFF ") ++
      passwordsToString u.passwordHashes u.nopass true ++ aclKeys ++ maybeSpace ++
      aclPubSubToString u.pubSub ++ text " " ++ rules ++ text " $" ++ aclDbToString u.db

/-- `RegistryToString`, in the order in which the users are visited. -/
def registryToString (users : List (Bytes × User)) : Option Bytes :=
  (users.mapM fun entry => userToString fam entry.1 entry.2).map (terminated 10)

/-! ## §2 The reader -/

/-- A line of the file: `USER`, a name, and at least two more words. -/
def materializeLine (command : Bytes) : Option (Bytes × List Bytes) :=
  match words 32 command with
  | user :: username :: args =>
    if equalsIgnoreCase user (text "USER") ∧ 2 ≤ args.length then some (username, args) else none
  | _ => none

def materializeFileContents (contents : Bytes) : Option (List (Bytes × List Bytes)) :=
  ((contents.splitOn 10).filter fun line => line ≠ []).mapM materializeLine

/-- The request of a line. -/
def parseLine (line : Bytes × List Bytes) : Except Failure (Bytes × UpdateRequest) :=
  match parseAclSetUser fam line.2 true false false with
  | .ok req => .ok (line.1, req)
  | .error message => .error (.reply message)

/-- One user of the file. -/
def loadUser (reg : Registry) (entry : Bytes × UpdateRequest) : Except Failure Registry :=
  (((reg.lookup entry.1).getD (User.new fam)).tryUpdate fam noCommandsRequest >>=
    User.tryUpdate fam entry.2).map fun u => reg.insert entry.1 u

/-- A default user is added if the file has none. -/
def addDefaultUser (reg : Registry) : Except Failure Registry :=
  if (reg.lookup (text "default")).isSome then .ok reg
  else ((User.new fam).tryUpdate fam defaultUserUpdateRequest).map fun u =>
    reg.insert (text "default") u

/-- `LoadToRegistryFromFile`, of the text of the file. The users before it are gone. -/
def loadToRegistry (contents : Bytes) : Except Failure Registry :=
  if contents = [] then .error (.reply (text "Empty file"))
  else
    match materializeFileContents contents with
    | none => .error (.reply (text "Error materializing acl file"))
    | some lines =>
      lines.mapM (parseLine fam) >>= fun users => users.foldlM (loadUser fam) ∅ >>=
      addDefaultUser fam

end Drakeydb.Acl
