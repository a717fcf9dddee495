import Drakeydb.Acl.Reachable

/-!
# The words of a line

A line of the ACL file is the words it is made of, if no name or pattern has a blank or a line feed
in it, and each word is taken by the parser for what it was written for.
-/

namespace Drakeydb.Acl

open Lib Lib.Ascii List

variable {fam : AclFamily}

/-- A text without a blank and a line feed. -/
def Unbroken (word : Bytes) : Prop := 32 ∉ word ∧ 10 ∉ word

instance decidableUnbroken (word : Bytes) : Decidable (Unbroken word) :=
  inferInstanceAs (Decidable (32 ∉ word ∧ 10 ∉ word))

/-! ## §1 Words that are recognised -/

theorem parseModifier_hash (hash : Bytes) :
    parseModifier fam true (text "#" ++ bytesToHexString hash) =
      some (.password ⟨bytesToHexString hash, false, false, false, true⟩) := rfl

variable {glob : Bytes × KeyOp}

/-- A key pattern is read as it was written. -/
theorem parseModifier_keyGlob (hne : glob.1 ≠ []) (hstar : glob ≠ ([42], .readWrite)) :
    parseModifier fam true (keyGlobToString glob) = some (.key ⟨glob.1, glob.2, false, false⟩) := by
  obtain ⟨pattern, op⟩ := glob
  obtain ⟨c, rest, rfl⟩ := exists_cons_of_ne_nil hne
  cases op with
  | read => rfl
  | write => rfl
  | readWrite =>
    have hall : ¬(text "~" ++ c :: rest = text "~*") := fun heq => by
      have hrest : c :: rest = [42] := (cons.inj heq).2
      exact hstar (congrArg (·, KeyOp.readWrite) hrest)
    rw [keyGlobToString, parseModifier]
    have hpass : maybeParsePassword (text "~" ++ c :: rest) true = none := rfl
    have hkey : maybeParseAclKey (text "~" ++ c :: rest) =
      some ⟨c :: rest, .readWrite, false, false⟩ := by
      rw [maybeParseAclKey, if_neg]
      · rfl
      · rintro (hcase | heq)
        · cases hcase
        · exact hall heq
    rw [hpass, hkey]
    rfl

theorem parseModifier_channel {glob : Bytes × Bool} (h : ChannelGlobOk glob) :
    parseModifier fam true (text "&" ++ glob.1) =
      some (.pubSub ⟨glob.1, glob.2, false, false⟩) := by
  obtain ⟨pattern, asterisk⟩ := glob
  obtain ⟨hne, hstar, hasterisk⟩ := h
  obtain ⟨c, rest, rfl⟩ := exists_cons_of_ne_nil hne
  obtain rfl : asterisk = (c :: rest).contains 42 := hasterisk
  have hpass : maybeParsePassword (text "&" ++ c :: rest) true = none := rfl
  have hkey : maybeParseAclKey (text "&" ++ c :: rest) = none := rfl
  have hpub : maybeParseAclPubSub (text "&" ++ c :: rest) =
      some ⟨c :: rest, (c :: rest).contains 42, false, false⟩ := by
    rw [maybeParseAclPubSub, if_neg]
    · rfl
    · rintro (hcase | heq)
      · cases hcase
      · exact hstar (cons.inj heq).2
  rw [parseModifier, hpass, hkey, hpub]
  rfl

theorem parseModifier_db {db : ℕ} (h : DbOk fam db) :
    parseModifier fam true (text "$" ++ aclDbToString db) = some (.select db) := by
  have hpass : maybeParsePassword (text "$" ++ aclDbToString db) true = none := rfl
  have hkey : maybeParseAclKey (text "$" ++ aclDbToString db) = none := rfl
  have hpub : maybeParseAclPubSub (text "$" ++ aclDbToString db) = none := rfl
  have hselect : maybeParseAclDflySelect (text "$" ++ aclDbToString db) fam.dbnum = some db := by
    have hstart : text "$" <+: text "$" ++ aclDbToString db := prefix_append _ _
    have hdrop : (text "$" ++ aclDbToString db).drop 1 = aclDbToString db := rfl
    rw [maybeParseAclDflySelect, if_pos hstart, hdrop, aclDbToString]
    split
    case isTrue hall =>
      subst hall
      rfl
    case isFalse hnum =>
      obtain ⟨hlt, hword, -⟩ := h.resolve_left hnum
      rw [simpleAtoi_natToString hword, Option.filter_some_pos (by simpa using hlt), Option.some_or]
  rw [parseModifier, hpass, hkey, hpub, hselect]
  rfl

/-- The sign and the name of a category that is not `ALL`, in the order of the table. -/
theorem categories_recognised : ∀ entry ∈ catTable, ∀ sign ∈ [Sign.plus, Sign.minus],
    ∃ word ∈ aclCatToString entry.2 sign,
      word ≠ [] ∧ 32 ∉ word ∧ 10 ∉ word ∧ maybeParsePassword word true = none ∧
      maybeParseAclKey word = none ∧ maybeParseAclPubSub word = none ∧ ¬text "$" <+: word ∧
      maybeParseStatus (asciiStrToUpper word) = none ∧
      maybeParseAclCategory (asciiStrToUpper word) = some (sign, entry.2) := by
  decide +kernel

theorem exists_aclCatToString {cat : UInt32} (h : (ChangeKey.category cat).Known fam)
    (sign : Sign) :
    ∃ word, aclCatToString cat sign = some word ∧ word ≠ [] ∧ Unbroken word ∧
      parseModifier fam true word = some (.category sign cat) := by
  obtain ⟨name, hmem⟩ := h
  have hsign : sign ∈ [Sign.plus, Sign.minus] := by cases sign <;> decide
  obtain ⟨word, hword, hne, hblank, hfeed, hpass, hkey, hpub, hdollar, hstatus, hcat⟩ :=
    categories_recognised (name, cat) hmem sign hsign
  refine ⟨word, hword, hne, ⟨hblank, hfeed⟩, ?_⟩
  rw [parseModifier, hpass, hkey, hpub, maybeParseAclDflySelect, if_neg hdollar, hstatus, hcat]
  rfl

theorem toLower_cases (c : UInt8) : (toUpper c = c → toUpper (toLower c) = c) ∧
    (toLower c = 32 → c = 32) ∧ (toLower c = 10 → c = 10) := by
  have hall : ∀ n < 256, (toUpper (UInt8.ofNat n) = UInt8.ofNat n →
        toUpper (toLower (UInt8.ofNat n)) = UInt8.ofNat n) ∧
      (toLower (UInt8.ofNat n) = 32 → UInt8.ofNat n = 32) ∧
      (toLower (UInt8.ofNat n) = 10 → UInt8.ofNat n = 10) := by decide +kernel
  have hc := hall c.toNat c.toNat_lt
  rwa [UInt8.ofNat_toNat] at hc

variable {name : Bytes}

theorem asciiStrToUpper_asciiStrToLower (h : asciiStrToUpper name = name) :
    asciiStrToUpper (asciiStrToLower name) = name := by
  rw [asciiStrToUpper, asciiStrToLower, map_map]
  conv_rhs => rw [← map_id name]
  refine map_congr_left fun c hc => (toLower_cases c).1 ?_
  exact map_inj_left.mp (h.trans (map_id name).symm) c hc

theorem Unbroken.asciiStrToLower (h : Unbroken name) : Unbroken (asciiStrToLower name) := by
  refine ⟨fun hmem => ?_, fun hmem => ?_⟩ <;> obtain ⟨c, hc, heq⟩ := mem_map.mp hmem
  · exact h.1 ((toLower_cases c).2.1 heq ▸ hc)
  · exact h.2 ((toLower_cases c).2.2 heq ▸ hc)

theorem Unbroken.append {a b : Bytes} (ha : Unbroken a) (hb : Unbroken b) : Unbroken (a ++ b) :=
  ⟨by simp [ha.1, hb.1], by simp [ha.2, hb.2]⟩

theorem unbroken_sign (sign : Sign) : Unbroken sign.toBytes := by
  cases sign <;> exact ⟨by decide, by decide⟩

theorem maskLength_bit : ∀ pos < 64,
    maskLength 64 (CommandTable.bit pos) = pos + 1 ∧ CommandTable.bit pos ≠ allCommands := by
  decide +kernel

/-- The word of a command is read as that command. -/
theorem parseModifier_command {sign : Sign} {cmd : ℕ × UInt64}
    (hupper : asciiStrToUpper name = name)
    (hat : name.head? ≠ some 64) (hfind : fam.cmdRegistry.findOwn name = some cmd) :
    parseModifier fam true (sign.toBytes ++ asciiStrToLower name) =
      some (.command sign cmd.1 cmd.2) := by
  have hname := asciiStrToUpper_asciiStrToLower hupper
  have hcaps : asciiStrToUpper (sign.toBytes ++ asciiStrToLower name) = sign.toBytes ++ name := by
    cases sign <;> exact congrArg (cons _) hname
  have hnotCat : ∀ c : UInt8, ¬[c, 64] <+: c :: name := by
    rintro c ⟨rest, hrest⟩
    exact hat (by rw [← (cons.inj hrest).2]; rfl)
  rw [parseModifier, hcaps, maybeParseAclCommand, maybeParseAclCategory]
  cases sign with
  | plus =>
    have hcat : ¬text "+@" <+: Sign.plus.toBytes ++ name := hnotCat 43
    have hcmd : text "+" <+: Sign.plus.toBytes ++ name := prefix_append _ _
    rw [if_neg (by rintro ⟨⟩), if_neg (by rintro ⟨⟩), if_neg hcat, if_neg (by rintro ⟨rest, ⟨⟩⟩),
      if_pos hcmd, show drop 1 (Sign.plus.toBytes ++ name) = name from rfl, hfind]
    rfl
  | minus =>
    have hcat : ¬text "-@" <+: Sign.minus.toBytes ++ name := hnotCat 45
    have hcmd : text "-" <+: Sign.minus.toBytes ++ name := prefix_append _ _
    rw [if_neg (by rintro ⟨⟩), if_neg (by rintro ⟨⟩), if_neg (by rintro ⟨rest, ⟨⟩⟩), if_neg hcat,
      if_neg (by rintro ⟨rest, ⟨⟩⟩), if_pos hcmd, show drop 1 (Sign.minus.toBytes ++ name) =
        name from rfl, hfind]
    rfl

variable (fam) in
/-- The name of a command can be written. -/
def ChangeKey.Printable : ChangeKey → Prop
  | .category _ => True
  | .command index bit => ∀ pos name, bit = CommandTable.bit pos →
      fam.cmdRegistry.nameAt index pos = some name → Unbroken name

/-- The rule for a category or command. -/
def ChangeKey.rule (sign : Sign) : ChangeKey → RuleUpdate
  | .category cat => .category sign cat
  | .command index bit => .command sign index bit

def ChangeKey.modifier (sign : Sign) : ChangeKey → Modifier
  | .category cat => .category sign cat
  | .command index bit => .command sign index bit

/-- **Rules.** The word of a rule is taken for this rule. -/
theorem exists_changeToString {key : ChangeKey} (hknown : key.Known fam)
    (hprint : key.Printable fam) (sign : Sign) :
    ∃ word, changeToString fam key sign = some word ∧ word ≠ [] ∧ Unbroken word ∧
      parseModifier fam true word = some (key.modifier sign) := by
  cases key with
  | category cat => exact exists_aclCatToString hknown sign
  | command index bit =>
    obtain ⟨c, hc, halias, rfl, rfl⟩ := hknown
    obtain ⟨pos, name, c', hpos, hbit, hname, hfind, halias', hfamily, hbit'⟩ :=
      fam.cmdRegistry.ok.listed c hc halias
    obtain ⟨hupper, hat⟩ := fam.cmdRegistry.ok.upper _ _ _ hname
    obtain ⟨hlength, hnotAll⟩ := maskLength_bit pos hpos
    have hown : fam.cmdRegistry.findOwn name = some (c.family, c.bitIndex) := by
      rw [CommandTable.findOwn, hfind, Option.filter_some_pos (by rw [halias']; rfl),
        Option.map_some, hfamily, hbit']
    refine ⟨sign.toBytes ++ asciiStrToLower name, ?_, ?_, ?_, parseModifier_command hupper hat hown⟩
    · rw [changeToString, aclCommandToString, hbit, if_neg hnotAll, hlength,
        Nat.add_sub_cancel, hname, Option.map_some]
    · cases sign <;> exact cons_ne_nil _ _
    · exact (unbroken_sign sign).append (hprint pos name hbit hname).asciiStrToLower

/-! ## §2 The words of a line -/

namespace User

variable (fam) in
/-- The line of a user can be read: it is in no namespace, its patterns are unbroken, none is taken
for that of all keys, and so are the names of the commands that were changed. -/
structure Printable (u : User) : Prop where
  ns : u.ns = []
  keys : u.keys.allKeys = false → ∀ glob ∈ u.keys.keyGlobs, Unbroken glob.1 ∧
    glob ≠ ([42], .readWrite)
  channels : u.pubSub.allChannels = false → ∀ glob ∈ u.pubSub.globs, Unbroken glob.1
  rules : ∀ change ∈ u.changes, change.key.Printable fam

def statusWord (u : User) : Bytes := if u.isActive then text "ON" else text "OFF"

def passwordWords (u : User) : List Bytes :=
  if u.nopass then [text "nopass"]
    else u.passwordHashes.map fun hash => text "#" ++ bytesToHexString hash

def keyWords (u : User) : List Bytes :=
  if u.keys.allKeys then [text "~*"] else u.keys.keyGlobs.map keyGlobToString

def channelWords (u : User) : List Bytes :=
  if u.pubSub.allChannels then [text "&*"]
  else text "resetchannels" :: u.pubSub.globs.map fun glob => text "&" ++ glob.1

def dbWord (u : User) : Bytes := text "$" ++ aclDbToString u.db

/-- A word of a line. -/
def IsToken (word : Bytes) : Prop := word ≠ [] ∧ Unbroken word

theorem isToken_statusWord (u : User) : IsToken u.statusWord := by
  rw [statusWord]
  split <;> exact ⟨by decide, by decide, by decide⟩

theorem IsToken.cons {c : UInt8} {word : Bytes} (h : Unbroken word) (hc : c ≠ 32 ∧ c ≠ 10) :
    IsToken (c :: word) :=
  ⟨cons_ne_nil _ _, by simp [h.1, hc.1.symm], by simp [h.2, hc.2.symm]⟩

theorem isToken_passwordWords (u : User) : ∀ word ∈ u.passwordWords, IsToken word := by
  rw [passwordWords]
  split
  · exact forall_mem_singleton.mpr ⟨by decide, by decide, by decide⟩
  · intro word hword
    obtain ⟨hash, -, rfl⟩ := mem_map.mp hword
    refine IsToken.cons ⟨fun hmem => ?_, fun hmem => ?_⟩ (by decide)
    · exact (ne_of_mem_bytesToHexString hmem).1 rfl
    · exact (ne_of_mem_bytesToHexString hmem).2 rfl

theorem isToken_keyGlobToString (h : Unbroken glob.1) : IsToken (keyGlobToString glob) := by
  obtain ⟨pattern, op⟩ := glob
  have htilde : IsToken (126 :: pattern) := IsToken.cons h (by decide)
  cases op with
  | readWrite => exact htilde
  | read | write => exact IsToken.cons (IsToken.cons htilde.2 (by decide)).2 (by decide)

variable {u : User}

theorem Printable.isToken_keyWords (h : u.Printable fam) : ∀ word ∈ u.keyWords, IsToken word := by
  rw [keyWords]
  split
  · exact forall_mem_singleton.mpr ⟨by decide, by decide, by decide⟩
  · next hall =>
    intro word hword
    obtain ⟨glob, hglob, rfl⟩ := mem_map.mp hword
    exact isToken_keyGlobToString (h.keys (Bool.not_eq_true _ ▸ hall) glob hglob).1

theorem Printable.isToken_channelWords (h : u.Printable fam) :
    ∀ word ∈ u.channelWords, IsToken word := by
  rw [channelWords]
  split
  · exact forall_mem_singleton.mpr ⟨by decide, by decide, by decide⟩
  · next hall =>
    intro word hword
    rcases mem_cons.mp hword with rfl | hword
    · exact ⟨by decide, by decide, by decide⟩
    · obtain ⟨glob, hglob, rfl⟩ := mem_map.mp hword
      exact IsToken.cons (h.channels (Bool.not_eq_true _ ▸ hall) glob hglob) (by decide)

theorem isToken_dbWord (u : User) : IsToken u.dbWord := by
  refine IsToken.cons ?_ (by decide)
  rw [aclDbToString]
  split
  · exact ⟨by decide, by decide⟩
  · refine ⟨fun hmem => ?_, fun hmem => ?_⟩ <;>
      obtain ⟨d, hd, heq⟩ := exists_of_mem_natToString hmem
    · exact (decimalDigit_cases d hd).2.2.2.1 heq.symm
    · exact (decimalDigit_cases d hd).2.2.2.2 heq.symm

theorem exists_ruleWords {changes : List Change} (hknown : ∀ change ∈ changes, change.key.Known fam)
    (hprint : ∀ change ∈ changes, change.key.Printable fam) :
    ∃ rules, (changes.mapM fun change => changeToString fam change.key change.sign) = some rules ∧
      (∀ word ∈ rules, IsToken word) ∧
      List.Forall₂
        (fun word change => parseModifier fam true word = some (change.key.modifier change.sign))
        rules changes := by
  induction changes with
  | nil => exact ⟨[], rfl, forall_mem_nil _, .nil⟩
  | cons change changes ih =>
    obtain ⟨word, hword, hne, hunbroken, hparse⟩ := exists_changeToString
      (hknown change mem_cons_self) (hprint change mem_cons_self) change.sign
    obtain ⟨rules, hrules, htokens, hall⟩ := ih (fun c hc => hknown c (mem_cons_of_mem _ hc))
      fun c hc => hprint c (mem_cons_of_mem _ hc)
    refine ⟨word :: rules, ?_, ?_, .cons hparse hall⟩
    · rw [mapM_cons, hword, hrules]
      rfl
    · exact forall_mem_cons.mpr ⟨⟨hne, hunbroken⟩, htokens⟩

theorem IsToken.isWord {word : Bytes} (h : IsToken word) : IsWord 32 word := ⟨h.1, h.2.1⟩

theorem words_keys (h : u.Printable fam) (t : Bytes) :
    words 32 (aclKeysToString u.keys ++ (if aclKeysToString u.keys = [] then []
      else text " ") ++ t) = u.keyWords ++ words 32 t := by
  have hwords : ∀ word ∈ u.keyWords, IsWord 32 word :=
    fun word hword => (h.isToken_keyWords word hword).isWord
  have hstring : aclKeysToString u.keys = (terminated 32 u.keyWords).dropLast := by
    rw [aclKeysToString, keyWords]
    split
    · rfl
    · rw [terminated, flatMap_map]
      rfl
  by_cases hnil : u.keyWords = []
  · rw [hstring, hnil]
    rfl
  · have hne : (terminated 32 u.keyWords).dropLast ≠ [] := by
      intro hdrop
      obtain ⟨first, rest, hcons⟩ := exists_cons_of_ne_nil hnil
      obtain ⟨c, tail, hfirst⟩ :=
        exists_cons_of_ne_nil (hwords first (by rw [hcons]; exact mem_cons_self)).1
      rw [hcons, terminated_cons, hfirst] at hdrop
      have hlen := congrArg length hdrop
      simp at hlen
    have hspace : text " " = [32] := rfl
    rw [hstring, if_neg hne, hspace, dropLast_terminated_append hnil,
      words_terminated_append hwords]

theorem passwordsToString_eq (u : User) :
    passwordsToString u.passwordHashes u.nopass true = terminated 32 u.passwordWords := by
  rw [passwordsToString, passwordWords]
  split
  · rfl
  · rw [terminated, flatMap_map]
    rfl

theorem aclPubSubToString_eq (u : User) :
    aclPubSubToString u.pubSub = (terminated 32 u.channelWords).dropLast := by
  rw [aclPubSubToString, channelWords]
  split
  · rfl
  · rw [terminated_cons, terminated, flatMap_map]
    rfl

/-- **Words.** The line of a user is split into its words. -/
theorem words_userToString (h : u.Printable fam)
    (hknown : ∀ change ∈ u.changes, change.key.Known fam)
    {username : Bytes} (hname : IsToken username) :
    ∃ line rules, userToString fam username u = some line ∧
      words 32 line = text "USER" :: username :: u.statusWord ::
        (u.passwordWords ++ u.keyWords ++ u.channelWords ++ rules ++ [u.dbWord]) ∧
      (∀ word ∈ rules, IsToken word) ∧
      List.Forall₂
        (fun word op => parseModifier fam true word = some (ChangeKey.modifier op.2 op.1))
        rules u.history := by
  have hmem : ∀ change ∈ mergeTables u.catChanges u.cmdChanges, change ∈ u.changes :=
    fun change hchange => (mergeTables_perm _ _).mem_iff.mp hchange
  obtain ⟨rules, hrules, htokens, hparse⟩ := exists_ruleWords (fun c hc => hknown c (hmem c hc))
    fun c hc => h.rules c (hmem c hc)
  have hstatus : (if u.isActive then text "ON " else text "OFF ") = u.statusWord ++ [32] := by
    rw [statusWord]
    split <;> rfl
  have hline : userToString fam username u =
    some (text "USER" ++ 32 :: (username ++ 32 :: (u.statusWord ++
      32 :: (terminated 32 u.passwordWords ++ (aclKeysToString u.keys ++
        (if aclKeysToString u.keys = [] then [] else text " ") ++
        ((terminated 32 u.channelWords).dropLast ++
          32 :: ((terminated 32 rules).dropLast ++ 32 :: u.dbWord))))))) := by
    rw [userToString, aclCatAndCommandToString, hrules, hstatus, passwordsToString_eq,
      aclPubSubToString_eq]
    simp only [Option.map_some, append_assoc]
    rfl
  refine ⟨_, rules, hline, ?_, htokens, ?_⟩
  · have huser : IsWord 32 (text "USER") := ⟨by decide, by decide⟩
    rw [huser.words_append, hname.isWord.words_append, (isToken_statusWord u).isWord.words_append,
      words_terminated_append fun word hword => (isToken_passwordWords u word hword).isWord,
        words_keys h,
      words_dropLast_terminated_append fun word hword => (h.isToken_channelWords word hword).isWord,
      words_dropLast_terminated_append fun word hword => (htokens word hword).isWord,
      (isToken_dbWord u).isWord.words_eq]
    simp
  · exact forall₂_map_right_iff.mpr hparse

end User

end Drakeydb.Acl
