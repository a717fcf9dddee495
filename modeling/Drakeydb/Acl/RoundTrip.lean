import Drakeydb.Acl.Tokens

/-!
# Saving and loading users

The text of a registry is loaded into a registry with the same users, and each of them has the
rights it had. This needs names and patterns that can be told apart in the text, and users that are
in no namespace, which is not written at all. The users and the passwords and rules of each are
visited in whatever order the hash tables have.
-/

namespace Drakeydb.Acl

open Lib Lib.Ascii List ParseState

variable (fam : AclFamily)

/-! ## §1 Rights -/

/-- The loop over the key patterns of `IsUserAllowedToInvokeCommandGeneric`. -/
def AclKeys.allows (globMatches : Bytes → Bytes → Bool) (isRead isWrite : Bool) (keys : AclKeys)
    (key : Bytes) : Bool :=
  keys.allKeys || keys.keyGlobs.any fun glob => globMatches glob.1 key &&
    (isRead && (glob.2 == .read || glob.2 == .readWrite) || isWrite &&
      (glob.2 == .write || glob.2 == .readWrite))

/-- The loop over the channel patterns of `IsPubSubCommandAuthorized`. -/
def AclPubSub.allows (globMatches : Bytes → Bytes → Bool) (literalMatch : Bool) (pubSub : AclPubSub)
    (channel : Bytes) : Bool :=
  pubSub.allChannels || pubSub.globs.any fun glob =>
    if literalMatch then glob.1 = channel else globMatches glob.1 channel

/-- Two users have the same rights, whatever the matcher of patterns is. -/
structure SameRights (u v : User) : Prop where
  commands : v.commands = u.commands
  keys : ∀ globMatches isRead isWrite key,
    v.keys.allows globMatches isRead isWrite key = u.keys.allows globMatches isRead isWrite key
  channels : ∀ globMatches literalMatch channel,
    v.pubSub.allows globMatches literalMatch channel =
      u.pubSub.allows globMatches literalMatch channel
  db : v.db = u.db
  ns : v.ns = u.ns
  passwords : ∀ password, v.hasPassword fam password = u.hasPassword fam password
  isActive : v.isActive = u.isActive

variable {fam} {u : User}

theorem SameRights.trans {v w : User} (huv : SameRights fam u v) (hvw : SameRights fam v w) :
    SameRights fam u w where
  commands := hvw.commands.trans huv.commands
  keys m r w key := (hvw.keys m r w key).trans (huv.keys m r w key)
  channels m l channel := (hvw.channels m l channel).trans (huv.channels m l channel)
  db := hvw.db.trans huv.db
  ns := hvw.ns.trans huv.ns
  passwords password := (hvw.passwords password).trans (huv.passwords password)
  isActive := hvw.isActive.trans huv.isActive

/-! ## §2 The request of a line -/

variable (fam) in
/-- The parser takes the words and goes on. -/
def Takes (st : ParseState) (words : List Bytes) (st' : ParseState) : Prop :=
  words.foldlM (ParseState.step fam true) st = .ok st'

variable {st : ParseState}

theorem Takes.append {st' st'' : ParseState} {xs ys : List Bytes} (hx : Takes fam st xs st')
    (hy : Takes fam st' ys st'') : Takes fam st (xs ++ ys) st'' := by
  rw [Takes, foldlM_append, hx]
  exact hy

theorem takes_nil (st : ParseState) : Takes fam st [] st := rfl

theorem takes_singleton {word : Bytes} {modifier : Modifier}
    (hparse : parseModifier fam true word = some modifier)
    (hnone : st.refusal fam word modifier = none) :
    Takes fam st [word] (st.extend modifier) := by
  rw [Takes, foldlM_cons, step, hparse]
  dsimp only
  rw [accept, hnone]
  rfl

variable (fam) in
/-- The words ask for these modifiers. -/
abbrev Parses (words : List Bytes) (modifiers : List Modifier) : Prop :=
  List.Forall₂ (fun word modifier => parseModifier fam true word = some modifier) words modifiers

theorem parses_map {α β : Type} {xs : List α} {f : α → Bytes} {g : α → β} {k : β → Modifier}
    (h : ∀ x ∈ xs, parseModifier fam true (f x) = some (k (g x))) : Parses fam (xs.map f)
    ((xs.map g).map k) := by
  rwa [Parses, map_map, forall₂_map_left_iff, forall₂_map_right_iff, forall₂_same]

variable {words : List Bytes} {mods : List Modifier}

/-- Words that are accepted in states of a certain kind, and lead to such states. -/
theorem takes_forall₂ {motive : ParseState → Prop} (hparse : Parses fam words mods)
    (hstep : ∀ modifier ∈ mods, ∀ (st : ParseState) (word : Bytes), motive st →
      st.refusal fam word modifier = none ∧ motive (st.extend modifier)) (hst : motive st) :
    Takes fam st words (mods.foldl extend st) := by
  induction hparse generalizing st with
  | nil => exact takes_nil st
  | @cons word modifier words mods hone _ ih =>
    obtain ⟨hnone, hnext⟩ := hstep modifier mem_cons_self st word hst
    exact (takes_singleton hone hnone).append
      (ih (fun m hm => hstep m (mem_cons_of_mem _ hm)) hnext)

variable {β : Type} (field : ParseState → β)

theorem foldl_extend_keep
    (h : ∀ modifier ∈ mods, ∀ st : ParseState, field (st.extend modifier) = field st)
    (st : ParseState) : field (mods.foldl extend st) = field st := by
  induction mods generalizing st with
  | nil => rfl
  | cons modifier mods ih =>
    rw [foldl_cons, ih fun m hm => h m (mem_cons_of_mem _ hm), h modifier mem_cons_self]

theorem foldl_extend_map {α : Type} {modifier : α → Modifier}
    (h : ∀ (x : α) (st : ParseState), field (st.extend (modifier x)) = field st) (xs : List α)
    (st : ParseState) : field ((xs.map modifier).foldl extend st) = field st :=
  foldl_extend_keep field (fun m hm st => by
    obtain ⟨x, -, rfl⟩ := mem_map.mp hm
    exact h x st) st

theorem foldl_extend_append (field : ParseState → List β) (pick : Modifier → List β)
    (h : ∀ modifier (st : ParseState), field (st.extend modifier) = field st ++ pick modifier)
    (modifiers : List Modifier) (st : ParseState) :
    field (modifiers.foldl extend st) = field st ++ modifiers.flatMap pick := by
  induction modifiers generalizing st with
  | nil => simp
  | cons modifier modifiers ih => simp [ih, h]

namespace User

/-- What the words of the passwords ask for. -/
def passwordUpdates (u : User) : List UpdatePass :=
  if u.nopass then [⟨[], false, true, false, false⟩]
  else u.passwordHashes.map fun hash => ⟨bytesToHexString hash, false, false, false, true⟩

def keyUpdates (u : User) : List UpdateKey :=
  if u.keys.allKeys then [⟨[], .read, true, false⟩]
  else u.keys.keyGlobs.map fun glob => ⟨glob.1, glob.2, false, false⟩

def channelUpdates (u : User) : List UpdatePubSub :=
  if u.pubSub.allChannels then [⟨[], false, true, false⟩]
  else ⟨[], false, false, true⟩ :: u.pubSub.globs.map fun glob => ⟨glob.1, glob.2, false, false⟩

def ruleModifiers (u : User) : List Modifier := u.history.map fun op => op.1.modifier op.2

theorem parses_passwordWords (fam : AclFamily) (u : User) :
    Parses fam u.passwordWords (u.passwordUpdates.map .password) := by
  rw [passwordWords, passwordUpdates]
  split
  · exact .cons rfl .nil
  · exact parses_map fun hash _ => parseModifier_hash hash

theorem parses_keyWords {u : User} (hprint : u.Printable fam) (hok : u.Ok fam) :
    Parses fam u.keyWords (u.keyUpdates.map .key) := by
  rw [keyWords, keyUpdates]
  split
  · exact .cons rfl .nil
  · next hall =>
    exact parses_map fun glob hglob => parseModifier_keyGlob (hok.keyGlobs glob hglob)
      (hprint.keys (Bool.not_eq_true _ ▸ hall) glob hglob).2

theorem parses_channelWords {u : User} (hok : u.Ok fam) :
    Parses fam u.channelWords (u.channelUpdates.map .pubSub) := by
  rw [channelWords, channelUpdates]
  split
  · exact .cons rfl .nil
  · exact .cons rfl (parses_map fun glob hglob => parseModifier_channel (hok.channels glob hglob))

/-- All that the words of a line ask for. -/
def modifiers (u : User) : List Modifier :=
  .status u.isActive :: (u.passwordUpdates.map .password ++ u.keyUpdates.map .key ++
    u.channelUpdates.map .pubSub ++ u.ruleModifiers ++ [.select u.db])

end User

theorem takes_free (hparse : Parses fam words mods)
    (hfree : ∀ modifier ∈ mods, ∀ (st : ParseState) (word : Bytes),
      st.refusal fam word modifier = none)
    (st : ParseState) : Takes fam st words (mods.foldl extend st) :=
  takes_forall₂ (motive := fun _ => True) hparse
    (fun m hm st word _ => ⟨hfree m hm st word, trivial⟩) trivial

theorem takes_keys (hprint : u.Printable fam) (hok : u.Ok fam)
    (hall : st.hasAllKeys = false) (hallow : st.req.allowAllKeys = false) :
    Takes fam st u.keyWords ((u.keyUpdates.map Modifier.key).foldl extend st) := by
  have hparse := User.parses_keyWords hprint hok
  rw [User.keyUpdates] at hparse ⊢
  split at hparse
  case isTrue hkeys =>
    rw [if_pos hkeys]
    exact takes_free hparse (forall_mem_singleton.mpr fun _ _ => if_neg fun hcond =>
      by cases hcond.2.1) st
  case isFalse hkeys =>
    rw [if_neg hkeys, map_map] at *
    -- patterns leave the flags as they are
    refine takes_forall₂ (motive := fun st => st.hasAllKeys = false ∧
      st.req.allowAllKeys = false) hparse ?_
      ⟨hall, hallow⟩
    simp only [forall_mem_map]
    intro glob _ st word hst
    exact ⟨if_neg (by simp [hst]), by simp [extend, hst]⟩

theorem takes_channels (hok : u.Ok fam) (hall : st.hasAllChannels = false)
    (hallow : st.req.allChannels = false) :
    Takes fam st u.channelWords ((u.channelUpdates.map Modifier.pubSub).foldl extend st) := by
  have hparse := User.parses_channelWords hok
  rw [User.channelUpdates] at hparse ⊢
  split at hparse
  case isTrue hchannels =>
    rw [if_pos hchannels]
    exact takes_free hparse (forall_mem_singleton.mpr fun _ _ => if_neg fun hcond =>
      by cases hcond.2.1) st
  case isFalse hchannels =>
    rw [if_neg hchannels]
    refine takes_forall₂ (motive := fun st => st.hasAllChannels = false ∧
      st.req.allChannels = false) hparse ?_
      ⟨hall, hallow⟩
    simp only [forall_mem_map, forall_mem_cons]
    refine ⟨fun st word hst => ?_, fun glob _ st word hst => ?_⟩ <;>
      exact ⟨if_neg (by simp [hst]), by simp [extend, hst]⟩

theorem not_refused_rule (key : ChangeKey) (sign : Sign) (st : ParseState) (word : Bytes) :
    st.refusal fam word (key.modifier sign) = none := by
  cases key <;> rfl

theorem refusal_select {db : ℕ} (h : DbOk fam db) (hnone : st.req.selectDb = none)
    (word : Bytes) : st.refusal fam word (.select db) = none := by
  have hcluster : ¬(fam.isClusterEnabled ∧ db ≠ 0 ∧ db ≠ sizeMax) := by
    rintro ⟨henabled, hzero, hmax⟩
    exact hzero ((h.resolve_left hmax).2.2 henabled)
  rw [refusal, hnone, if_neg (by simp), if_neg hcluster]

/-- A request for the attributes of a user. -/
structure Requests (u : User) (req : UpdateRequest) : Prop where
  passwords : req.passwords = u.passwordUpdates
  isActive : req.isActive = some u.isActive
  updates : req.updates = u.history.map fun op => op.1.rule op.2
  keys : req.keys = u.keyUpdates
  pubSub : req.pubSub = u.channelUpdates
  selectDb : req.selectDb = some u.db
  ns : req.ns = []

namespace Modifier

/-- What a modifier adds to the lists of a request. -/
def passwords : Modifier → List UpdatePass
  | .password pass => [pass]
  | _ => []

def keys : Modifier → List UpdateKey
  | .key update => [update]
  | _ => []

def channels : Modifier → List UpdatePubSub
  | .pubSub update => [update]
  | _ => []

def rules : Modifier → List RuleUpdate
  | .category sign cat => [.category sign cat]
  | .command sign index bit => [.command sign index bit]
  | _ => []

variable (sign : Sign) (key : ChangeKey)

theorem passwords_modifier : (key.modifier sign).passwords = [] := by
  cases key <;> rfl

theorem keys_modifier : (key.modifier sign).keys = [] := by cases key <;> rfl

theorem channels_modifier : (key.modifier sign).channels = [] := by
  cases key <;> rfl

theorem rules_modifier : (key.modifier sign).rules = [key.rule sign] := by
  cases key <;> rfl

end Modifier

@[simp]
theorem flatMap_const_nil {α : Type} (xs : List α) : (xs.flatMap fun _ => ([] : List β)) = [] :=
  flatMap_eq_nil_iff.mpr fun _ _ => rfl

/-- The modifiers of a user ask for what the user has. -/
theorem requests_modifiers (u : User) :
    Requests u (u.modifiers.foldl extend ⟨{}, false, false⟩).req := by
  have hlist : ∀ {β : Type} (field : ParseState → List β) (pick : Modifier → List β),
      (∀ modifier (st : ParseState), field (st.extend modifier) = field st ++ pick modifier) →
      field ⟨{}, false, false⟩ = [] →
      field (u.modifiers.foldl extend ⟨{}, false, false⟩) =
        pick (.status u.isActive) ++ (u.passwordUpdates.flatMap fun p => pick (.password p)) ++
          (u.keyUpdates.flatMap fun k => pick (.key k)) ++
            (u.channelUpdates.flatMap fun c => pick (.pubSub c)) ++
          (u.history.flatMap fun op => pick (op.1.modifier op.2)) ++ pick (.select u.db) := by
    intro β field pick hpick hnil
    rw [foldl_extend_append field pick hpick, hnil, nil_append]
    simp only [User.modifiers, User.ruleModifiers, flatMap_cons, flatMap_append, flatMap_map,
      flatMap_nil, append_nil, append_assoc]
  refine ⟨?_, ?_, ?_, ?_, ?_, ?_, ?_⟩
  · rw [hlist (fun st => st.req.passwords) Modifier.passwords
      (fun m st => by cases m <;> simp [extend, Modifier.passwords]) rfl]
    simp only [Modifier.passwords_modifier]
    simp [Modifier.passwords]
  · rw [User.modifiers, foldl_cons]
    refine foldl_extend_keep (fun st => st.req.isActive) ?_ _
    simp only [User.ruleModifiers, forall_mem_append, forall_mem_map, forall_mem_singleton]
    refine ⟨⟨⟨⟨fun _ _ _ => rfl, fun _ _ _ => rfl⟩, fun _ _ _ => rfl⟩, fun op _ st => ?_⟩,
      fun _ => rfl⟩
    cases op.1 <;> rfl
  · rw [hlist (fun st => st.req.updates) Modifier.rules
      (fun m st => by cases m <;> simp [extend, Modifier.rules]) rfl]
    simp only [Modifier.rules_modifier]
    simp [Modifier.rules, map_eq_flatMap]
  · rw [hlist (fun st => st.req.keys) Modifier.keys
      (fun m st => by cases m <;> simp [extend, Modifier.keys]) rfl]
    simp only [Modifier.keys_modifier]
    simp [Modifier.keys]
  · rw [hlist (fun st => st.req.pubSub) Modifier.channels
      (fun m st => by cases m <;> simp [extend, Modifier.channels]) rfl]
    simp only [Modifier.channels_modifier]
    simp [Modifier.channels]
  · rw [User.modifiers, ← cons_append, foldl_append]
    rfl
  · refine foldl_extend_keep (fun st => st.req.ns) ?_ _
    simp only [User.modifiers, User.ruleModifiers, forall_mem_cons, forall_mem_append,
      forall_mem_map]
    refine ⟨fun _ => rfl,
      ⟨⟨⟨fun _ _ _ => rfl, fun _ _ _ => rfl⟩, fun _ _ _ => rfl⟩, fun op _ st => ?_⟩,
      fun _ => rfl, forall_mem_nil _⟩
    cases op.1 <;> rfl

section

variable (hprint : u.Printable fam) (hok : u.Ok fam) {rules : List Bytes}
  (hrules : List.Forall₂
    (fun word op => parseModifier fam true word = some (ChangeKey.modifier op.2 op.1))
    rules u.history)
include hprint hok hrules

/-- The words of a user are taken for the modifiers they were written from. -/
theorem takes_words :
    Takes fam ⟨{}, false, false⟩
      (u.statusWord :: (u.passwordWords ++ u.keyWords ++ u.channelWords ++ rules ++ [u.dbWord]))
      (u.modifiers.foldl extend ⟨{}, false, false⟩) := by
  have hstatus : parseModifier fam true u.statusWord = some (.status u.isActive) := by
    rw [User.statusWord]
    cases u.isActive <;> rfl
  have hfirst : Takes fam ⟨{}, false, false⟩ [u.statusWord] _ := takes_singleton hstatus rfl
  have hpass := takes_free (u.parses_passwordWords fam) (forall_mem_map.mpr fun _ _ _ _ => rfl)
  have hrule := takes_free (forall₂_map_right_iff.mpr hrules)
    (forall_mem_map.mpr fun op _ => not_refused_rule op.1 op.2)
  rw [User.modifiers, foldl_cons, foldl_append, foldl_append, foldl_append, foldl_append,
    foldl_cons, foldl_nil]
  refine hfirst.append (((((hpass _).append (takes_keys hprint hok ?_ ?_)).append
    (takes_channels hok ?_ ?_)).append (hrule _)).append
      (takes_singleton (parseModifier_db hok.db) (refusal_select hok.db ?_ _)))
  · exact foldl_extend_map hasAllKeys (fun _ _ => rfl) _ _
  · exact foldl_extend_map (fun st => st.req.allowAllKeys) (fun _ _ => rfl) _ _
  · repeat rw [foldl_extend_map hasAllChannels fun _ _ => rfl]
    rfl
  · repeat rw [foldl_extend_map (fun st => st.req.allChannels) fun _ _ => rfl]
    rfl
  · have hkeep : ∀ (op : ChangeKey × Sign) (st : ParseState),
        (st.extend (op.1.modifier op.2)).req.selectDb = st.req.selectDb := by
      rintro ⟨key, sign⟩ st
      cases key <;> rfl
    rw [foldl_extend_map (fun st => st.req.selectDb) hkeep]
    repeat rw [foldl_extend_map (fun st => st.req.selectDb) fun _ _ => rfl]
    rfl

/-- **The request of a line.** -/
theorem exists_parse_words :
    ∃ req, parseAclSetUser fam
        (u.statusWord ::
          (u.passwordWords ++ u.keyWords ++ u.channelWords ++ rules ++ [u.dbWord])) true false
        false = .ok req ∧ Requests u req := by
  refine ⟨_, ?_, requests_modifiers u⟩
  have htakes : foldlM _ _ _ = _ := takes_words hprint hok hrules
  rw [parseAclSetUser, htakes]
  rfl

end

/-! ## §3 The user of a line -/

namespace User

theorem foldl_updatePassword_hashes (fam : AclFamily) (hashes : List Bytes) (w : User)
    (hw : w.nopass = false) :
    ∃ hashes',
      (hashes.map fun hash =>
      (⟨bytesToHexString hash, false, false, false, true⟩ : UpdatePass)).foldl
        (updatePassword fam) w = { w with passwordHashes := hashes' } ∧
      ∀ hash, hash ∈ hashes' ↔ hash ∈ hashes ∨ hash ∈ w.passwordHashes := by
  induction hashes generalizing w with
  | nil => exact ⟨w.passwordHashes, rfl, fun hash => by simp⟩
  | cons hash hashes ih =>
    have hone : updatePassword fam w ⟨bytesToHexString hash, false, false, false, true⟩ =
        { w with passwordHashes := w.passwordHashes.insert hash } := by
      simp only [updatePassword, setPasswordHash, hexStringToBytes_bytesToHexString, ← hw, if_true]
      simp [hw]
    obtain ⟨hashes', heq, hmem⟩ := ih { w with passwordHashes := w.passwordHashes.insert hash } hw
    refine ⟨hashes', ?_, fun x => ?_⟩
    · simp [hone, heq]
    · rw [hmem, mem_insert_iff, mem_cons]
      tauto

theorem foldl_passwordUpdates (fam : AclFamily) (u w : User) (hhashes : w.passwordHashes = [])
    (hnopass : w.nopass = false) :
    ∃ hashes nopass, u.passwordUpdates.foldl (updatePassword fam) w =
        { w with passwordHashes := hashes, nopass := nopass } ∧
      ∀ password, (nopass || hashes.contains (fam.stringSHA256 password)) =
        u.hasPassword fam password := by
  rw [passwordUpdates]
  split
  case isTrue hno =>
    refine ⟨[], true, rfl, fun password => ?_⟩
    rw [hasPassword, hno, Bool.true_or, Bool.true_or]
  case isFalse hno =>
    obtain ⟨hashes, heq, hmem⟩ := foldl_updatePassword_hashes fam u.passwordHashes w hnopass
    refine ⟨hashes, false, by rw [heq, ← hnopass], fun password => ?_⟩
    have hset : ∀ hash, hash ∈ hashes ↔ hash ∈ u.passwordHashes := fun hash => by
      rw [hmem, hhashes]
      simp
    rw [hasPassword, Bool.eq_false_of_not_eq_true hno, Bool.false_or, Bool.false_or,
      Bool.eq_iff_iff, contains_iff_mem, contains_iff_mem, hset]

/-- Rules that were possible once are possible again. -/
theorem exists_updateRules {rules : List RuleUpdate}
    (hpossible : ∀ rule ∈ rules, rule.key.Possible fam)
    (w : User) : ∃ v, rules.foldlM (updateRule fam) w = some v := by
  induction rules generalizing w with
  | nil => exact ⟨w, rfl⟩
  | cons rule rules ih =>
    have hone : ∃ mid, w.updateRule fam rule = some mid := by
      cases rule with
      | category sign cat =>
        obtain ⟨commands, hcommands⟩ := exists_changeCategoryCommands sign w.commands
          (hpossible (.category sign cat) mem_cons_self)
        exact ⟨_, Option.map_eq_some_iff.mpr ⟨commands, hcommands, rfl⟩⟩
      | command sign index bit => exact ⟨_, rfl⟩
    obtain ⟨mid, hmid⟩ := hone
    obtain ⟨v, hv⟩ := ih (fun r hr => hpossible r (mem_cons_of_mem _ hr)) mid
    exact ⟨v, by rw [foldlM_cons, hmid]; exact hv⟩

theorem foldl_setKeyGlob (globs : List (Bytes × KeyOp)) (keys : AclKeys) :
    (globs.map fun glob => (⟨glob.1, glob.2, false, false⟩ : UpdateKey)).foldl setKeyGlob keys =
      { keys with keyGlobs := keys.keyGlobs ++ globs } := by
  induction globs generalizing keys with
  | nil => simp
  | cons glob globs ih =>
    rw [map_cons, foldl_cons, ih]
    simp [setKeyGlob]

theorem foldl_setPubSubGlob (globs : List (Bytes × Bool)) (pubSub : AclPubSub) :
    (globs.map fun glob => (⟨glob.1, glob.2, false, false⟩ : UpdatePubSub)).foldl
      setPubSubGlob pubSub = { pubSub with globs := pubSub.globs ++ globs } := by
  induction globs generalizing pubSub with
  | nil => simp
  | cons glob globs ih =>
    rw [map_cons, foldl_cons, ih]
    simp [setPubSubGlob]

/-- The keys of a line. Patterns besides that of all keys are not written. -/
theorem foldl_keyUpdates_allows (u : User) (globMatches : Bytes → Bytes → Bool)
    (isRead isWrite : Bool) (key : Bytes) :
    (u.keyUpdates.foldl setKeyGlob {}).allows globMatches isRead isWrite key =
      u.keys.allows globMatches isRead isWrite key := by
  rw [keyUpdates]
  split
  case isTrue hall =>
    rw [AclKeys.allows, AclKeys.allows, hall]
    rfl
  case isFalse hall =>
    rw [foldl_setKeyGlob, AclKeys.allows, AclKeys.allows, Bool.eq_false_of_not_eq_true hall]
    rfl

theorem foldl_channelUpdates_allows (u : User) (globMatches : Bytes → Bytes → Bool)
    (literalMatch : Bool) (channel : Bytes) :
    (u.channelUpdates.foldl setPubSubGlob {}).allows globMatches literalMatch channel =
      u.pubSub.allows globMatches literalMatch channel := by
  rw [channelUpdates]
  split
  case isTrue hall =>
    rw [AclPubSub.allows, AclPubSub.allows, hall]
    rfl
  case isFalse hall =>
    rw [foldl_cons, foldl_setPubSubGlob, AclPubSub.allows, AclPubSub.allows,
      Bool.eq_false_of_not_eq_true hall]
    rfl

theorem rule_key (op : ChangeKey × Sign) : (op.1.rule op.2).key = op.1 ∧
    (op.1.rule op.2).sign = op.2 := by
  obtain ⟨key, sign⟩ := op
  cases key <;> exact ⟨rfl, rfl⟩

theorem map_rule (ops : List (ChangeKey × Sign)) :
    ((ops.map fun op => op.1.rule op.2).map fun rule => (rule.key, rule.sign)) = ops := by
  rw [map_map]
  exact (map_congr_left fun op _ => Prod.ext (rule_key op).1 (rule_key op).2).trans (map_id _)

theorem RightsOk.rules {u : User} (h : u.RightsOk fam) {rule : RuleUpdate}
    (hrule : rule ∈ u.history.map fun op => op.1.rule op.2) :
      rule.key.Possible fam ∧ rule.key.Known fam := by
  obtain ⟨op, hop, rfl⟩ := mem_map.mp hrule
  obtain ⟨change, hchange, rfl⟩ := mem_map.mp hop
  have hmem := (mergeTables_perm _ _).mem_iff.mp hchange
  rw [(rule_key _).1]
  exact ⟨h.possible change hmem, h.known change hmem⟩

theorem update_noCommandsRequest (fam : AclFamily) :
    ∃ w, (User.new fam).update fam noCommandsRequest = some w ∧ w.passwordHashes = [] ∧
      w.nopass = false ∧ w.commands = noCommands fam ∧ w.keys = {} ∧ w.pubSub = {} := by
  refine ⟨_, rfl, rfl, rfl, ?_, rfl, rfl⟩
  exact map_replicate

/-- **The user of a line.** It has the rights of the user the line was written for. -/
theorem exists_createUser {u : User} (hok : u.Ok fam) (hns : u.ns = []) {req : UpdateRequest}
    (hreq : Requests u req) : ∃ v, createUser fam req = .ok v ∧ SameRights fam u v := by
  obtain ⟨w, hw, hhashes, hnopass, hcommands, hkeys, hpubSub⟩ := update_noCommandsRequest fam
  obtain ⟨hashes, nopass, hpass, haccepts⟩ := foldl_passwordUpdates fam u w hhashes hnopass
  have hrules : ∀ rule ∈ req.updates, rule.key.Possible fam ∧ rule.key.Known fam := by
    rw [hreq.updates]
    exact fun _ hrule => hok.rights.rules hrule
  obtain ⟨x, hx⟩ := exists_updateRules (fun rule h => (hrules rule h).1)
    { w with passwordHashes := hashes, nopass := nopass }
  have hwok := (ok_new.update noCommandsRequest_ok hw).rights
  have hstart : RightsOk fam { w with passwordHashes := hashes, nopass := nopass } :=
    hwok.of_eq rfl rfl rfl rfl
  have hrights := (hstart.updateRules (fun rule h => (hrules rule h).2) hx).2
  have hcreate : createUser fam req = .ok (updateRest req x) := by
    rw [createUser, tryUpdate, hw]
    show tryUpdate fam req w = _
    simp [tryUpdate, User.update, hreq.passwords, hpass, hx]
  obtain ⟨_, _, _, _, _, rfl⟩ := updateRules_frame hx
  refine ⟨_, hcreate, ?_, ?_, ?_, ?_, ?_, ?_, ?_⟩
  · -- the rules are those of the history, in order
    rw [hreq.updates, map_rule] at hrights
    rw [hok.rights.commands_eq, ← hcommands]
    exact hrights
  · intro globMatches isRead isWrite key
    rw [← foldl_keyUpdates_allows u, ← hreq.keys, ← hkeys]
    rfl
  · intro globMatches literalMatch channel
    rw [← foldl_channelUpdates_allows u, ← hreq.pubSub, ← hpubSub]
    rfl
  · simp [updateRest, hreq.selectDb]
  · simp [updateRest, hreq.ns, hns]
  · exact haccepts
  · simp [updateRest, hreq.isActive]

end User

/-! ## §4 The lines of a file -/

variable (fam) in
/-- What becomes of the line of a user. -/
structure ReadsBack (username : Bytes) (u : User) (line : Bytes) (args : List Bytes)
    (req : UpdateRequest) (v : User) : Prop where
  written : userToString fam username u = some line
  ne_nil : line ≠ []
  unbroken : 10 ∉ line
  split : materializeLine line = some (username, args)
  parsed : parseLine fam (username, args) = .ok (username, req)
  created : createUser fam req = .ok v
  same : SameRights fam u v

/-- **A line.** It is read back into a user with the same rights. -/
theorem exists_readsBack {username : Bytes} (hname : User.IsToken username)
    (hprint : u.Printable fam) (hok : u.Ok fam) :
    ∃ line args req v, ReadsBack fam username u line args req v := by
  obtain ⟨line, rules, hline, hwords, htokens, hrules⟩ :=
    User.words_userToString hprint hok.rights.known hname
  obtain ⟨req, hparse, hreq⟩ := exists_parse_words hprint hok hrules
  obtain ⟨v, hcreate, hsame⟩ := User.exists_createUser hok hprint.ns hreq
  refine ⟨line, _, req, v, hline, ?_, fun hfeed => ?_, ?_,
    by rw [parseLine, hparse], hcreate, hsame⟩
  · rintro rfl
    cases hwords
  · -- a line feed would be in one of the words
    have hclean : ∀ word ∈ words 32 line, 10 ∉ word := by
      rw [hwords]
      simp only [forall_mem_cons, forall_mem_append]
      refine ⟨by decide, hname.2.2, (User.isToken_statusWord u).2.2, ⟨⟨⟨?_, ?_⟩, ?_⟩, ?_⟩,
        (User.isToken_dbWord u).2.2, forall_mem_nil _⟩
      · exact fun word hword => (User.isToken_passwordWords u word hword).2.2
      · exact fun word hword => (hprint.isToken_keyWords word hword).2.2
      · exact fun word hword => (hprint.isToken_channelWords word hword).2.2
      · exact fun word hword => (htokens word hword).2.2
    rcases eq_or_mem_of_mem 32 line hfeed with heq | ⟨word, hword, hmem⟩
    · exact absurd heq (by decide)
    · exact hclean word hword hmem
  · rw [materializeLine, hwords]
    refine if_pos ⟨rfl, ?_⟩
    simp only [length_cons, length_append]
    omega

variable {users : List (Bytes × User)}

/-- Every user is written to a line of its own, and each line is read back. -/
theorem exists_lines
    (h : ∀ entry ∈ users, ∃ line args req v, ReadsBack fam entry.1 entry.2 line args req v) :
    ∃ lines args reqs, (users.mapM fun entry => userToString fam entry.1 entry.2) = some lines ∧
      (∀ line ∈ lines, line ≠ [] ∧ 10 ∉ line) ∧ lines.length = users.length ∧
      lines.mapM materializeLine = some args ∧ args.mapM (parseLine fam) = .ok reqs ∧
      List.Forall₂ (fun entry req => req.1 = entry.1 ∧
        ∃ v, createUser fam req.2 = .ok v ∧ SameRights fam entry.2 v) users reqs := by
  induction users with
  | nil => exact ⟨[], [], [], rfl, forall_mem_nil _, rfl, rfl, rfl, .nil⟩
  | cons entry users ih =>
    obtain ⟨line, words, req, v, hread⟩ := h entry mem_cons_self
    obtain ⟨lines, args, reqs, hlines, hclean, hlen, hargs, hreqs, hall⟩ :=
      ih fun e he => h e (mem_cons_of_mem _ he)
    refine ⟨line :: lines, (entry.1, words) :: args, (entry.1, req) :: reqs, ?_, ?_, ?_, ?_, ?_,
      .cons ⟨rfl, v, hread.created, hread.same⟩ hall⟩
    · rw [mapM_cons, hread.written, hlines]
      rfl
    · exact forall_mem_cons.mpr ⟨⟨hread.ne_nil, hread.unbroken⟩, hclean⟩
    · simp [hlen]
    · rw [mapM_cons, hread.split, hargs]
      rfl
    · rw [mapM_cons, hread.parsed, hreqs]
      rfl

/-- Loading goes through, and each user gets its rights. -/
theorem exists_loadUsers {reqs : List (Bytes × UpdateRequest)}
    (hall : List.Forall₂ (fun entry req => req.1 = entry.1 ∧
      ∃ v, createUser fam req.2 = .ok v ∧ SameRights fam entry.2 v) users reqs)
    (hnodup : (users.map Prod.fst).Nodup) (reg : Registry)
    (hnew : ∀ entry ∈ users, reg.lookup entry.1 = none) :
    ∃ reg', reqs.foldlM (loadUser fam) reg = .ok reg' ∧
      (∀ name, name ∉ users.map Prod.fst → reg'.lookup name = reg.lookup name) ∧
      ∀ entry ∈ users, ∃ v, reg'.lookup entry.1 = some v ∧ SameRights fam entry.2 v := by
  induction hall generalizing reg with
  | nil => exact ⟨reg, rfl, fun _ _ => rfl, forall_mem_nil _⟩
  | @cons entry req users reqs hone _ ih =>
    obtain ⟨hname, v, hcreate, hsame⟩ := hone
    obtain ⟨hnot, hnodup⟩ := nodup_cons.mp hnodup
    have hload : loadUser fam reg req = .ok (reg.insert entry.1 v) := by
      rw [loadUser, hname, hnew entry mem_cons_self, Option.getD_none]
      rw [createUser] at hcreate
      rw [hcreate]
      rfl
    have hother : ∀ e ∈ users, e.1 ≠ entry.1 := fun e he heq => hnot (heq ▸ mem_map_of_mem he)
    obtain ⟨reg', hrest, hkeep, husers⟩ := ih hnodup (reg.insert entry.1 v) fun e he => by
      rw [AList.lookup_insert_ne (hother e he)]
      exact hnew e (mem_cons_of_mem _ he)
    refine ⟨reg', by rw [foldlM_cons, hload]; exact hrest, fun name hmem => ?_, fun e he => ?_⟩
    · rw [map_cons, mem_cons, not_or] at hmem
      rw [hkeep name hmem.2, AList.lookup_insert_ne hmem.1]
    · rcases mem_cons.mp he with rfl | he
      · exact ⟨v, by simp [hkeep _ hnot], hsame⟩
      · exact husers e he

/-! ## §5 The registry -/

/-- The same user, with its hash tables in another order. -/
structure User.Reorders (u v : User) : Prop where
  passwordHashes : v.passwordHashes.Perm u.passwordHashes
  catChanges : v.catChanges.entries.Perm u.catChanges.entries
  cmdChanges : v.cmdChanges.entries.Perm u.cmdChanges.entries
  rest : v = { u with
    passwordHashes := v.passwordHashes, catChanges := v.catChanges, cmdChanges := v.cmdChanges }

namespace User.Reorders

variable {u v : User}

section

variable (h : u.Reorders v)
include h

theorem changes_perm : v.changes.Perm u.changes :=
  (h.catChanges.map _).append (h.cmdChanges.map _)

theorem history_eq (hnodup : (u.changes.map Change.seqNo).Nodup) : v.history = u.history := by
  have hmerged : mergeTables v.catChanges v.cmdChanges = mergeTables u.catChanges u.cmdChanges := by
    have hperm := (mergeTables_perm v.catChanges v.cmdChanges).trans h.changes_perm
    refine eq_of_perm_of_pairwise (hperm.trans (mergeTables_perm _ _).symm) ?_
      (mergeTables_pairwise _ _)
      (mergeTables_pairwise _ _)
    rwa [(hperm.map Change.seqNo).nodup_iff]
  rw [history, history, hmerged]

theorem ok (hok : u.Ok fam) : v.Ok fam := by
  have hperm := h.changes_perm
  have hhistory := h.history_eq hok.rights.nodup
  have hchanges : ∀ P : Change → Prop, (∀ change ∈ u.changes, P change) →
    ∀ change ∈ v.changes, P change :=
    fun P hall change hchange => hall change (hperm.mem_iff.mp hchange)
  obtain ⟨hashes, cats, cmds, rfl⟩ : ∃ hashes cats cmds, v =
    { u with passwordHashes := hashes, catChanges := cats, cmdChanges := cmds } := ⟨_, _, _, h.rest⟩
  refine ⟨⟨?_, hchanges _ hok.rights.seq_lt, ?_, hchanges _ hok.rights.known,
    hchanges _ hok.rights.possible⟩, hok.keyGlobs, hok.channels, hok.db⟩
  · rw [hhistory]
    exact hok.rights.commands_eq
  · rw [(hperm.map Change.seqNo).nodup_iff]
    exact hok.rights.nodup

theorem printable (hprint : u.Printable fam) : v.Printable fam := by
  have hrules : ∀ change ∈ v.changes, change.key.Printable fam :=
    fun change hchange => hprint.rules change (h.changes_perm.mem_iff.mp hchange)
  rw [h.rest] at hrules ⊢
  exact ⟨hprint.ns, hprint.keys, hprint.channels, hrules⟩

theorem sameRights : SameRights fam u v := by
  have hhashes := h.passwordHashes
  rw [h.rest]
  exact ⟨rfl, fun _ _ _ _ => rfl, fun _ _ _ => rfl, rfl, rfl,
    fun _ => congrArg (u.nopass || ·) hhashes.contains_eq, rfl⟩

end

end User.Reorders

namespace Registry

/-- A visit of all users, in some order. -/
structure Lists (reg : Registry) (listing : List (Bytes × User)) : Prop where
  nodup : (listing.map Prod.fst).Nodup
  complete : ∀ username u, reg.lookup username = some u → ∃ v, (username, v) ∈ listing ∧
    u.Reorders v
  sound : ∀ entry ∈ listing, ∃ u, reg.lookup entry.1 = some u ∧ u.Reorders entry.2

variable (fam) in
/-- The text can be read: the names are unbroken, and the lines can be read. -/
def Printable (reg : Registry) : Prop :=
  ∀ username u, reg.lookup username = some u → username ≠ [] ∧ Unbroken username ∧ u.Printable fam

variable (fam) in
/-- The same names, with the same rights. -/
def SameUsers (reg reg' : Registry) : Prop :=
  ∀ username, (reg.lookup username = none ∧ reg'.lookup username = none) ∨
    ∃ u v, reg.lookup username = some u ∧ reg'.lookup username = some v ∧ SameRights fam u v

/-- **Saving and loading.** The text of a registry that can be read is loaded into a registry with
the same users and the same rights. -/
theorem load_registryToString {reg : Registry} (hreach : Reachable fam reg)
    (hprint : reg.Printable fam) {listing : List (Bytes × User)} (hlist : reg.Lists listing) :
    ∃ contents reg', registryToString fam listing = some contents ∧
      loadToRegistry fam contents = .ok reg' ∧ SameUsers fam reg reg' := by
  have hok := hreach.ok
  have hread : ∀ entry ∈ listing, ∃ line args req v,
    ReadsBack fam entry.1 entry.2 line args req v := by
    intro entry hentry
    obtain ⟨u, hu, hreorder⟩ := hlist.sound entry hentry
    obtain ⟨hne, hunbroken, hprintable⟩ := hprint entry.1 u hu
    exact exists_readsBack ⟨hne, hunbroken⟩ (hreorder.printable hprintable)
      (hreorder.ok (hok.users entry.1 u hu))
  obtain ⟨lines, args, reqs, hlines, hclean, hlen, hargs, hreqs, hall⟩ := exists_lines hread
  obtain ⟨reg', hload, hkeep, husers⟩ := exists_loadUsers hall hlist.nodup ∅ fun _ _ => rfl
  have hsame : SameUsers fam reg reg' := by
    intro username
    cases hu : reg.lookup username with
    | none =>
      refine Or.inl ⟨rfl, hkeep username fun hmem => ?_⟩
      obtain ⟨entry, hentry, rfl⟩ := mem_map.mp hmem
      obtain ⟨u, hu', -⟩ := hlist.sound entry hentry
      rw [hu] at hu'
      cases hu'
    | some u =>
      obtain ⟨v, hv, hreorder⟩ := hlist.complete username u hu
      obtain ⟨w, hw, hrights⟩ := husers (username, v) hv
      exact Or.inr ⟨u, w, rfl, hw, hreorder.sameRights.trans hrights⟩
  have hdefault : (reg'.lookup (text "default")).isSome := by
    rcases hsame (text "default") with ⟨hnone, -⟩ | ⟨u, v, -, hv, -⟩
    · have hsome := hok.default
      rw [hnone] at hsome
      cases hsome
    · rw [hv]
      rfl
  have hsplit : (terminated 10 lines).splitOn 10 = lines ++ [[]] :=
    splitOn_terminated fun line hline => (hclean line hline).2
  have hfilter : (lines ++ [[]]).filter (fun line => line ≠ []) = lines := by
    rw [filter_append, filter_eq_self.mpr fun line hline => by simpa using (hclean line hline).1]
    exact append_nil _
  have hne : terminated 10 lines ≠ [] := by
    intro hnil
    rw [hnil] at hsplit
    have hcount := congrArg length hsplit
    obtain ⟨u, hu⟩ := Option.isSome_iff_exists.mp hok.default
    obtain ⟨v, hv, -⟩ := hlist.complete _ u hu
    have hpos := length_pos_of_mem hv
    simp at hcount
    rw [hcount] at hlen
    simp at hlen
    omega
  refine ⟨terminated 10 lines, reg', by simp [registryToString, hlines], ?_, hsame⟩
  rw [loadToRegistry, if_neg hne, materializeFileContents, hsplit, hfilter, hargs]
  show (mapM (parseLine fam) args >>= _) = _
  rw [hreqs]
  show (foldlM (loadUser fam) ∅ reqs >>= _) = _
  rw [hload]
  show addDefaultUser fam reg' = _
  rw [addDefaultUser, if_pos hdefault]

theorem lists_entries (reg : Registry) :
    reg.Lists (reg.entries.map fun entry => (entry.1, entry.2)) where
  nodup := by
    rw [map_map]
    exact reg.nodupKeys
  complete username u hu :=
    ⟨u, mem_map.mpr ⟨⟨username, u⟩, AList.mem_lookup_iff.mp hu, rfl⟩, List.Perm.refl _,
      List.Perm.refl _, List.Perm.refl _, rfl⟩
  sound entry hentry := by
    obtain ⟨⟨username, u⟩, hmem, rfl⟩ := mem_map.mp hentry
    exact ⟨u, AList.mem_lookup_iff.mpr hmem, List.Perm.refl _, List.Perm.refl _,
      List.Perm.refl _, rfl⟩

/-- A new server on which one user is given some rights. -/
def withUser (args : List Bytes) : Except Failure Registry :=
  init memoryFamily >>= fun reg => reg.setUser memoryFamily (text "u") args

theorem reachable_withUser {args : List Bytes} {reg : Registry} (h : withUser args = .ok reg) :
    Reachable memoryFamily reg := by
  obtain ⟨start, hinit⟩ : ∃ start, init memoryFamily = .ok start := ⟨_, rfl⟩
  rw [withUser, hinit] at h
  exact .setUser (.init hinit) h

/-- A user with a command, a pattern for keys and one for channels is saved and loaded. -/
theorem load_registryToString_rules :
    ∃ reg contents reg', withUser [text "+MEMORY", text "%R~a", text "&b"] = .ok reg ∧
      registryToString memoryFamily (reg.entries.map fun entry => (entry.1, entry.2)) =
        some contents ∧
      loadToRegistry memoryFamily contents = .ok reg' ∧ SameUsers memoryFamily reg reg' := by
  obtain ⟨reg, u, d, hreg, hentries, huns, hukeys, huchannels, hdns, hdkeys, hdchannels⟩ :
      ∃ (reg : Registry) (u d : User), withUser [text "+MEMORY", text "%R~a", text "&b"] = .ok reg ∧
        reg.entries = [⟨text "u", u⟩, ⟨text "default", d⟩] ∧ u.ns = [] ∧
          u.keys = ⟨[(text "a", .read)], false⟩ ∧
        u.pubSub = ⟨[(text "b", false)], false⟩ ∧ d.ns = [] ∧ d.keys = ⟨[], true⟩ ∧
          d.pubSub = ⟨[], true⟩ :=
    ⟨_, _, _, rfl, rfl, rfl, rfl, rfl, rfl, rfl, rfl⟩
  have hreach := reachable_withUser hreg
  have hrules : ∀ username w, reg.lookup username = some w →
      ∀ change ∈ w.changes, change.key.Printable memoryFamily := by
    intro username w hw change hchange
    cases change.key with
    | category cat => trivial
    | command index bit =>
      -- the family has one name
      intro pos name _ hname
      obtain ⟨names, hnames, hname⟩ := Option.bind_eq_some_iff.mp hname
      obtain rfl := mem_singleton.mp (mem_of_getElem? hnames)
      obtain rfl := mem_singleton.mp (mem_of_getElem? hname)
      decide
  have hprint : reg.Printable memoryFamily := by
    intro username w hw
    have hmem := AList.mem_lookup_iff.mp hw
    rw [hentries] at hmem
    rcases mem_cons.mp hmem with heq | hmem
    · obtain ⟨rfl, hwu⟩ := Sigma.mk.inj heq
      obtain rfl := eq_of_heq hwu
      refine ⟨by decide, ⟨by decide, by decide⟩, huns, ?_, ?_, hrules _ _ hw⟩
      · rw [hukeys]
        decide
      · rw [huchannels]
        decide
    · obtain ⟨rfl, hwd⟩ := Sigma.mk.inj (mem_singleton.mp hmem)
      obtain rfl := eq_of_heq hwd
      refine ⟨by decide, ⟨by decide, by decide⟩, hdns, ?_, ?_, hrules _ _ hw⟩
      · rw [hdkeys]
        exact fun hall => by cases hall
      · rw [hdchannels]
        exact fun hall => by cases hall
  obtain ⟨contents, reg', hcontents, hload, hsame⟩ :=
    load_registryToString hreach hprint (lists_entries reg)
  exact ⟨reg, contents, reg', hreg, hcontents, hload, hsame⟩

/-- A pattern of all keys that is given with an operation makes the file unreadable, and the
namespace of a user is not in the file. -/
theorem load_fails_or_differs :
    (∃ reg contents, withUser [text "%RW~*", text "~foo"] = .ok reg ∧
      registryToString memoryFamily (reg.entries.map fun entry => (entry.1, entry.2)) =
        some contents ∧
      loadToRegistry memoryFamily contents = .error (.reply (keyPatternError (text "~foo")))) ∧
    ∃ reg contents reg', withUser [text "NAMESPACE:NS"] = .ok reg ∧
      registryToString memoryFamily (reg.entries.map fun entry => (entry.1, entry.2)) =
        some contents ∧
      loadToRegistry memoryFamily contents = .ok reg' ∧
      (reg.lookup (text "u")).map User.ns = some (text "NS") ∧
      (reg'.lookup (text "u")).map User.ns = some [] := by
  exact ⟨⟨_, _, rfl, rfl, rfl⟩, _, _, _, rfl, rfl, rfl, rfl, rfl⟩

end Registry

end Drakeydb.Acl
