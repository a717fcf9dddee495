import Drakeydb.Acl.File
import Drakeydb.Acl.Frame

/-!
# Users that the commands lead to

What holds of every user of every registry that `ACL SETUSER` and `ACL DELUSER` lead to from that of
a new server: its command rights are the result of its history, its patterns are not empty, its
database exists. The default user is always there.
-/

namespace Drakeydb.Acl

open Lib Lib.Ascii List Option Bool

variable (fam : AclFamily)

/-! ## §1 What the parser lets through -/

/-- A number of a database, or all of them. -/
def DbOk (db : ℕ) : Prop :=
  db = sizeMax ∨ db < fam.dbnum ∧ db < 18446744073709551616 ∧ (fam.isClusterEnabled → db = 0)

/-- A channel pattern that is stored. -/
def ChannelGlobOk (glob : Bytes × Bool) : Prop :=
  glob.1 ≠ [] ∧ glob.1 ≠ [42] ∧ glob.2 = glob.1.contains 42

def UpdateKey.Ok (key : UpdateKey) : Prop := key.allKeys = false → key.resetKeys = false →
    key.key ≠ []

def UpdatePubSub.Ok (pattern : UpdatePubSub) : Prop :=
  pattern.allChannels = false → pattern.resetChannels = false →
    ChannelGlobOk (pattern.pattern, pattern.hasAsterisk)

/-- An argument that was recognised. -/
def Modifier.Ok : Modifier → Prop
  | .key update => update.Ok
  | .pubSub update => update.Ok
  | .select db => db = sizeMax ∨ db < fam.dbnum ∧ db < 18446744073709551616
  | .category _ cat => (ChangeKey.category cat).Known fam
  | .command _ index bit => (ChangeKey.command index bit).Known fam
  | _ => True

/-- A request that was accepted. -/
structure UpdateRequest.Ok (req : UpdateRequest) : Prop where
  updates : ∀ rule ∈ req.updates, rule.key.Known fam
  keys : ∀ key ∈ req.keys, key.Ok
  pubSub : ∀ pattern ∈ req.pubSub, pattern.Ok
  selectDb : ∀ db ∈ req.selectDb, DbOk fam db

variable {fam} {command : Bytes} {key : UpdateKey}

theorem maybeParseAclKey_ok (h : maybeParseAclKey command = some key) : key.Ok := by
  rw [maybeParseAclKey] at h
  split at h
  · obtain rfl := some.inj h
    exact fun hall => by cases hall
  split at h
  · obtain rfl := some.inj h
    exact fun _ hreset => by cases hreset
  dsimp only at h
  split at h
  · next hcond =>
    obtain rfl := some.inj h
    exact fun _ _ => hcond.2
  · cases h

variable {pattern : UpdatePubSub}

theorem maybeParseAclPubSub_ok (h : maybeParseAclPubSub command = some pattern) : pattern.Ok := by
  rw [maybeParseAclPubSub] at h
  split at h
  · obtain rfl := some.inj h
    exact fun hall => by cases hall
  next hnotAll =>
  split at h
  · obtain rfl := some.inj h
    exact fun _ hreset => by cases hreset
  split at h
  · next hcond =>
    obtain rfl := some.inj h
    obtain ⟨⟨rest, rfl⟩, hlen⟩ := hcond
    refine fun _ _ => ⟨?_, ?_, rfl⟩
    · rintro hnil
      simp only [text] at hlen hnil
      simp at hlen hnil
      simp [hnil] at hlen
    · intro hstar
      -- this is `&*`
      exact hnotAll (Or.inr (congrArg (cons 38) hstar))
  · cases h

theorem maybeParseAclDflySelect_ok {db : ℕ}
    (h : maybeParseAclDflySelect command fam.dbnum = some db) : (Modifier.select db).Ok fam := by
  rw [maybeParseAclDflySelect] at h
  split at h
  · rcases or_eq_some_iff.mp h with hnum | ⟨-, hall⟩
    · obtain ⟨hatoi, hlt⟩ := filter_eq_some_iff.mp hnum
      rw [simpleAtoi] at hatoi
      split at hatoi
      · cases hatoi
      · exact Or.inr ⟨of_decide_eq_true hlt, of_decide_eq_true (filter_eq_some_iff.mp hatoi).2⟩
    · split at hall
      · exact Or.inl (some.inj hall).symm
      · cases hall
  · cases h

theorem mem_catTable_of_findCategory {name : Bytes} {cat : UInt32}
    (h : findCategory name = some cat) :
    (name, cat) ∈ catTable := by
  obtain ⟨⟨name', cat'⟩, hfind, rfl⟩ := map_eq_some_iff.mp h
  obtain rfl : name' = name := by simpa using find?_some hfind
  exact mem_of_find?_eq_some hfind

theorem maybeParseAclCategory_known {res : Sign × UInt32}
    (h : maybeParseAclCategory command = some res) : ∃ name, (name, res.2) ∈ catTable := by
  have hall : (text "ALL", catAll) ∈ catTable := by decide +kernel
  rw [maybeParseAclCategory] at h
  split at h
  · obtain rfl := some.inj h
    exact ⟨_, hall⟩
  split at h
  · obtain rfl := some.inj h
    exact ⟨_, hall⟩
  split at h
  · obtain ⟨cat, hcat, rfl⟩ := map_eq_some_iff.mp h
    exact ⟨_, mem_catTable_of_findCategory hcat⟩
  split at h
  · obtain ⟨cat, hcat, rfl⟩ := map_eq_some_iff.mp h
    exact ⟨_, mem_catTable_of_findCategory hcat⟩
  · cases h

theorem findOwn_known {name : Bytes} {cmd : ℕ × UInt64}
    (h : fam.cmdRegistry.findOwn name = some cmd) : (ChangeKey.command cmd.1 cmd.2).Known fam := by
  obtain ⟨c, hc, rfl⟩ := map_eq_some_iff.mp h
  obtain ⟨hfind, halias⟩ := filter_eq_some_iff.mp hc
  exact ⟨c, mem_of_find?_eq_some hfind, by simpa using halias, rfl, rfl⟩

theorem maybeParseAclCommand_known {res : Sign × ℕ × UInt64}
    (h : maybeParseAclCommand fam.cmdRegistry.toCommandTable command = some res) :
    (ChangeKey.command res.2.1 res.2.2).Known fam := by
  rw [maybeParseAclCommand] at h
  split at h
  · obtain ⟨cmd, hcmd, rfl⟩ := map_eq_some_iff.mp h
    exact findOwn_known hcmd
  split at h
  · obtain ⟨cmd, hcmd, rfl⟩ := map_eq_some_iff.mp h
    exact findOwn_known hcmd
  · cases h

variable {modifier : Modifier} {arg : Bytes}

/-- Each kind of argument is in order. -/
theorem parseModifier_ok {hashed : Bool} (h : parseModifier fam hashed arg = some modifier) :
    modifier.Ok fam := by
  simp only [parseModifier, or_eq_some_iff] at h
  rcases h with h | ⟨-, h | ⟨-, h | ⟨-, h | ⟨-, h | ⟨-, h | ⟨-, h | ⟨-, h⟩⟩⟩⟩⟩⟩⟩ <;>
    obtain ⟨res, hres, rfl⟩ := map_eq_some_iff.mp h
  · trivial
  · exact maybeParseAclKey_ok hres
  · exact maybeParseAclPubSub_ok hres
  · exact maybeParseAclDflySelect_ok hres
  · trivial
  · exact maybeParseAclCategory_known hres
  · trivial
  · exact maybeParseAclCommand_known hres

/-- An argument that is not refused keeps the request in order. -/
theorem UpdateRequest.Ok.extend {st : ParseState} (h : st.req.Ok fam) (hok : modifier.Ok fam)
    (hnone : st.refusal fam arg modifier = none) : (st.extend modifier).req.Ok fam := by
  have hsnoc : ∀ {α : Type} {xs : List α} {x : α} {p : α → Prop}, (∀ y ∈ xs, p y) → p x →
      ∀ y ∈ xs ++ [x], p y := fun hxs hx => forall_mem_append.mpr ⟨hxs, forall_mem_singleton.mpr hx⟩
  cases modifier with
  | password pass => exact ⟨h.updates, h.keys, h.pubSub, h.selectDb⟩
  | key key => exact ⟨h.updates, hsnoc h.keys hok, h.pubSub, h.selectDb⟩
  | pubSub pattern => exact ⟨h.updates, h.keys, hsnoc h.pubSub hok, h.selectDb⟩
  | select db =>
    refine ⟨h.updates, h.keys, h.pubSub, ?_⟩
    rintro _ ⟨⟩
    simp only [ParseState.refusal] at hnone
    split at hnone
    · cases hnone
    split at hnone
    · cases hnone
    next hcluster =>
    rcases hok with hall | ⟨hlt, hword⟩
    · exact Or.inl hall
    · by_cases hmax : db = sizeMax
      · exact Or.inl hmax
      · exact Or.inr ⟨hlt, hword, fun henabled => by
          by_contra hzero
          exact hcluster ⟨henabled, hzero, hmax⟩⟩
  | status isActive => exact ⟨h.updates, h.keys, h.pubSub, h.selectDb⟩
  | category sign cat => exact ⟨hsnoc h.updates hok, h.keys, h.pubSub, h.selectDb⟩
  | ns ns => exact ⟨h.updates, h.keys, h.pubSub, h.selectDb⟩
  | command sign index bit => exact ⟨hsnoc h.updates hok, h.keys, h.pubSub, h.selectDb⟩

theorem UpdateRequest.ok_empty : ({} : UpdateRequest).Ok fam where
  updates _ h := absurd h not_mem_nil
  keys _ h := absurd h not_mem_nil
  pubSub _ h := absurd h not_mem_nil
  selectDb _ h := by cases h

variable {req : UpdateRequest}

/-- **Requests.** A request that was accepted is in order. -/
theorem parseAclSetUser_ok {args : List Bytes} {hashed hasAllKeys hasAllChannels : Bool}
    (h : parseAclSetUser fam args hashed hasAllKeys hasAllChannels = .ok req) : req.Ok fam := by
  obtain ⟨st, hrun, rfl⟩ := parseAclSetUser_eq_ok h
  refine ParseState.run_induction (motive := fun st => st.req.Ok fam) ?_ hrun UpdateRequest.ok_empty
  intro arg _ modifier hmod st hnone hst
  exact hst.extend (parseModifier_ok hmod) hnone

/-! ## §2 Users -/

variable (fam) in
/-- What holds of every user. -/
structure User.Ok (u : User) : Prop where
  rights : u.RightsOk fam
  keyGlobs : ∀ glob ∈ u.keys.keyGlobs, glob.1 ≠ []
  channels : ∀ glob ∈ u.pubSub.globs, ChannelGlobOk glob
  db : DbOk fam u.db

theorem setKeyGlob_ok {keys : AclKeys} (h : ∀ glob ∈ keys.keyGlobs, glob.1 ≠ []) (hok : key.Ok) :
    ∀ glob ∈ (User.setKeyGlob keys key).keyGlobs, glob.1 ≠ [] := by
  rw [User.setKeyGlob]
  split
  · exact forall_mem_nil _
  next hall =>
  split
  · exact forall_mem_nil _
  next hreset =>
  exact forall_mem_append.mpr ⟨h, forall_mem_singleton.mpr
    (hok (not_eq_true _ ▸ hall) (not_eq_true _ ▸ hreset))⟩

theorem setPubSubGlob_ok {pubSub : AclPubSub} (h : ∀ glob ∈ pubSub.globs, ChannelGlobOk glob)
    (hok : pattern.Ok) : ∀ glob ∈ (User.setPubSubGlob pubSub pattern).globs,
      ChannelGlobOk glob := by
  rw [User.setPubSubGlob]
  split
  · exact forall_mem_nil _
  next hall =>
  split
  · exact forall_mem_nil _
  next hreset =>
  exact forall_mem_append.mpr ⟨h, forall_mem_singleton.mpr
    (hok (not_eq_true _ ▸ hall) (not_eq_true _ ▸ hreset))⟩

namespace User

variable {u v : User}

theorem RightsOk.of_eq (h : u.RightsOk fam) (hcommands : v.commands = u.commands)
    (hcats : v.catChanges = u.catChanges) (hcmds : v.cmdChanges = u.cmdChanges)
    (hseq : v.seq = u.seq) :
    v.RightsOk fam := by
  have hchanges : v.changes = u.changes := by rw [changes, changes, hcats, hcmds]
  have hhistory : v.history = u.history := by rw [history, history, hcats, hcmds]
  refine ⟨?_, ?_, ?_, ?_, ?_⟩
  · rw [hcommands, hhistory, h.commands_eq]
  · rw [hchanges, hseq]
    exact h.seq_lt
  · rw [hchanges]
    exact h.nodup
  · rw [hchanges]
    exact h.known
  · rw [hchanges]
    exact h.possible

/-- Rules keep the rights and their history in step. -/
theorem RightsOk.updateRules {rules : List RuleUpdate} (h : u.RightsOk fam)
    (hknown : ∀ rule ∈ rules, rule.key.Known fam)
    (hup : rules.foldlM (User.updateRule fam) u = some v) :
    v.RightsOk fam ∧
      v.commands =
        (rules.map fun rule => (rule.key, rule.sign)).foldl (applyChange fam) u.commands := by
  induction rules generalizing u with
  | nil =>
    obtain rfl := some.inj hup
    exact ⟨h, rfl⟩
  | cons rule rules ih =>
    obtain ⟨mid, hone, hrest⟩ := bind_eq_some_iff.mp hup
    obtain ⟨hmid, hcommands⟩ := h.updateRule (hknown rule mem_cons_self) hone
    obtain ⟨hv, hcommands'⟩ := ih hmid (fun r hr => hknown r (mem_cons_of_mem _ hr)) hrest
    exact ⟨hv, by simp [hcommands', hcommands]⟩

/-- **Updates.** An update by a request that was accepted keeps a user in order. -/
theorem Ok.update (h : u.Ok fam) (hreq : req.Ok fam) (hup : u.update fam req = some v) :
    v.Ok fam := by
  obtain ⟨w, hrules, rfl⟩ := map_eq_some_iff.mp hup
  obtain ⟨hashes, nopass, hpass⟩ := updatePasswords_frame fam req.passwords u
  rw [hpass] at hrules
  have hstart : RightsOk fam { u with passwordHashes := hashes, nopass := nopass } :=
    h.rights.of_eq rfl rfl rfl rfl
  have hw := (hstart.updateRules hreq.updates hrules).1
  obtain ⟨_, _, _, _, _, rfl⟩ := updateRules_frame hrules
  refine ⟨hw.of_eq rfl rfl rfl rfl, ?_, ?_, ?_⟩
  · exact foldlRecOn (motive := fun keys : AclKeys => ∀ glob ∈ keys.keyGlobs, glob.1 ≠ [])
      req.keys setKeyGlob h.keyGlobs fun keys hkeys key hkey =>
        setKeyGlob_ok hkeys (hreq.keys key hkey)
  · exact foldlRecOn (motive := fun pubSub : AclPubSub => ∀ glob ∈ pubSub.globs, ChannelGlobOk glob)
      req.pubSub setPubSubGlob h.channels
      fun pubSub hpubSub pattern hpattern => setPubSubGlob_ok hpubSub (hreq.pubSub pattern hpattern)
  · cases hdb : req.selectDb with
    | none =>
      simp only [updateRest, hdb, getD_none]
      exact h.db
    | some db =>
      simp only [updateRest, hdb, getD_some]
      exact hreq.selectDb db (by rw [hdb]; rfl)

theorem ok_new : (new fam).Ok fam where
  rights := ⟨rfl, forall_mem_nil _, nodup_nil, forall_mem_nil _, forall_mem_nil _⟩
  keyGlobs _ h := absurd h not_mem_nil
  channels _ h := absurd h not_mem_nil
  db := Or.inl rfl

end User

theorem known_catAll : (ChangeKey.category catAll).Known fam := ⟨text "ALL", by decide +kernel⟩

theorem noCommandsRequest_ok : noCommandsRequest.Ok fam where
  updates rule hrule := mem_singleton.mp hrule ▸ known_catAll
  keys _ h := absurd h not_mem_nil
  pubSub _ h := absurd h not_mem_nil
  selectDb _ h := by cases h

theorem defaultUserUpdateRequest_ok : defaultUserUpdateRequest.Ok fam where
  updates rule hrule := mem_singleton.mp hrule ▸ known_catAll
  keys key hkey := mem_singleton.mp hkey ▸ fun hall => by cases hall
  pubSub pattern hpattern := mem_singleton.mp hpattern ▸ fun hall => by cases hall
  selectDb _ h := by cases h

/-! ## §3 Registries -/

namespace Registry

variable (fam) in
/-- All users are in order, and the default user is one of them. -/
structure Ok (reg : Registry) : Prop where
  users : ∀ username u, reg.lookup username = some u → u.Ok fam
  default : (reg.lookup (text "default")).isSome

variable {reg : Registry} {u : User}

theorem Ok.insert (h : reg.Ok fam) (hu : u.Ok fam) (username : Bytes) :
    Ok fam (reg.insert username u) where
  users name v hv := by
    by_cases hname : name = username
    · subst hname
      rw [AList.lookup_insert] at hv
      exact some.inj hv ▸ hu
    · rw [AList.lookup_insert_ne hname] at hv
      exact h.users name v hv
  default := by
    by_cases hname : text "default" = username
    · rw [hname, AList.lookup_insert]
      rfl
    · rw [AList.lookup_insert_ne hname]
      exact h.default

theorem Ok.delUser (h : reg.Ok fam) (usernames : List Bytes) : (reg.delUser usernames).Ok fam := by
  refine foldlRecOn (motive := fun reg : Registry => reg.Ok fam) usernames _ h ?_
  intro reg hreg username _
  split
  · exact hreg
  next hname =>
  refine ⟨fun name v hv => ?_, ?_⟩
  · by_cases heq : name = username
    · rw [heq, AList.lookup_erase] at hv
      cases hv
    · rw [AList.lookup_erase_ne heq] at hv
      exact hreg.users name v hv
  · rw [AList.lookup_erase_ne (Ne.symm hname)]
    exact hreg.default

theorem ok_createUser (hreq : req.Ok fam) (h : createUser fam req = .ok u) : u.Ok fam := by
  rw [createUser] at h
  cases hfirst : (User.new fam).tryUpdate fam noCommandsRequest with
  | error failure =>
    rw [hfirst] at h
    cases h
  | ok v =>
    rw [hfirst] at h
    exact (User.ok_new.update noCommandsRequest_ok (User.tryUpdate_eq_ok hfirst)).update hreq
      (User.tryUpdate_eq_ok h)

/-- **Reachable registries.** All users that the commands lead to are in order. -/
theorem Reachable.ok (h : Reachable fam reg) : reg.Ok fam := by
  induction h with
  | init hinit =>
    rw [Registry.init] at hinit
    cases hup : (User.new fam).tryUpdate fam defaultUserUpdateRequest with
    | error failure =>
      rw [hup] at hinit
      cases hinit
    | ok u =>
      rw [hup] at hinit
      obtain rfl := Except.ok.inj hinit
      have hu := User.ok_new.update defaultUserUpdateRequest_ok (User.tryUpdate_eq_ok hup)
      refine ⟨fun name v hv => ?_, ?_⟩
      · by_cases hname : name = text "default"
        · rw [hname, AList.lookup_insert] at hv
          exact some.inj hv ▸ hu
        · rw [AList.lookup_insert_ne hname] at hv
          cases hv
      · rw [AList.lookup_insert]
        rfl
  | @setUser reg reg' username args _ hset ih =>
    cases hlookup : reg.lookup username with
    | some u =>
      obtain ⟨req, v, hparse, hup, rfl⟩ := setUser_eq_ok hlookup hset
      exact ih.insert
        ((ih.users username u hlookup).update (parseAclSetUser_ok hparse) hup) username
    | none =>
      simp only [Registry.setUser, hlookup] at hset
      split at hset
      · cases hset
      next req hparse =>
      cases hcreate : createUser fam req with
      | error failure =>
        rw [hcreate] at hset
        cases hset
      | ok v =>
        rw [hcreate] at hset
        obtain rfl := Except.ok.inj hset
        exact ih.insert (ok_createUser (parseAclSetUser_ok hparse) hcreate) username
  | delUser usernames _ ih => exact ih.delUser usernames

end Registry

end Drakeydb.Acl
