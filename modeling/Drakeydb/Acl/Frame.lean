import Drakeydb.Acl.Registry

/-!
# What an update leaves alone

An argument of `ACL SETUSER` is about one attribute of the user. What no argument is about should be
as it was. This holds for all attributes but one: the namespace is taken from the request, where it
is empty unless an argument gives it.
-/

namespace Drakeydb.Acl

open Lib.Ascii List Option

/-! ## §1 Attributes -/

inductive Attribute
  | commands
  | keys
  | channels
  | passwords
  | active
  | db
  | ns
deriving DecidableEq

def Modifier.attribute : Modifier → Attribute
  | .password _ => .passwords
  | .key _ => .keys
  | .pubSub _ => .channels
  | .select _ => .db
  | .status _ => .active
  | .category _ _ => .commands
  | .ns _ => .ns
  | .command _ _ _ => .commands

variable (fam : AclFamily)

/-- Some argument of the list is about the attribute. -/
def Mentions (args : List Bytes) (attr : Attribute) : Prop :=
  ∃ arg ∈ args, ∃ modifier, parseModifier fam false arg = some modifier ∧ modifier.attribute = attr

/-- Two users agree in an attribute. -/
def Attribute.Same (u v : User) : Attribute → Prop
  | .commands => u.commands = v.commands ∧ u.aclCategories = v.aclCategories ∧
      u.catChanges = v.catChanges ∧ u.cmdChanges = v.cmdChanges ∧ u.seq = v.seq
  | .keys => u.keys = v.keys
  | .channels => u.pubSub = v.pubSub
  | .passwords => u.passwordHashes = v.passwordHashes ∧ u.nopass = v.nopass
  | .active => u.isActive = v.isActive
  | .db => u.db = v.db
  | .ns => u.ns = v.ns

theorem Attribute.Same.refl (u : User) (attr : Attribute) : attr.Same u u := by
  cases attr <;> simp [Same]

variable {attr : Attribute}

theorem Attribute.Same.trans {u v w : User} (huv : attr.Same u v) (hvw : attr.Same v w) :
    attr.Same u w := by
  cases attr with
  | commands =>
    obtain ⟨h1, h2, h3, h4, h5⟩ := huv
    obtain ⟨k1, k2, k3, k4, k5⟩ := hvw
    exact ⟨h1.trans k1, h2.trans k2, h3.trans k3, h4.trans k4, h5.trans k5⟩
  | passwords => exact ⟨huv.1.trans hvw.1, huv.2.trans hvw.2⟩
  | keys | channels | active | db | ns => exact Eq.trans huv hvw

/-- The request says nothing about the attribute. -/
def Attribute.Silent (req : UpdateRequest) : Attribute → Prop
  | .commands => req.updates = []
  | .keys => req.keys = []
  | .channels => req.pubSub = []
  | .passwords => req.passwords = []
  | .active => req.isActive = none
  | .db => req.selectDb = none
  | .ns => req.ns = []

/-! ## §2 The request -/

variable {fam}

theorem Attribute.Silent.extend {modifier : Modifier} {st : ParseState}
    (h : attr.Silent st.req) (hother : modifier.attribute ≠ attr) : attr.Silent
    (st.extend modifier).req := by
  cases modifier <;> cases attr <;> first | exact h | exact absurd rfl hother

variable {req : UpdateRequest} {args : List Bytes}

/-- A request says nothing about what its arguments do not mention. -/
theorem silent_of_parseAclSetUser {hasAllKeys hasAllChannels : Bool}
    (hnot : ¬Mentions fam args attr)
    (hparse : parseAclSetUser fam args false hasAllKeys hasAllChannels = .ok req) :
      attr.Silent req := by
  obtain ⟨st, hrun, rfl⟩ := parseAclSetUser_eq_ok hparse
  have hstart : attr.Silent ({} : UpdateRequest) := by cases attr <;> rfl
  refine ParseState.run_induction (motive := fun st => attr.Silent st.req) ?_ hrun hstart
  intro arg harg modifier hmod st _ hst
  exact hst.extend fun hattr => hnot ⟨arg, harg, modifier, hmod, hattr⟩

/-! ## §3 The update -/

namespace User

theorem updatePassword_frame (fam : AclFamily) (u : User) (pass : UpdatePass) :
    ∃ hashes nopass, updatePassword fam u pass =
      { u with passwordHashes := hashes, nopass := nopass } := by
  rw [updatePassword]
  split
  · exact ⟨_, _, rfl⟩
  split
  · exact ⟨_, _, rfl⟩
  split
  · exact ⟨_, _, rfl⟩
  · rw [setPasswordHash]
    split
    · split
      · exact ⟨_, _, rfl⟩
      · exact ⟨_, _, rfl⟩
    · exact ⟨_, _, rfl⟩

theorem updatePasswords_frame (fam : AclFamily) (passwords : List UpdatePass) (u : User) :
    ∃ hashes nopass, passwords.foldl (updatePassword fam) u =
      { u with passwordHashes := hashes, nopass := nopass } := by
  induction passwords generalizing u with
  | nil => exact ⟨_, _, rfl⟩
  | cons pass passwords ih =>
    obtain ⟨hashes, nopass, hone⟩ := updatePassword_frame fam u pass
    obtain ⟨hashes', nopass', hrest⟩ := ih (updatePassword fam u pass)
    refine ⟨hashes', nopass', ?_⟩
    rw [foldl_cons, hrest, hone]

variable {u v : User}

/-- A rule changes rights only. -/
theorem updateRule_frame {rule : RuleUpdate} (h : u.updateRule fam rule = some v) :
    ∃ cats commands catChanges cmdChanges seq, v = { u with
      aclCategories := cats, commands := commands, catChanges :=
        catChanges, cmdChanges := cmdChanges
      seq := seq } := by
  cases rule with
  | category sign cat =>
    obtain ⟨commands, -, rfl⟩ := map_eq_some_iff.mp h
    exact ⟨_, _, _, _, _, rfl⟩
  | command sign index bit =>
    obtain rfl := some.inj h
    exact ⟨_, _, _, _, _, rfl⟩

theorem updateRules_frame {rules : List RuleUpdate} (h : rules.foldlM (updateRule fam) u = some v) :
    ∃ cats commands catChanges cmdChanges seq, v = { u with
      aclCategories := cats, commands := commands, catChanges :=
        catChanges, cmdChanges := cmdChanges
      seq := seq } := by
  induction rules generalizing u with
  | nil =>
    obtain rfl := some.inj h
    exact ⟨_, _, _, _, _, rfl⟩
  | cons rule rules ih =>
    obtain ⟨mid, hone, hrest⟩ := bind_eq_some_iff.mp h
    obtain ⟨_, _, _, _, _, rfl⟩ := updateRule_frame hone
    obtain ⟨_, _, _, _, _, rfl⟩ := ih hrest
    exact ⟨_, _, _, _, _, rfl⟩

/-- **One update.** What the request says nothing about is the same, unless it is the namespace. -/
theorem update_same (h : u.update fam req = some v) {attr : Attribute} (hsilent : attr.Silent req)
    (hns : attr ≠ .ns) : attr.Same u v := by
  obtain ⟨w, hrules, rfl⟩ := map_eq_some_iff.mp h
  obtain ⟨hashes, nopass, hpass⟩ := updatePasswords_frame fam req.passwords u
  cases attr with
  | ns => exact absurd rfl hns
  | commands =>
    have hnone : req.updates = [] := hsilent
    rw [hnone, hpass] at hrules
    obtain rfl := some.inj hrules
    exact ⟨rfl, rfl, rfl, rfl, rfl⟩
  | passwords =>
    have hnone : req.passwords = [] := hsilent
    rw [hnone] at hrules
    obtain ⟨_, _, _, _, _, rfl⟩ := updateRules_frame hrules
    exact ⟨rfl, rfl⟩
  | keys | channels | active | db =>
    rw [hpass] at hrules
    obtain ⟨_, _, _, _, _, rfl⟩ := updateRules_frame hrules
    rw [Attribute.Silent] at hsilent
    simp only [Attribute.Same, updateRest, hsilent, foldl_nil, getD_none]

theorem update_ns (h : u.update fam req = some v) : v.ns = req.ns := by
  obtain ⟨w, -, rfl⟩ := map_eq_some_iff.mp h
  rfl

end User

/-! ## §4 A series of updates -/

theorem User.tryUpdate_eq_ok {u v : User} (h : u.tryUpdate fam req = .ok v) :
    u.update fam req = some v := by
  rw [tryUpdate] at h
  split at h
  · next w hw => rw [hw, Except.ok.inj h]
  · cases h

namespace Registry

variable {reg reg' : Registry} {username : Bytes} {u : User}

/-- What a successful `ACL SETUSER` of a known user does. -/
theorem setUser_eq_ok (hu : reg.lookup username = some u)
    (h : reg.setUser fam username args = .ok reg') :
    ∃ req v, parseAclSetUser fam args false u.keys.allKeys false = .ok req ∧
      u.update fam req = some v ∧ reg' = reg.insert username v := by
  simp only [setUser, hu, map_some, getD_some] at h
  split at h
  · cases h
  next req hparse =>
  cases hup : u.tryUpdate fam req with
  | error failure =>
    rw [hup] at h
    cases h
  | ok v =>
    rw [hup] at h
    exact ⟨req, v, hparse, User.tryUpdate_eq_ok hup, (Except.ok.inj h).symm⟩

variable (fam) in
/-- A series of commands for one user. -/
def setUserAll (username : Bytes) (reg : Registry) (argss : List (List Bytes)) :
    Except Failure Registry :=
  argss.foldlM (fun reg args => reg.setUser fam username args) reg

theorem setUser_same (hu : reg.lookup username = some u)
    (h : reg.setUser fam username args = .ok reg') :
    ∃ v, reg'.lookup username = some v ∧
      (∀ attr, ¬Mentions fam args attr → attr ≠ .ns → attr.Same u v) ∧
      (¬Mentions fam args .ns → v.ns = []) := by
  obtain ⟨req, v, hparse, hup, rfl⟩ := setUser_eq_ok hu h
  refine ⟨v, AList.lookup_insert reg, fun attr hnot hns => ?_, fun hnot => ?_⟩
  · exact User.update_same hup (silent_of_parseAclSetUser hnot hparse) hns
  · have hsilent : Attribute.Silent req .ns := silent_of_parseAclSetUser hnot hparse
    exact (User.update_ns hup).trans hsilent

/-- What a series of commands leaves alone. The namespace is lost with the first of them. -/
theorem setUserAll_same {argss : List (List Bytes)} (hu : reg.lookup username = some u)
    (h : setUserAll fam username reg argss = .ok reg') :
    ∃ v, reg'.lookup username = some v ∧
      (∀ attr, (∀ args ∈ argss, ¬Mentions fam args attr) → attr ≠ .ns → attr.Same u v) ∧
      ((∀ args ∈ argss, ¬Mentions fam args .ns) → v.ns = if argss = [] then u.ns else []) := by
  induction argss generalizing reg u with
  | nil =>
    obtain rfl := Except.ok.inj h
    exact ⟨u, hu, fun attr _ _ => .refl u attr, fun _ => rfl⟩
  | cons args argss ih =>
    rw [setUserAll, foldlM_cons] at h
    cases hone : reg.setUser fam username args with
    | error failure =>
      rw [hone] at h
      cases h
    | ok mid =>
      rw [hone] at h
      obtain ⟨w, hw, hsame, hns⟩ := setUser_same hu hone
      obtain ⟨v, hv, hsame', hns'⟩ := ih hw h
      refine ⟨v, hv, fun attr hnot hattr => ?_, fun hnot => ?_⟩
      · exact (hsame attr (hnot args mem_cons_self) hattr).trans
          (hsame' attr (fun args' hargs => hnot args' (mem_cons_of_mem _ hargs)) hattr)
      · rw [hns' fun args' hargs => hnot args' (mem_cons_of_mem _ hargs),
          hns (hnot args mem_cons_self)]
        simp

/-- **Updates and what they mention.** A series of accepted updates leaves alone every attribute
that none of them mentions exactly if the user was in no namespace, or one of them names it. -/
theorem unmentioned_same_iff {reg reg' : Registry} {username : Bytes}
    {argss : List (List Bytes)} {u : User}
    (hu : reg.lookup username = some u) (h : setUserAll fam username reg argss = .ok reg') :
    ∃ v, reg'.lookup username = some v ∧
      ((∀ attr, (∀ args ∈ argss, ¬Mentions fam args attr) → attr.Same u v) ↔
        argss = [] ∨ u.ns = [] ∨ ∃ args ∈ argss, Mentions fam args .ns) := by
  obtain ⟨v, hv, hsame, hns⟩ := setUserAll_same hu h
  refine ⟨v, hv, fun hall => ?_, fun hcond attr hnot => ?_⟩
  · by_contra hneither
    push Not at hneither
    obtain ⟨hne, huns, hnot⟩ := hneither
    have hkept : u.ns = v.ns := hall .ns hnot
    rw [hns hnot, if_neg hne] at hkept
    exact huns hkept
  · by_cases hattr : attr = .ns
    · subst hattr
      show u.ns = v.ns
      rw [hns hnot]
      rcases hcond with rfl | huns | ⟨args, hargs, hment⟩
      · rfl
      · simp [huns]
      · exact absurd hment (hnot args hargs)
    · exact hsame attr hnot hattr

/-- A server with one command. -/
def memoryFamily : AclFamily :=
  ⟨⟨CommandTable.memoryTable, CommandTable.built_memoryTable.ok⟩, 16, false, id⟩

/-- A user with a password, a command, a pattern for keys and a namespace. -/
def sampleUser (ns : Bytes) : User where
  passwordHashes := [text "secret"]
  commands := [1]
  keys := ⟨[(text "a", .read)], false⟩
  ns := ns

/-- A user without a namespace keeps everything else when it is switched on. -/
theorem unmentioned_same_on :
    ∃ reg', setUserAll memoryFamily (text "u") ((∅ : Registry).insert (text "u") (sampleUser []))
        [[text "on"]] = .ok reg' ∧
      ∃ v, reg'.lookup (text "u") = some v ∧
        ∀ attr, (∀ args ∈ [[text "on"]], ¬Mentions memoryFamily args attr) →
          attr.Same (sampleUser []) v := by
  have hrun : ∃ reg',
    setUserAll memoryFamily (text "u") ((∅ : Registry).insert (text "u") (sampleUser []))
      [[text "on"]] = .ok reg' := ⟨_, rfl⟩
  obtain ⟨reg', hrun⟩ := hrun
  obtain ⟨v, hv, hiff⟩ := unmentioned_same_iff (AList.lookup_insert (∅ : Registry)) hrun
  exact ⟨reg', hrun, v, hv, hiff.mpr (Or.inr (Or.inl rfl))⟩

/-- A user leaves its namespace when it is switched on. -/
theorem namespace_lost_on :
    ∃ reg',
      setUserAll memoryFamily (text "u") ((∅ : Registry).insert (text "u") (sampleUser (text "NS")))
        [[text "on"]] = .ok reg' ∧
      (reg'.getCredentials (text "u")).map UserCredentials.ns = some [] ∧
      (sampleUser (text "NS")).ns ≠ [] ∧ ¬Mentions memoryFamily [text "on"] .ns := by
  refine ⟨_, rfl, rfl, by decide, ?_⟩
  rintro ⟨arg, harg, modifier, hparse, hattr⟩
  obtain rfl := mem_singleton.mp harg
  have hstatus : parseModifier memoryFamily false (text "on") = some (.status true) := by
    decide +kernel
  obtain rfl := some.inj (hstatus.symm.trans hparse)
  cases hattr

end Registry

end Drakeydb.Acl
