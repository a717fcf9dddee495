import Drakeydb.Lib.Run

/-!
# Peer identities and the sync gate

`server/peer_replication.cc`: which link owns the identity of a peer, and the gate that lets one
link at a time run its full sync.
-/

namespace Drakeydb.Journal

open Function List

/-! ## §1 Peer identities -/

/-- What a link holds: established once its handshake is done. -/
structure Claim where
  ownerId : UInt64
  established : Bool

/-- `owners_by_uuid_` and `uuids_by_owner_`. -/
structure PeerIdentityClaims where
  ownersByUuid : String → Option Claim
  uuidsByOwner : UInt64 → Option String

namespace PeerIdentityClaims

def empty : PeerIdentityClaims := ⟨fun _ => none, fun _ => none⟩

variable (c : PeerIdentityClaims) (ownerId : UInt64) (uuid : String)

/-- `ReleaseLocked`: drops the claim of a link, if it has one. -/
def release : PeerIdentityClaims :=
  match c.uuidsByOwner ownerId with
  | none => c
  | some uuid =>
    ⟨if (c.ownersByUuid uuid).any (·.ownerId = ownerId) then update c.ownersByUuid uuid none
      else c.ownersByUuid, update c.uuidsByOwner ownerId none⟩

/-- `TryClaim`: refused, with the claim the link had released, if another link owns the peer. -/
def tryClaim : PeerIdentityClaims × Bool :=
  if (c.ownersByUuid uuid).any (·.ownerId ≠ ownerId) then (c.release ownerId, false)
  else
    let owners := match c.uuidsByOwner ownerId with
      | none => c.ownersByUuid
      | some previous =>
        if previous = uuid then c.ownersByUuid else update c.ownersByUuid previous none
    -- a claim starts as not established, also one that the link has already
    (⟨update owners uuid (some ⟨ownerId, false⟩), update c.uuidsByOwner ownerId (some uuid)⟩, true)

/-- `MarkEstablished`: a no-op for a link without a claim. -/
def markEstablished : PeerIdentityClaims :=
  match c.uuidsByOwner ownerId with
  | none => c
  | some uuid =>
    { c with ownersByUuid := update c.ownersByUuid uuid ((c.ownersByUuid uuid).map fun claim =>
        if claim.ownerId = ownerId then { claim with established := true } else claim) }

inductive Op
  | tryClaim (ownerId : UInt64) (uuid : String)
  | release (ownerId : UInt64)
  | markEstablished (ownerId : UInt64)

def step (c : PeerIdentityClaims) : Op → PeerIdentityClaims
  | .tryClaim ownerId uuid => (c.tryClaim ownerId uuid).1
  | .release ownerId => c.release ownerId
  | .markEstablished ownerId => c.markEstablished ownerId

/-- The link that owns a peer. -/
def owner : Option UInt64 := (c.ownersByUuid uuid).map Claim.ownerId

/-- Each map is the inverse of the other. -/
def Inverse : Prop := ∀ uuid ownerId, c.owner uuid = some ownerId ↔
    c.uuidsByOwner ownerId = some uuid

variable {c} {ownerId} {uuid}

/-- A release takes the peer of the link and no other. -/
theorem Inverse.owners_release (h : c.Inverse) (uuid' : String) :
    (c.release ownerId).ownersByUuid uuid' =
    if c.uuidsByOwner ownerId = some uuid' then none else c.ownersByUuid uuid' := by
  cases howner : c.uuidsByOwner ownerId with
  | none => simp [release, howner]
  | some uuid =>
    obtain ⟨claim, hclaim, rfl⟩ := Option.map_eq_some_iff.mp ((h uuid ownerId).mpr howner)
    simp [release, howner, hclaim, update_apply, eq_comm]

theorem uuids_release (ownerId' : UInt64) :
    (c.release ownerId).uuidsByOwner ownerId' = if ownerId' = ownerId then none
      else c.uuidsByOwner ownerId' := by
  cases howner : c.uuidsByOwner ownerId <;> simp only [release, howner, update_apply]
  grind

theorem Inverse.release (h : c.Inverse) (ownerId : UInt64) : (c.release ownerId).Inverse := by
  intro uuid ownerId'
  have hown := h uuid ownerId
  have hown' := h uuid ownerId'
  rw [owner, h.owners_release, uuids_release]
  rw [owner] at hown hown'
  grind

/-- `TryClaim` is refused if and only if another link owns the peer. -/
theorem tryClaim_eq_false_iff :
    (c.tryClaim ownerId uuid).2 = false ↔ ∃ other, c.owner uuid = some other ∧ other ≠ ownerId := by
  unfold PeerIdentityClaims.tryClaim owner
  cases c.ownersByUuid uuid with
  | none => simp
  | some claim => by_cases hsame : claim.ownerId = ownerId <;> simp [hsame]

theorem tryClaim_refused (hrefused : (c.tryClaim ownerId uuid).2 = false) :
    (c.tryClaim ownerId uuid).1 = c.release ownerId := by
  unfold PeerIdentityClaims.tryClaim at hrefused ⊢
  split
  · rfl
  case isFalse hfree =>
    rw [if_neg hfree] at hrefused
    cases hrefused

/-- A claim that is granted moves the link from the peer it had to the new one. -/
theorem tryClaim_granted (hgranted : (c.tryClaim ownerId uuid).2 = true) :
    (∀ uuid', (c.tryClaim ownerId uuid).1.owner uuid' = if uuid' = uuid then some ownerId
      else if c.uuidsByOwner ownerId = some uuid' then none else c.owner uuid') ∧
    (c.tryClaim ownerId uuid).1.uuidsByOwner = update c.uuidsByOwner ownerId (some uuid) := by
  unfold PeerIdentityClaims.tryClaim at hgranted ⊢
  split
  case isTrue htaken =>
    rw [if_pos htaken] at hgranted
    cases hgranted
  case isFalse =>
    refine ⟨fun uuid' => ?_, rfl⟩
    dsimp only [owner]
    rw [update_apply]
    split
    · rfl
    case isFalse hne =>
      cases hprev : c.uuidsByOwner ownerId with
      | none => rfl
      | some previous =>
        dsimp only
        by_cases hsame : previous = uuid
        · simp [hsame, Ne.symm hne]
        · rw [if_neg hsame, update_apply]
          by_cases hold : uuid' = previous
          · simp [hold]
          · simp [hold, Ne.symm hold]

theorem Inverse.tryClaim (h : c.Inverse) : (c.tryClaim ownerId uuid).1.Inverse := by
  cases hresult : (c.tryClaim ownerId uuid).2 with
  | false =>
    rw [tryClaim_refused hresult]
    exact h.release ownerId
  | true =>
    have hfree : ∀ other, c.owner uuid = some other → other = ownerId := by
      intro other howner
      by_contra hne
      cases hresult.symm.trans (tryClaim_eq_false_iff.mpr ⟨other, howner, hne⟩)
    obtain ⟨howners, huuids⟩ := tryClaim_granted hresult
    intro uuid' ownerId'
    have hown := h uuid' ownerId
    have hown' := h uuid' ownerId'
    -- a link has one peer before and after, and the peer it gets was free or its own
    rw [howners, huuids, update_apply]
    grind

/-- Owners stay when a claim is established. -/
theorem Inverse.markEstablished (h : c.Inverse) : (c.markEstablished ownerId).Inverse := by
  unfold PeerIdentityClaims.markEstablished
  split
  · exact h
  case h_2 uuid _ =>
    intro uuid' ownerId'
    rw [← h uuid' ownerId']
    dsimp only [owner]
    rw [update_apply]
    split
    case isTrue heq =>
      subst heq
      cases c.ownersByUuid uuid' with
      | none => rfl
      | some claim => by_cases hsame : claim.ownerId = ownerId <;> simp [hsame]
    · rfl

/-- Each map stays the inverse of the other. -/
theorem Inverse.step (h : c.Inverse) (op : Op) : (c.step op).Inverse := by
  cases op with
  | tryClaim => exact h.tryClaim
  | release ownerId => exact h.release ownerId
  | markEstablished => exact h.markEstablished

theorem inverse_foldl (ops : List Op) : (ops.foldl step empty).Inverse :=
  foldlRecOn (motive := Inverse) ops step (by simp [Inverse, owner, empty]) fun _ h op _ =>
    h.step op

end PeerIdentityClaims

/-! ## §2 The sync gate -/

/-- The state of the gate: whether a lease is out, and the tickets that wait for one. -/
structure SyncGate where
  held : Bool := false
  nextTicket : ℕ := 0
  waiters : List ℕ := []

/-- A call of `Acquire`, and the lease it returned. -/
inductive Caller
  | waiting (ticket : ℕ)
  | holds
  | released
  | cancelled

/-- One round of the loop in `Acquire`, under the lock. -/
def SyncGate.poll (g : SyncGate) (ticket : ℕ) (cancelled externalLoading : Bool) :
    SyncGate × Caller :=
  if cancelled then ({ g with waiters := g.waiters.erase ticket }, .cancelled)
  else if !g.held && g.waiters.head? == some ticket && !externalLoading then
    ({ g with waiters := g.waiters.tail, held := true }, .holds)
  else (g, .waiting ticket)

/-- The gate with the calls of `Acquire` so far. -/
structure GateRun where
  gate : SyncGate := {}
  callers : List Caller := []

inductive GateEvent
  | acquire
  | poll (caller : ℕ) (cancelled externalLoading : Bool)
  | release (caller : ℕ)

namespace GateRun

/-- A call polls while it waits, and a lease is released once. -/
def step (s : GateRun) : GateEvent → Option GateRun
  | .acquire =>
    let ticket := s.gate.nextTicket
    some ⟨{ s.gate with nextTicket := ticket + 1, waiters := s.gate.waiters ++ [ticket] },
      s.callers ++ [.waiting ticket]⟩
  | .poll i cancelled externalLoading =>
    match s.callers[i]? with
    | some (.waiting ticket) =>
      let r := s.gate.poll ticket cancelled externalLoading
      some ⟨r.1, s.callers.set i r.2⟩
    | _ => none
  | .release i =>
    match s.callers[i]? with
    | some .holds => some ⟨{ s.gate with held := false }, s.callers.set i .released⟩
    | _ => none

/-- The queue has the calls that still wait, in the order of arrival; one call at most has the
lease; and no call waits that came before one which got it. -/
structure Inv (s : GateRun) : Prop where
  next : s.gate.nextTicket = s.callers.length
  ticket : ∀ i t : ℕ, s.callers[i]? = some (.waiting t) → t = i
  waits : ∀ i : ℕ, i ∈ s.gate.waiters ↔ s.callers[i]? = some (.waiting i)
  sorted : s.gate.waiters.Pairwise (· < ·)
  held : s.gate.held = true ↔ ∃ i : ℕ, s.callers[i]? = some .holds
  single : ∀ i j : ℕ, s.callers[i]? = some .holds → s.callers[j]? = some .holds → i = j
  order : ∀ i j : ℕ, s.callers[j]? = some .holds ∨ s.callers[j]? = some .released → i < j →
    s.callers[i]? ≠ some (.waiting i)

variable {s s' : GateRun} {event : GateEvent}

/-- A call that arrives goes to the end of the queue. -/
theorem Inv.acquire (h : s.Inv) :
    Inv ⟨{ s.gate with
        nextTicket := s.gate.nextTicket + 1, waiters := s.gate.waiters ++ [s.gate.nextTicket] },
      s.callers ++ [.waiting s.gate.nextTicket]⟩ := by
  rw [h.next]
  obtain ⟨-, hticket, hwaits, hsorted, hheld, hsingle, horder⟩ := h
  -- the calls are those before and the new one, which waits
  have hcall (i : ℕ) : (s.callers ++ [.waiting s.callers.length])[i]? =
      if i = s.callers.length then some (.waiting i) else s.callers[i]? := by
    grind
  have hlt (i : ℕ) (hi : i ∈ s.gate.waiters) : i < s.callers.length :=
    (List.getElem?_eq_some_iff.mp ((hwaits i).mp hi)).1
  constructor <;> simp only [hcall]
  case next => simp
  case ticket => grind
  case waits => grind
  case sorted => exact pairwise_append.mpr ⟨hsorted, pairwise_singleton .., by simpa using hlt⟩
  case held => grind
  case single => grind
  case order => grind

/-- A call that waits no more leaves the queue. If it gets the lease nobody has it, and if it has or
had it nobody that came before it waits. -/
theorem Inv.set (h : s.Inv) {i : ℕ} {x : Caller} {g : SyncGate} (hi : i < s.callers.length)
    (hx : ∀ t, x ≠ .waiting t) (hnext : g.nextTicket = s.gate.nextTicket)
    (hwaiters : g.waiters = s.gate.waiters.erase i)
    (hheld : g.held = true ↔ x = .holds ∨ ∃ j ≠ i, s.callers[j]? = some .holds)
    (hsingle : x = .holds → ∀ j : ℕ, s.callers[j]? ≠ some .holds)
    (horder : x = .holds ∨ x = .released → ∀ j < i, s.callers[j]? ≠ some (.waiting j)) :
    Inv ⟨g, s.callers.set i x⟩ := by
  obtain ⟨hlen, hticket, hwaits, hsorted, -, hsingle', horder'⟩ := h
  have hcall (j : ℕ) : (s.callers.set i x)[j]? = if j = i then some x else s.callers[j]? := by
    grind
  have hnodup : s.gate.waiters.Nodup := hsorted.imp Nat.ne_of_lt
  constructor <;> simp only [hcall]
  case next => rw [hnext, hlen, length_set]
  case ticket => grind
  case waits =>
    intro j
    rw [hwaiters, hnodup.mem_erase_iff, hwaits]
    grind
  case sorted => exact hwaiters ▸ hsorted.sublist erase_sublist
  case held => grind
  case single => grind
  case order => grind

/-- One round of a waiting call: it leaves the queue, gets the lease as the first of it, or waits
on. -/
theorem Inv.poll (h : s.Inv) {i : ℕ} (hi : s.callers[i]? = some (.waiting i))
    (cancelled externalLoading : Bool) :
    Inv ⟨(s.gate.poll i cancelled externalLoading).1,
      s.callers.set i (s.gate.poll i cancelled externalLoading).2⟩ := by
  have hlt := (List.getElem?_eq_some_iff.mp hi).1
  have hne {j : ℕ} (hj : s.callers[j]? = some .holds) : j ≠ i := by
    rintro rfl
    cases hi.symm.trans hj
  unfold SyncGate.poll
  split
  · refine h.set hlt nofun rfl rfl ?_ nofun nofun
    rw [h.held]
    simp only [reduceCtorEq, false_or]
    exact exists_congr fun j => ⟨fun hj => ⟨hne hj, hj⟩, And.right⟩
  · split
    case isTrue hgrant =>
      simp only [Bool.and_eq_true, Bool.not_eq_true', beq_iff_eq, head?_eq_some_iff] at hgrant
      obtain ⟨⟨hfree, rest, hrest⟩, -⟩ := hgrant
      have hnobody : ∀ j : ℕ, s.callers[j]? ≠ some .holds := by
        intro j hj
        cases hfree.symm.trans (h.held.mpr ⟨j, hj⟩)
      refine h.set hlt nofun rfl (by simp [hrest]) (by simp)
        (fun _ => hnobody) fun _ j hj hwaits => ?_
      -- the queue is in the order of arrival, and this call is its first
      have hmem : j ∈ i :: rest := hrest ▸ (h.waits j).mpr hwaits
      rcases mem_cons.mp hmem with rfl | hmem
      · exact Nat.lt_irrefl _ hj
      · exact Nat.lt_asymm hj (rel_of_pairwise_cons (hrest ▸ h.sorted) hmem)
    · have hsame : s.callers.set i (.waiting i) = s.callers := by
        rw [← (List.getElem?_eq_some_iff.mp hi).2, set_getElem_self]
      rw [hsame]
      exact h

theorem Inv.release (h : s.Inv) {i : ℕ} (hi : s.callers[i]? = some .holds) :
    Inv ⟨{ s.gate with held := false }, s.callers.set i .released⟩ := by
  refine h.set (List.getElem?_eq_some_iff.mp hi).1 nofun rfl ?_ ?_ nofun fun _ j hj =>
    h.order j i (.inl hi) hj
  · refine (erase_of_not_mem fun hmem => ?_).symm
    cases hi.symm.trans ((h.waits i).mp hmem)
  · simp only [Bool.false_eq_true, reduceCtorEq, false_or, false_iff, not_exists, not_and]
    exact fun j hne hj => hne (h.single j i hj hi)

/-- Every event keeps one lease at most and the queue in order of arrival. -/
theorem Inv.step (h : s.Inv) (hstep : s.step event = some s') : s'.Inv := by
  cases event with
  | acquire =>
    obtain rfl := Option.some.inj hstep
    exact h.acquire
  | poll i cancelled externalLoading =>
    simp only [GateRun.step] at hstep
    split at hstep
    case h_2 => cases hstep
    case h_1 ticket hi =>
      -- a ticket is the number of its call
      obtain rfl := h.ticket i ticket hi
      obtain rfl := Option.some.inj hstep
      exact h.poll hi cancelled externalLoading
  | release i =>
    simp only [GateRun.step] at hstep
    split at hstep
    case h_2 => cases hstep
    case h_1 hi =>
      obtain rfl := Option.some.inj hstep
      exact h.release hi

/-- **Peers**: after any claims and releases each map of the claims is the inverse of the other, no
peer has two links, a release takes nothing but the caller's own claim, and a claim is refused
exactly if another link owns the peer, which then keeps it. Along any run of the gate the queue and
the lease are as `Inv` says, and while the gate is free the first of the queue gets the lease when
it polls. -/
theorem peers_run :
    (∀ ops : List PeerIdentityClaims.Op, let c := ops.foldl PeerIdentityClaims.step .empty
      c.Inverse ∧
      (∀ uuid a b, c.uuidsByOwner a = some uuid → c.uuidsByOwner b = some uuid → a = b) ∧
      (∀ ownerId uuid, c.owner uuid ≠ some ownerId →
        (c.release ownerId).ownersByUuid uuid = c.ownersByUuid uuid) ∧
      (∀ ownerId, c.uuidsByOwner ownerId = none → c.release ownerId = c) ∧
      ∀ ownerId uuid, let r := c.tryClaim ownerId uuid
        (r.2 = false ↔ ∃ other, c.owner uuid = some other ∧ other ≠ ownerId) ∧
        (r.2 = false → r.1 = c.release ownerId) ∧ (r.2 = true → r.1.owner uuid = some ownerId)) ∧
    ∀ events s, Lib.run step {} events = some s → s.Inv ∧
      ∀ i rest, s.gate.waiters = i :: rest → s.gate.held = false →
        ∃ s', s.step (.poll i false false) = some s' ∧ s'.callers = s.callers.set i .holds := by
  refine ⟨fun ops => ?_, fun events s hrun => ?_⟩
  · have h := PeerIdentityClaims.inverse_foldl ops
    refine ⟨h, fun uuid a b ha hb => ?_, fun ownerId uuid hne => ?_, fun ownerId hnone => ?_,
      fun ownerId uuid =>
        ⟨PeerIdentityClaims.tryClaim_eq_false_iff, PeerIdentityClaims.tryClaim_refused,
        fun hgranted => ?_⟩⟩
    · rw [← h] at ha hb
      exact Option.some.inj (ha.symm.trans hb)
    · rw [h.owners_release, if_neg (mt (h uuid ownerId).mpr hne)]
    · rw [PeerIdentityClaims.release, hnone]
    · rw [(PeerIdentityClaims.tryClaim_granted hgranted).1, if_pos rfl]
  · have h : s.Inv :=
      Lib.inv_of_run (fun _ _ _ => Inv.step)
        ⟨rfl, by simp, by simp, .nil, by simp, by simp, by simp⟩ hrun
    refine ⟨h, fun i rest hqueue hfree => ?_⟩
    have hi := (h.waits i).mp (by simp [hqueue])
    simp [GateRun.step, SyncGate.poll, hi, hqueue, hfree]

/-- The first call is cancelled, and the second has the lease. -/
theorem peers_run_cancelled :
    ∃ s, Lib.run step {} [.acquire, .acquire, .poll 0 true false, .poll 1 false false] = some s ∧
      s.callers = [.cancelled, .holds] ∧ s.Inv :=
  ⟨_, rfl, rfl, (peers_run.2 [.acquire, .acquire, .poll 0 true false, .poll 1 false false] _ rfl).1⟩

end GateRun

end Drakeydb.Journal
