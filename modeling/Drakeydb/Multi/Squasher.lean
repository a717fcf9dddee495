import Drakeydb.Lib.Interleaving

/-!
# Squashing the commands of a transaction

`MultiCommandSquasher` of `server/multi_command_squasher.cc`, for an atomic `MULTI`/`EXEC`: commands
with all their keys on one shard are queued there, and the queues run side by side in one hop when a
queue is full, when a command comes that has to run alone, and at the end.
-/

namespace Drakeydb.Multi

open Lib.Interleaving List Prod

/-- What the squasher is given. There is at least one shard. -/
structure Setup where
  Key : Type
  Val : Type
  Reply : Type
  /-- The connection, with all that is not under a key. -/
  Conn : Type
  lastShard : ℕ
  shard : Key → Fin (lastShard + 1)
  isTrackingOn : Conn → Bool
  maxSquashSize : ℕ

abbrev Setup.Sid (S : Setup) : Type := Fin (S.lastShard + 1)

structure World (S : Setup) where
  db : S.Key → S.Val
  conn : S.Conn

/-- A command with its arguments, as far as `TrySquash` looks at it, and what it does. -/
structure Cmd (S : Setup) where
  isTransactional : Bool
  isBlocking : Bool
  isGlobalTrans : Bool
  isClient : Bool
  hasArgs : Bool
  isValid : Bool
  /-- The keys, unless `DetermineKeys` fails. -/
  keys : Option (List S.Key)
  run : World S → World S × S.Reply

/-- The commands that wait on each shard, and the shards in the order of the commands. -/
structure Squasher (S : Setup) where
  sharded : S.Sid → List (Cmd S)
  order : List S.Sid

inductive SquashResult where
  | squashed
  | squashedFull
  | notSquashed

variable {S : Setup}

/-- The shard of all keys. -/
def lastSid : List S.Key → Option S.Sid
  | [] => none
  | key :: keys => if ∀ k ∈ keys, S.shard k = S.shard key then some (S.shard key) else none

/-- The checks of `TrySquash`: the shard on which the command can wait. What `Transaction::IsActive`
    answers may change with every hop. -/
def Cmd.squashShard (cmd : Cmd S) (conn : S.Conn) (isActive : S.Sid → Bool) : Option S.Sid :=
  if !cmd.isTransactional || cmd.isBlocking || cmd.isGlobalTrans then none
  else if cmd.isClient || S.isTrackingOn conn then none
  else if !cmd.hasArgs then none
  else if !cmd.isValid then none
  else (cmd.keys.bind lastSid).filter isActive

namespace Squasher

def trySquash (sq : Squasher S) (conn : S.Conn) (isActive : S.Sid → Bool) (cmd : Cmd S) :
    SquashResult × Squasher S :=
  match cmd.squashShard conn isActive with
  | none => (.notSquashed, sq)
  | some sid =>
    let dispatched := sq.sharded sid ++ [cmd]
    (if S.maxSquashSize ≤ dispatched.length then .squashedFull else .squashed,
      ⟨Function.update sq.sharded sid dispatched, sq.order ++ [sid]⟩)

def empty : Squasher S := ⟨fun _ => [], []⟩

end Squasher

/-- `ExecuteSquashed`: one hop, then the replies in the recorded order. Without commands there is no
hop, which comes to the same. -/
def ExecuteSquashed (sq : Squasher S) (w w' : World S) (replies : List S.Reply)
    (ran : List (Cmd S)) : Prop :=
  ∃ captured, Hop Cmd.run sq.sharded w w' captured ran ∧ replies = collect sq.order captured

/-- The loop of `Run` over the commands still to come: what `IsActive` answers for each of them, the
states before and after, the replies that are sent, and the commands in the order in which they
ran. -/
inductive Run : (ℕ → S.Sid → Bool) → List (Cmd S) → Squasher S → World S → World S → List S.Reply →
    List (Cmd S) → Prop where
  | leftover {active sq w w' replies ran} (h : ExecuteSquashed sq w w' replies ran) :
      Run active [] sq w w' replies ran
  | squashed {active cmd cmds sq sq' w w' replies ran}
      (htry : sq.trySquash w.conn (active 0) cmd = (.squashed, sq'))
      (h : Run (active ∘ Nat.succ) cmds sq' w w' replies ran) :
        Run active (cmd :: cmds) sq w w' replies ran
  | full {active cmd cmds sq sq' w w1 w' rs replies ran1 ran}
      (htry : sq.trySquash w.conn (active 0) cmd = (.squashedFull, sq'))
      (hexec : ExecuteSquashed sq' w w1 rs ran1)
      (h : Run (active ∘ Nat.succ) cmds .empty w1 w' replies ran) :
      Run active (cmd :: cmds) sq w w' (rs ++ replies) (ran1 ++ ran)
  | standalone {active cmd cmds sq sq' w w1 w' rs replies ran1 ran}
      (htry : sq.trySquash w.conn (active 0) cmd = (.notSquashed, sq'))
      (hexec : ExecuteSquashed sq' w w1 rs ran1)
      (h : Run (active ∘ Nat.succ) cmds .empty (cmd.run w1).1 w' replies ran) :
      Run active (cmd :: cmds) sq w w' (rs ++ (cmd.run w1).2 :: replies) (ran1 ++ cmd :: ran)

/-- The command reads the connection and the keys it declares, and writes these keys. -/
structure Cmd.Declared (cmd : Cmd S) (keys : List S.Key) : Prop where
  conn : ∀ w, (cmd.run w).1.conn = w.conn
  writes : ∀ w, ∀ k ∉ keys, (cmd.run w).1.db k = w.db k
  reads : ∀ w w', w.conn = w'.conn → (∀ k ∈ keys, w.db k = w'.db k) →
    (cmd.run w).2 = (cmd.run w').2 ∧ ∀ k ∈ keys, (cmd.run w).1.db k = (cmd.run w').1.db k

/-- A command that may be queued reads and writes the keys it declares. -/
def Cmd.Honest (cmd : Cmd S) : Prop :=
  ∀ conn isActive keys, (cmd.squashShard conn isActive).isSome → cmd.keys = some keys →
    cmd.Declared keys

/-! ## §1 The queues -/

variable {sid : S.Sid} {w w' : World S} {cmd : Cmd S} {cmds : List (Cmd S)} {sq sq' : Squasher S}
  {pending : List (S.Sid × Cmd S)} {replies : List S.Reply} {ran : List (Cmd S)}

/-- What a shard sees. -/
def view (sid : S.Sid) (w : World S) : S.Conn × (S.Key → Option S.Val) :=
  (w.conn, fun k => if S.shard k = sid then some (w.db k) else none)

theorem view_eq_iff :
    view sid w = view sid w' ↔ w.conn = w'.conn ∧ ∀ k, S.shard k = sid → w.db k = w'.db k := by
  simp only [view, mk.injEq, funext_iff]
  refine and_congr_right fun _ => forall_congr' fun k => ?_
  by_cases h : S.shard k = sid <;> simp [h]

/-- A world is what its shards see. -/
theorem eq_of_view (w w' : World S) (h : ∀ sid, view sid w = view sid w') : w = w' := by
  obtain ⟨db, conn⟩ := w
  obtain ⟨db', conn'⟩ := w'
  obtain rfl : conn = conn' := (view_eq_iff.mp (h 0)).1
  obtain rfl : db = db' := funext fun k => (view_eq_iff.mp (h (S.shard k))).2 k rfl
  rfl

variable {conn : S.Conn} {isActive : S.Sid → Bool} {active : ℕ → S.Sid → Bool}

/-- A command is squashed only where all its keys are. -/
theorem Cmd.shard_of_squashShard (h : cmd.squashShard conn isActive = some sid) :
    ∃ keys, cmd.keys = some keys ∧ ∀ k ∈ keys, S.shard k = sid := by
  dsimp only [squashShard] at h
  split_ifs at h
  obtain ⟨hbind, -⟩ := Option.filter_eq_some_iff.mp h
  obtain ⟨keys, hkeys, hsid⟩ := Option.bind_eq_some_iff.mp hbind
  refine ⟨keys, hkeys, ?_⟩
  cases keys with
  | nil => cases hsid
  | cons key keys =>
    dsimp only [lastSid] at hsid
    split_ifs at hsid with hall
    cases hsid
    exact forall_mem_cons.mpr ⟨rfl, hall⟩

/-- A command that keeps to its keys is local to their shard. -/
theorem Cmd.Declared.local {keys : List S.Key} (h : cmd.Declared keys)
    (hsid : ∀ k ∈ keys, S.shard k = sid) :
    Local view sid cmd.run where
  reads w w' heq := by
    rw [view_eq_iff] at heq
    obtain ⟨hreply, hkeys⟩ := h.reads w w' heq.1 fun k hk => heq.2 k (hsid k hk)
    refine ⟨view_eq_iff.mpr ⟨by rw [h.conn, h.conn, heq.1], fun k hk => ?_⟩, hreply⟩
    by_cases hmem : k ∈ keys
    · exact hkeys k hmem
    · rw [h.writes w k hmem, h.writes w' k hmem, heq.2 k hk]
  writes w t ht :=
    view_eq_iff.mpr ⟨h.conn w, fun k hk => h.writes w k fun hmem =>
      ht (hk.symm.trans (hsid k hmem))⟩

namespace Squasher

/-- The squasher holds these commands, in this order, and they are local to their shards. -/
structure Holds (sq : Squasher S) (pending : List (S.Sid × Cmd S)) : Prop where
  sharded : sq.sharded = queue pending
  order : sq.order = pending.map Prod.fst
  locals : ∀ x ∈ pending, Local view x.1 x.2.run

theorem holds_empty : (empty : Squasher S).Holds [] := ⟨rfl, rfl, forall_mem_nil _⟩

section

variable (h : sq.Holds pending)
include h

/-- Executing what is pending is executing it in order. -/
theorem Holds.execute (hexec : ExecuteSquashed sq w w' replies ran) :
    (w', replies) = exec Cmd.run (pending.map Prod.snd) w ∧ ran.Perm (pending.map Prod.snd) := by
  obtain ⟨captured, hhop, rfl⟩ := hexec
  rw [h.sharded] at hhop
  rw [h.order]
  exact hhop.eq_exec eq_of_view h.locals

theorem Holds.exists_execute (w : World S) :
    ∃ w' replies ran, ExecuteSquashed sq w w' replies ran := by
  obtain ⟨w', captured, ran, hhop⟩ := exists_hop Cmd.run pending w
  exact ⟨w', _, ran, captured, h.sharded ▸ hhop, rfl⟩

/-- A local command may wait in the queue of its shard. -/
theorem Holds.push (hcmd : Local view sid cmd.run) :
    Holds ⟨Function.update sq.sharded sid (sq.sharded sid ++ [cmd]), sq.order ++ [sid]⟩
      (pending ++ [(sid, cmd)]) where
  sharded := by
    funext t
    rw [h.sharded]
    by_cases ht : t = sid
    · subst ht
      simp [queue]
    · simp [queue, Function.update_of_ne ht, Ne.symm ht]
  order := by simp [h.order]
  locals := forall_mem_append.mpr ⟨h.locals, forall_mem_singleton.mpr hcmd⟩

/-- `TrySquash` leaves the command alone, or makes it the last one pending. -/
theorem Holds.trySquash (hcmd : cmd.Honest) {res : SquashResult}
    (htry : sq.trySquash conn isActive cmd = (res, sq')) :
    res = .notSquashed ∧ sq' = sq ∨ res ≠ .notSquashed ∧
      ∃ sid, sq'.Holds (pending ++ [(sid, cmd)]) := by
  rw [Squasher.trySquash] at htry
  split at htry
  case h_1 =>
    cases htry
    exact .inl ⟨rfl, rfl⟩
  case h_2 sid hsid =>
    obtain ⟨keys, hkeys, hall⟩ := Cmd.shard_of_squashShard hsid
    have hlocal := (hcmd conn isActive keys (by rw [hsid]; rfl) hkeys).local hall
    cases htry
    refine .inr ⟨?_, sid, h.push hlocal⟩
    split <;> exact SquashResult.noConfusion

end

end Squasher

/-! ## §2 The loop -/

open Squasher

/-- A run does what the waiting commands and those to come do one by one. -/
theorem Run.eq_exec (h : Run active cmds sq w w' replies ran) (hcmds : ∀ cmd ∈ cmds, cmd.Honest)
    (hsq : sq.Holds pending) :
    (w', replies) = exec Cmd.run (pending.map Prod.snd ++ cmds) w ∧ ran.Perm
    (pending.map Prod.snd ++ cmds) := by
  -- the commands that wait come before those still to come
  induction h generalizing pending with
  | leftover h => simpa using hsq.execute h
  | squashed htry _ ih =>
    obtain ⟨hcmd, hrest⟩ := forall_mem_cons.mp hcmds
    obtain ⟨hnot, -⟩ | ⟨-, sid, hsq'⟩ := hsq.trySquash hcmd htry
    · cases hnot
    · simpa using ih hrest hsq'
  | full htry hexec _ ih =>
    obtain ⟨hcmd, hrest⟩ := forall_mem_cons.mp hcmds
    obtain ⟨hnot, -⟩ | ⟨-, sid, hsq'⟩ := hsq.trySquash hcmd htry
    · cases hnot
    · obtain ⟨hfirst, hperm⟩ := hsq'.execute hexec
      obtain ⟨hsecond, hperm'⟩ := ih hrest holds_empty
      obtain ⟨rfl, rfl⟩ := mk.inj hfirst
      obtain ⟨rfl, rfl⟩ := mk.inj hsecond
      exact ⟨by simp [exec_append, exec], by simpa using hperm.append hperm'⟩
  | standalone htry hexec _ ih =>
    obtain ⟨hcmd, hrest⟩ := forall_mem_cons.mp hcmds
    obtain ⟨-, rfl⟩ | ⟨hres, -⟩ := hsq.trySquash hcmd htry
    · obtain ⟨hfirst, hperm⟩ := hsq.execute hexec
      obtain ⟨hsecond, hperm'⟩ := ih hrest holds_empty
      obtain ⟨rfl, rfl⟩ := mk.inj hfirst
      obtain ⟨rfl, rfl⟩ := mk.inj hsecond
      exact ⟨by simp [exec_append, exec], hperm.append (hperm'.cons _)⟩
    · exact absurd rfl hres

/-- `Run` never gets stuck. -/
theorem exists_run (hcmds : ∀ cmd ∈ cmds, cmd.Honest) (hsq : sq.Holds pending) (w : World S) :
    ∃ w' replies ran, Run active cmds sq w w' replies ran := by
  induction cmds generalizing sq pending w active with
  | nil =>
    obtain ⟨w', replies, ran, h⟩ := hsq.exists_execute w
    exact ⟨w', replies, ran, .leftover h⟩
  | cons cmd cmds ih =>
    obtain ⟨hcmd, hrest⟩ := forall_mem_cons.mp hcmds
    obtain ⟨⟨res, sq'⟩, htry⟩ : ∃ r, sq.trySquash w.conn (active 0) cmd = r := ⟨_, rfl⟩
    obtain ⟨rfl, rfl⟩ | ⟨hres, sid, hsq'⟩ := hsq.trySquash hcmd htry
    · obtain ⟨w1, rs, ran1, hexec⟩ := hsq.exists_execute w
      obtain ⟨w', replies, ran, h⟩ := ih hrest holds_empty (cmd.run w1).1
      exact ⟨w', _, _, .standalone htry hexec h⟩
    · cases res with
      | squashed =>
        obtain ⟨w', replies, ran, h⟩ := ih hrest hsq' w
        exact ⟨w', replies, ran, .squashed htry h⟩
      | squashedFull =>
        obtain ⟨w1, rs, ran1, hexec⟩ := hsq'.exists_execute w
        obtain ⟨w', replies, ran, h⟩ := ih hrest holds_empty w1
        exact ⟨w', _, _, .full htry hexec h⟩
      | notSquashed => exact absurd rfl hres

/-- **Squashing is running the commands one by one:** whichever shards are active in between, there
is a run, and every run leaves the same database, sends the same replies in the order of the
commands and runs each command once. -/
theorem run_eq_exec (cmds : List (Cmd S)) (hcmds : ∀ cmd ∈ cmds, cmd.Honest)
    (active : ℕ → S.Sid → Bool) (w : World S) :
    (∃ w' replies ran, Run active cmds .empty w w' replies ran) ∧
      ∀ w' replies ran, Run active cmds .empty w w' replies ran →
        (w', replies) = exec Cmd.run cmds w ∧ ran.Perm cmds :=
  ⟨exists_run hcmds holds_empty w, fun _ _ _ h => by simpa using h.eq_exec hcmds holds_empty⟩

/-- Two shards, with the even and the odd keys. -/
abbrev parity : Setup :=
  ⟨ℕ, ℕ, ℕ, Unit, 1, fun k => ⟨k % 2, Nat.mod_lt k Nat.two_pos⟩, fun _ => false, 32⟩

def incr (key : ℕ) : Cmd parity :=
  ⟨true, false, false, false, true, true, some [key],
    fun w => (⟨fun k => if k = key then w.db key + 1 else w.db k, w.conn⟩, w.db key + 1)⟩

theorem honest_incr (key : ℕ) : (incr key).Honest := by
  rintro conn isActive keys - hkeys
  obtain rfl : [key] = keys := Option.some.inj hkeys
  refine ⟨fun w => rfl, fun w k hk => ?_, fun w w' _ hsame => ?_⟩
  · exact if_neg fun heq => hk (mem_singleton.mpr heq)
  · simp [incr, hsame key mem_cons_self]

/-- The odd shard is not active for the second command. -/
theorem run_eq_exec_incr :
    ∃ w' replies ran, Run (fun i sid => decide (i ≠ 1 ∨ sid = 0)) [incr 0, incr 1, incr 0] .empty
      ⟨fun _ => 0, ()⟩ w' replies ran ∧ replies = [1, 1, 2] := by
  obtain ⟨⟨w', replies, ran, h⟩, hall⟩ :=
    run_eq_exec [incr 0, incr 1, incr 0] (by simp [honest_incr])
    (fun i sid => decide (i ≠ 1 ∨ sid = 0)) ⟨fun _ => 0, ()⟩
  exact ⟨w', replies, ran, h, congrArg snd (hall w' replies ran h).1⟩

end Drakeydb.Multi
