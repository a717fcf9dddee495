import Drakeydb.Lib.Run

/-!
# The multi-reader multi-writer mutex

`MRMWMutex` admits several readers or several writers at a time. What a call does under the spin
lock is one step; a call of `Lock` that waits takes another step whenever its thread wakes up,
notified or not.
-/

namespace Drakeydb.Search

open List

inductive LockMode
  | readLock
  | writeLock
deriving DecidableEq

/-- `GetInverseMode`. -/
def LockMode.inverse : LockMode → LockMode
  | readLock => writeLock
  | writeLock => readLock

/-- `writer_waiters_` and `reader_waiters_` are found by mode, as `GetWaiters` does. -/
structure MRMWMutex where
  waiters : LockMode → ℕ := fun _ => 0
  activeRunners : ℕ := 0
  lockMode : LockMode := .readLock

/-- A thread that waits for a mode is notified or not. -/
inductive Thread
  | idle
  | asleep (mode : LockMode)
  | notified (mode : LockMode)
  | holds (mode : LockMode)
deriving DecidableEq

namespace MRMWMutex

variable (m : MRMWMutex) (mode : LockMode)

/-- The test of the predicate in `Lock`, and what comes after it. -/
def wait : MRMWMutex × Thread :=
  if m.lockMode = mode then
    ({ m with waiters := Function.update m.waiters mode (m.waiters mode - 1)
              activeRunners := m.activeRunners + 1 }, .holds mode)
  else (m, .asleep mode)

/-- `Lock`, up to the first wait. -/
def lock : MRMWMutex × Thread :=
  if m.activeRunners ≠ 0 then
    wait { m with waiters := Function.update m.waiters mode (m.waiters mode + 1) } mode
  else ({ m with lockMode := mode, activeRunners := m.activeRunners + 1 }, .holds mode)

/-- `Unlock`, and whether the waiters of the other mode are notified. -/
def unlock : MRMWMutex × Bool :=
  let m := { m with activeRunners := m.activeRunners - 1 }
  if m.activeRunners = 0 ∧ m.waiters mode.inverse > 0 then
    ({ m with lockMode := mode.inverse }, true)
  else (m, false)

/-- `TryLock`, once it has the spin lock. -/
def tryLock : MRMWMutex × Thread :=
  if m.activeRunners ≠ 0 ∧ m.lockMode ≠ mode then (m, .idle)
  else ({ m with lockMode := if m.activeRunners = 0 then mode else m.lockMode
                 activeRunners := m.activeRunners + 1 }, .holds mode)

end MRMWMutex

/-- `notify_all` on the condition variable of a mode. -/
def Thread.notify (mode : LockMode) : Thread → Thread
  | asleep mode' => if mode' = mode then notified mode' else asleep mode'
  | t => t

/-- A mutex and the threads that use it. A thread that locks it again counts as another one. -/
structure System where
  mutex : MRMWMutex := {}
  threads : List Thread

/-- What a thread does next. -/
inductive Call
  | lock (mode : LockMode)
  | tryLock (mode : LockMode)
  | wake
  | unlock

namespace System

/-- A thread calls the mutex, or wakes up inside of `Lock`. A `TryLock` that does not get the spin
lock changes nothing, and is not a step. -/
def step (s : System) (event : ℕ × Call) : Option System :=
  let become := fun (r : MRMWMutex × Thread) => some ⟨r.1, s.threads.set event.1 r.2⟩
  match s.threads[event.1]?, event.2 with
  | some .idle, .lock mode => become (s.mutex.lock mode)
  | some .idle, .tryLock mode => become (s.mutex.tryLock mode)
  | some (.asleep mode), .wake | some (.notified mode), .wake => become (s.mutex.wait mode)
  | some (.holds mode), .unlock =>
    let threads := s.threads.set event.1 .idle
    some ⟨(s.mutex.unlock mode).1,
      if (s.mutex.unlock mode).2 then threads.map (Thread.notify mode.inverse) else threads⟩
  | _, _ => none

/-- The counters are right. Holders have the mode of the lock. A thread that sleeps although the
lock has its mode is passed over for one of the other mode, and if the lock is free, no thread of
its mode sleeps. The threads of each kind are counted by `c`. -/
@[mk_iff]
structure Balanced (m : MRMWMutex) (c : Thread → ℕ) : Prop where
  waiters : ∀ mode, m.waiters mode = c (.asleep mode) + c (.notified mode)
  active : m.activeRunners = c (.holds m.lockMode)
  other : c (.holds m.lockMode.inverse) = 0
  sleeper : 0 < c (.asleep m.lockMode) → 0 < m.waiters m.lockMode.inverse
  free : m.activeRunners = 0 →
    c (.asleep m.lockMode) = 0 ∧ (0 < m.waiters m.lockMode.inverse → 0 < m.waiters m.lockMode)

/-- One thread changes from `t` to `t'`. -/
def Moves (c c' : Thread → ℕ) (t t' : Thread) : Prop :=
  ∀ x, c' x + (if t = x then 1 else 0) = c x + if t' = x then 1 else 0

theorem moves_set {threads : List Thread} {i : ℕ} {t : Thread} (ht : threads[i]? = some t)
    (t' : Thread) :
    Moves threads.count (threads.set i t').count t t' := by
  obtain ⟨hi, rfl⟩ := List.getElem?_eq_some_iff.mp ht
  intro x
  have hpos : threads[i] = x → 0 < threads.count x :=
    fun h => count_pos_iff.mpr (h ▸ getElem_mem hi)
  simp only [count_set hi, beq_iff_eq]
  split
  · have := hpos ‹_›
    omega
  · omega

variable {m : MRMWMutex} {c c' : Thread → ℕ} {mode : LockMode}

/-- There are two modes, a mode and its inverse. -/
theorem eq_or_inverse_eq (mode mode' : LockMode) : mode = mode' ∨ mode.inverse = mode' := by
  cases mode <;> cases mode' <;> simp [LockMode.inverse]

theorem forall_mode (mode : LockMode) {P : LockMode → Prop} :
    (∀ mode, P mode) ↔ P mode ∧ P mode.inverse :=
  ⟨fun h => ⟨h _, h _⟩, fun h x => (eq_or_inverse_eq mode x).elim (· ▸ h.1) (· ▸ h.2)⟩

@[simp] theorem inverse_inverse : mode.inverse.inverse = mode := by
  cases mode <;> rfl

@[simp] theorem inverse_ne : mode.inverse ≠ mode ∧ mode ≠ mode.inverse := by
  cases mode <;> simp [LockMode.inverse]

theorem forall_thread {P : Thread → Prop} : (∀ t, P t) ↔ P .idle ∧ (∀ mode, P (.asleep mode)) ∧
    (∀ mode, P (.notified mode)) ∧ ∀ mode, P (.holds mode) :=
  ⟨fun h => ⟨h _, fun _ => h _, fun _ => h _, fun _ => h _⟩,
    fun ⟨hidle, hasleep, hnotified, hholds⟩ t => by
    cases t; exacts [hidle, hasleep _, hnotified _, hholds _]⟩

/-! ## §2 One call -/

/-- A thread that waits finds the lock in its mode and runs, or sleeps on. -/
theorem Balanced.wait (h : Balanced m c) {t : Thread} (ht : t = .asleep mode ∨ t = .notified mode)
    (hc : Moves c c' t (m.wait mode).2) : Balanced (m.wait mode).1 c' := by
  obtain ⟨waiters, active, lockMode⟩ := m
  rw [balanced_iff, Moves, forall_thread] at *
  rcases eq_or_inverse_eq mode lockMode with rfl | rfl
  · -- one waiter less, and one runner more
    rcases ht with rfl | rfl <;> simp [MRMWMutex.wait, forall_mode mode] at * <;> omega
  · rcases ht with rfl | rfl <;> simp [MRMWMutex.wait, forall_mode mode] at * <;> omega

/-- A thread that calls `Lock` or `TryLock`. -/
theorem Balanced.start (h : Balanced m c) {r : MRMWMutex × Thread}
    (hr : r = m.lock mode ∨ r = m.tryLock mode) (hc : Moves c c' .idle r.2) : Balanced r.1 c' := by
  obtain ⟨waiters, active, lockMode⟩ := m
  rw [balanced_iff, Moves, forall_thread] at *
  rcases active with _ | active
  · -- a free lock takes the mode of the caller
    rcases eq_or_inverse_eq mode lockMode with rfl | rfl <;> rcases hr with rfl | rfl <;>
      simp [MRMWMutex.lock, MRMWMutex.tryLock, forall_mode mode] at * <;> omega
  · -- a lock that is held lets the caller run beside the holders, or wait for them
    rcases eq_or_inverse_eq mode lockMode with rfl | rfl <;> rcases hr with rfl | rfl <;>
      simp [MRMWMutex.lock, MRMWMutex.wait, MRMWMutex.tryLock, forall_mode mode] at * <;> omega

/-- The counts after `notify_all`. -/
def wakeAll (mode : LockMode) (c : Thread → ℕ) : Thread → ℕ
  | .asleep mode' => if mode' = mode then 0 else c (.asleep mode')
  | .notified mode' => c (.notified mode') + if mode' = mode then c (.asleep mode') else 0
  | t => c t

theorem count_notify (mode : LockMode) (threads : List Thread) (x : Thread) :
    (threads.map (Thread.notify mode)).count x = wakeAll mode (threads.count ·) x := by
  induction threads with
  | nil => cases x <;> simp [wakeAll]
  | cons t threads ih =>
    rw [map_cons, count_cons, ih]
    cases t <;> cases x <;> simp [wakeAll, Thread.notify, count_cons] <;> grind

/-- The last holder notifies the threads of the other mode, if there are any. -/
theorem Balanced.unlock (h : Balanced m c) (hc : Moves c c' (.holds mode) .idle) :
    Balanced (m.unlock mode).1 (if (m.unlock mode).2 then wakeAll mode.inverse c' else c') := by
  obtain ⟨waiters, active, lockMode⟩ := m
  rw [balanced_iff, Moves, forall_thread] at *
  -- a holder has the mode of the lock
  rcases eq_or_inverse_eq mode lockMode with rfl | rfl
  · simp only [MRMWMutex.unlock]
    split <;> simp [wakeAll, forall_mode mode] at * <;> omega
  · simp [forall_mode mode] at *
    omega

/-! ## §3 Runs -/

/-- The threads of a system are balanced. -/
def Inv (s : System) : Prop := Balanced s.mutex (s.threads.count ·)

variable {s s' : System} {event : ℕ × Call}

/-- **One step.** -/
theorem Inv.step (h : s.Inv) (hstep : s.step event = some s') : s'.Inv := by
  rw [System.step] at hstep
  split at hstep
  case h_1 ht _ => exact Option.some.inj hstep ▸ h.start (.inl rfl) (moves_set ht _)
  case h_2 ht _ => exact Option.some.inj hstep ▸ h.start (.inr rfl) (moves_set ht _)
  case h_3 ht _ => exact Option.some.inj hstep ▸ h.wait (.inl rfl) (moves_set ht _)
  case h_4 ht _ => exact Option.some.inj hstep ▸ h.wait (.inr rfl) (moves_set ht _)
  case h_5 mode ht _ =>
    have hunlock := h.unlock (moves_set ht .idle)
    obtain rfl := Option.some.inj hstep
    cases hnotifies : (s.mutex.unlock mode).2 with
    | false => simpa only [Inv, hnotifies, Bool.false_eq_true, if_false] using hunlock
    | true => simpa only [Inv, hnotifies, if_true, count_notify] using hunlock
  case h_6 => cases hstep

theorem Balanced.safe (h : Balanced m c) :
    (∀ mode mode', 0 < c (.holds mode) → 0 < c (.holds mode') → mode = mode') ∧
    ((∀ mode, ¬0 < c (.holds mode)) → (∃ mode, 0 < c (.asleep mode) ∨ 0 < c (.notified mode)) →
      0 < c (.notified m.lockMode)) := by
  obtain ⟨waiters, active, lockMode⟩ := m
  rw [balanced_iff] at h
  refine ⟨fun mode mode' => ?_, fun hfree ⟨mode, hmode⟩ => ?_⟩
  · intro hmode hmode'
    rcases eq_or_inverse_eq lockMode mode with rfl | rfl
    · rcases eq_or_inverse_eq lockMode mode' with rfl | rfl
      · rfl
      · exact absurd h.2.2.1 (Nat.ne_of_gt hmode')
    · exact absurd h.2.2.1 (Nat.ne_of_gt hmode)
  · -- nobody of the mode of the lock sleeps, so a waiter of this mode was notified
    rcases eq_or_inverse_eq lockMode mode with rfl | rfl <;>
      simp [forall_mode lockMode] at * <;> omega

/-- **The mutex.** Whatever the threads do, those that hold the lock have one mode. If no thread
holds it and one is blocked in `Lock`, a blocked thread was notified and finds its predicate
true. -/
theorem run_safe {n : ℕ} {events : List (ℕ × Call)}
    (hrun : Lib.run step ⟨{}, replicate n .idle⟩ events = some s) :
    (∀ mode mode', .holds mode ∈ s.threads → .holds mode' ∈ s.threads → mode = mode') ∧
    ((∀ mode, .holds mode ∉ s.threads) →
      (∃ mode, .asleep mode ∈ s.threads ∨ .notified mode ∈ s.threads) →
      .notified s.mutex.lockMode ∈ s.threads) := by
  have hstart : Inv ⟨{}, replicate n .idle⟩ :=
    (balanced_iff _ _).mpr (by simp [count_replicate, LockMode.inverse])
  have h : s.Inv := Lib.inv_of_run (fun _ _ _ => Inv.step) hstart hrun
  simpa only [count_pos_iff] using h.safe

/-- A writer that waits for a reader is notified, overtaken by another reader, and notified
again. -/
def overtaken : List (ℕ × Call) :=
  [(0, .lock .readLock), (1, .lock .writeLock), (0, .unlock), (2, .tryLock .readLock), (1, .wake),
    (2, .unlock)]

theorem run_safe_overtaken : ∃ s, Lib.run step ⟨{}, replicate 3 .idle⟩ overtaken = some s ∧
    .notified s.mutex.lockMode ∈ s.threads := by
  obtain ⟨s, hs, hthreads⟩ : ∃ s, Lib.run step ⟨{}, replicate 3 .idle⟩ overtaken = some s ∧
    s.threads = [.idle, .notified .writeLock, .idle] := ⟨_, rfl, rfl⟩
  exact ⟨s, hs, (run_safe hs).2 (by simp [hthreads]) ⟨.writeLock, by simp [hthreads]⟩⟩

end System

end Drakeydb.Search
