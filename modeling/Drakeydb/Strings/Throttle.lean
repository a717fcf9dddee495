import Mathlib.Tactic.Ring
import Mathlib.Tactic.Linarith

/-!
# `CL.THROTTLE`

The rate limiter of `server/string_family.cc`. The key holds one number, the theoretical arrival
time: the instant, in nanoseconds, at which the bucket would be full again. A request moves it
forward by the cost of its quantity, and is limited if that leads further ahead of the clock than
the size of the bucket. The reply is computed from the stored number with signed and unsigned 64-bit
arithmetic.
-/

namespace Drakeydb.Strings

open List

/-! ## §1 Machine integers -/

def int64Max : ℤ := 9223372036854775807

def int64Min : ℤ := -9223372036854775808

def uint64Max : ℕ := 18446744073709551615

/-- Conversion to `int64_t`. -/
def i64 (x : ℤ) : ℤ := x.bmod 18446744073709551616

/-- Conversion to `uint64_t`. -/
def u64 (x : ℤ) : ℤ := x % 18446744073709551616

theorem int64Min_eq : int64Min = -int64Max - 1 := rfl

theorem int64Max_eq : int64Max = 9223372036854775807 := rfl

theorem i64_of (x : ℤ) (hmin : int64Min ≤ x) (hmax : x ≤ int64Max) : i64 x = x := by
  simp only [int64Min, int64Max] at hmin hmax
  exact Int.bmod_eq_of_le (by omega) (by omega)

/-- `(ns + kMilliSecondToNanoSecond - 1) / kMilliSecondToNanoSecond`, where the constant is a
`uint64_t`. -/
def ceilToMs (ns : ℤ) : ℤ := i64 (u64 (u64 (ns + 1000000) - 1) / 1000000)

theorem ceilToMs_of (ns : ℤ) (h : 0 ≤ ns) (hmax : ns ≤ int64Max) :
    ceilToMs ns = (ns + 999999) / 1000000 := by
  simp only [int64Max] at hmax
  unfold ceilToMs u64
  apply (i64_of _ _ _).trans
  · congr 1
    omega
  · simp only [int64Min]
    omega
  · simp only [int64Max]
    omega

/-! ## §2 The code -/

/-- `OpStatus`, as far as it occurs. -/
inductive OpStatus where
  | wrongType
  | invalidValue
  | invalidInt
  deriving DecidableEq

/-- What stands under the key. -/
inductive Content where
  | missing
  /-- A string that is an integer. -/
  | int (value : ℤ)
  /-- Any other string. -/
  | text
  /-- A value of another type. -/
  | other
  deriving DecidableEq

/-- The five numbers of the reply. -/
structure Reply where
  limited : Bool
  limit : ℤ
  remaining : ℤ
  retryAfterMs : ℤ
  resetAfterMs : ℤ
  deriving DecidableEq

/-- A reply, and for an admitted request the number and the expiry, in milliseconds, that it
stores. -/
abbrev Outcome : Type := Except OpStatus (Reply × Option (ℤ × ℤ))

/-- The limit and the emission interval, in nanoseconds. -/
structure Rate where
  limit : ℤ
  interval : ℤ

def isValueWithinBounds (value bound : ℤ) : Bool :=
  if 0 ≤ bound then i64 (int64Min + bound) ≤ value else value ≤ i64 (int64Max + bound)

/-- The end of `OpThrottle`: the reply for a bucket that is full again after `ttl`. -/
def replyFor (r : Rate) (tolerance ttl : ℤ) (limited : Bool) (retry : ℤ)
    (store : Option (ℤ × ℤ)) : Outcome :=
  if ttl < i64 (tolerance - int64Max) then .error .invalidInt else
  let next := i64 (tolerance - ttl)
  let remaining := if i64 (-r.interval) < next then i64 (next.tdiv r.interval) else 0
  .ok (⟨limited, r.limit, remaining, retry, ceilToMs ttl⟩, store)

/-- `OpThrottle`, from the number `tat` found under the key. -/
def throttleFrom (r : Rate) (quantity : ℕ) (now tat : ℤ) : Outcome :=
  let tolerance := i64 (r.interval * r.limit)
  let increment := i64 (u64 (r.interval * quantity))
  if i64 (int64Max - increment) < max tat now then .error .invalidInt else
  let newTat := i64 (max tat now + increment)
  if newTat < i64 (int64Min + tolerance) then .error .invalidInt else
  let allowAt := i64 (newTat - tolerance)
  if ¬ isValueWithinBounds now allowAt then .error .invalidInt else
  let diff := i64 (now - allowAt)
  if diff < 0 then
    if increment ≤ tolerance ∧ diff = int64Min then .error .invalidInt else
    let retry := if increment ≤ tolerance then ceilToMs (i64 (-diff)) else -1000
    if (if 0 ≤ now then tat < i64 (int64Min + now)
      else i64 (int64Max + now) < tat) then .error .invalidInt else
    replyFor r tolerance (i64 (tat - now)) true retry none
  else
    if ¬ isValueWithinBounds newTat now then .error .invalidInt else
    replyFor r tolerance (i64 (newTat - now)) false (-1000) (some (newTat, ceilToMs newTat))

def opThrottle (r : Rate) (quantity : ℕ) (now : ℤ) : Content → Outcome
  | .missing => throttleFrom r quantity now now
  | .int tat => throttleFrom r quantity now tat
  | .text => .error .invalidValue
  | .other => .error .wrongType

/-- The errors of `CmdClThrottle`. -/
inductive ArgError where
  /-- `kInvalidIntErr`. -/
  | invalidInt
  /-- `zero rates are not supported`. -/
  | zeroRate

/-- The checks of `CmdClThrottle` on its four numbers, with the rate that it goes on with. -/
def cmdClThrottle (maxBurst count period quantity : ℕ) : Except ArgError Rate :=
  if 9223372036854775807 - 1 < maxBurst then .error .invalidInt else
  let limit := maxBurst + 1
  if uint64Max / 1000000000 < period ∨ count = 0 ∨
    9223372036854775807 < period * 1000000000 / count then
    .error .invalidInt
  else
  let interval := period * 1000000000 / count
  if interval = 0 then .error .zeroRate else
  if 9223372036854775807 / limit < interval then .error .invalidInt else
  if quantity ≠ 0 ∧ 9223372036854775807 / quantity < interval then .error .invalidInt else
  .ok ⟨limit, interval⟩

/-- The command goes on with this rate and this quantity for some arguments. -/
def CommandAccepts (r : Rate) (quantity : ℕ) : Prop :=
  ∃ maxBurst count period : ℕ, cmdClThrottle maxBurst count period quantity = .ok r

variable {r : Rate} {quantity : ℕ} {now tat : ℤ} {content : Content}

/-- What a number of units costs, in nanoseconds. -/
def Rate.cost (r : Rate) (quantity : ℕ) : ℤ := r.interval * quantity

/-- The size of the bucket. -/
def Rate.tolerance (r : Rate) : ℤ := r.interval * r.limit

/-- The checked arguments. -/
structure Rate.Accepts (r : Rate) (quantity : ℕ) : Prop where
  limit_pos : 1 ≤ r.limit
  interval_pos : 1 ≤ r.interval
  tolerance_le : r.tolerance ≤ int64Max
  cost_le : r.cost quantity ≤ int64Max

/-- What the checks of the command guarantee for the arithmetic. -/
theorem CommandAccepts.accepts (h : CommandAccepts r quantity) : r.Accepts quantity := by
  obtain ⟨maxBurst, count, period, hok⟩ := h
  dsimp only [cmdClThrottle] at hok
  split_ifs at hok with h1 h2 h3 h4 h5
  generalize period * 1000000000 / count = e at *
  cases hok
  have hburst : e * (maxBurst + 1) ≤ 9223372036854775807 :=
    (Nat.le_div_iff_mul_le (Nat.succ_pos _)).mp (not_lt.mp h4)
  have hquantity : e * quantity ≤ 9223372036854775807 := by
    by_cases hq : quantity = 0
    · simp [hq]
    · exact (Nat.le_div_iff_mul_le (Nat.pos_of_ne_zero hq)).mp (not_lt.mp fun hlt => h5 ⟨hq, hlt⟩)
  refine ⟨by simp, by simp only; omega, ?_, ?_⟩
  · simp only [int64Max, Rate.tolerance]
    exact_mod_cast hburst
  · simp only [int64Max, Rate.cost]
    exact_mod_cast hquantity

namespace Rate

theorem cost_add (j k : ℕ) : r.cost (j + k) = r.cost j + r.cost k := by
  simp only [cost]
  push_cast
  ring

theorem cost_one : r.cost 1 = r.interval := by simp [cost]

theorem cost_zero : r.cost 0 = 0 := by simp [cost]

section

variable (h : r.Accepts quantity)
include h

theorem Accepts.cost_nonneg (k : ℕ) : 0 ≤ r.cost k :=
  Int.mul_nonneg (zero_le_one.trans h.interval_pos) (Int.natCast_nonneg _)

theorem Accepts.cost_le_tolerance {k : ℕ} (hk : k ≤ r.limit) : r.cost k ≤ r.tolerance :=
  Int.mul_le_mul_of_nonneg_left hk (zero_le_one.trans h.interval_pos)

theorem Accepts.one : r.Accepts 1 :=
  ⟨h.limit_pos, h.interval_pos, h.tolerance_le,
    (h.cost_le_tolerance h.limit_pos).trans h.tolerance_le⟩

theorem Accepts.interval_le : r.interval ≤ r.tolerance :=
  cost_one.symm.le.trans (h.one.cost_le_tolerance h.limit_pos)

end

/-! ## §3 The command over the integers -/

/-- How many units the bucket takes when it is full again after `ttl`. -/
def remaining (r : Rate) (ttl : ℤ) : ℤ := max 0 ((r.tolerance - ttl) / r.interval)

/-- The reply to an admitted request that moves the arrival time to `newTat`. -/
def admittedReply (r : Rate) (now newTat : ℤ) : Reply :=
  ⟨false, r.limit, r.remaining (newTat - now), -1000, (newTat - now + 999999) / 1000000⟩

/-- The reply to a limited request. -/
def limitedReply (r : Rate) (quantity : ℕ) (now tat newTat : ℤ) : Reply :=
  ⟨true, r.limit, r.remaining (tat - now),
    if r.cost quantity ≤ r.tolerance then (newTat - r.tolerance - now + 999999) / 1000000
      else -1000,
    (tat - now + 999999) / 1000000⟩

/-- What `OpThrottle` computes when no number wraps around: the new arrival time has to fit, and
everything else follows from it. -/
def exactThrottle (r : Rate) (quantity : ℕ) (now tat : ℤ) : Outcome :=
  let newTat := max tat now + r.cost quantity
  if int64Max < newTat then .error .invalidInt
  else if now + r.tolerance < newTat then .ok (r.limitedReply quantity now tat newTat, none)
  else .ok (r.admittedReply now newTat, some (newTat, (newTat + 999999) / 1000000))

end Rate

theorem isValueWithinBounds_of {value bound : ℤ} (hvalue : 0 ≤ value)
    (hle : value - bound ≤ int64Max)
    (hbound : bound ≤ int64Max) (hmin : -int64Max ≤ bound) : isValueWithinBounds value bound := by
  have hlow := int64Min_eq
  unfold isValueWithinBounds
  split
  · rw [i64_of _ (by omega) (by omega)]
    exact decide_eq_true (by omega)
  · rw [i64_of _ (by omega) (by omega)]
    exact decide_eq_true (by omega)

/-- A quotient that is cut off at zero is rounded the same way from both sides. -/
theorem tdiv_cut_eq {interval next : ℤ} (hpos : 1 ≤ interval) :
    (if -interval < next then next.tdiv interval else 0) = max 0 (next / interval) := by
  rcases le_or_gt 0 next with h | h
  · rw [if_pos (by omega), Int.tdiv_eq_ediv_of_nonneg h]
    exact (max_eq_right (Int.ediv_nonneg h (by omega))).symm
  · have hneg : next / interval < 0 := Int.ediv_neg_of_neg_of_pos h (by omega)
    rw [max_eq_left hneg.le]
    split
    · obtain ⟨k, rfl⟩ : ∃ k, next = -k := ⟨-next, by omega⟩
      rw [Int.neg_tdiv, Int.tdiv_eq_zero_of_lt (by omega) (by omega), neg_zero]
    · rfl

/-- The reply is computed without an overflow. -/
theorem replyFor_eq {ttl retry : ℤ} {limited : Bool} {store : Option (ℤ × ℤ)}
    (haccepts : r.Accepts quantity) (h : 0 ≤ ttl) (httl : ttl ≤ int64Max) :
    replyFor r r.tolerance ttl limited retry store =
      .ok (⟨limited, r.limit, r.remaining ttl, retry, (ttl + 999999) / 1000000⟩, store) := by
  have hpos := haccepts.interval_pos
  have hle := haccepts.interval_le
  have hmax := haccepts.tolerance_le
  have hlow := int64Min_eq
  have hquot : i64 ((r.tolerance - ttl).tdiv r.interval) = (r.tolerance - ttl).tdiv r.interval := by
    have habs := Int.natAbs_tdiv_le_natAbs (r.tolerance - ttl) r.interval
    exact i64_of _ (by omega) (by omega)
  dsimp only [replyFor]
  rw [i64_of (r.tolerance - int64Max) (by omega) (by omega), if_neg (by omega),
    i64_of (r.tolerance - ttl) (by omega) (by omega),
      i64_of (-r.interval) (by omega) (by omega), hquot,
    tdiv_cut_eq hpos, ceilToMs_of ttl h httl, Rate.remaining]

/-- **The code computes over the integers** unless the request alone overfills the bucket and the
stored number lies in the past. -/
theorem throttleFrom_eq (h : r.Accepts quantity) (hnow : 0 ≤ now) (hmax : now ≤ int64Max)
    (htat : tat ≤ int64Max)
    (hcond : quantity ≤ r.limit ∨ now ≤ tat) :
      throttleFrom r quantity now tat = r.exactThrottle quantity now tat := by
  have hfits : r.cost quantity ≤ r.tolerance ∨ now ≤ tat := hcond.imp_left h.cost_le_tolerance
  have hinc0 := h.cost_nonneg quantity
  have htol0 : 0 ≤ r.tolerance := by
    have hpos := h.interval_pos
    have hle := h.interval_le
    omega
  have htol := h.tolerance_le
  have hinc := h.cost_le
  have hlow := int64Min_eq
  have htop := int64Max_eq
  unfold throttleFrom Rate.exactThrottle Rate.limitedReply
  rw [← Rate.cost, ← Rate.tolerance]
  generalize r.cost quantity = inc at *
  generalize hbase : max tat now = base at *
  -- the base is the stored number as soon as that is not in the past
  have hu : i64 (u64 inc) = inc := by
    have hmod : u64 inc = inc := Int.emod_eq_of_lt hinc0 (by omega)
    rw [hmod, i64_of _ (by omega) hinc]
  dsimp only
  rw [hu, i64_of r.tolerance (by omega) htol, i64_of (int64Max - inc) (by omega) (by omega)]
  by_cases hover : int64Max < base + inc
  · rw [if_pos (by omega), if_pos hover]
  have hbounds : isValueWithinBounds now (base + inc - r.tolerance) :=
    isValueWithinBounds_of hnow (by omega) (by omega) (by omega)
  -- none of the checks up to the difference can fail any more
  rw [if_neg (by omega), i64_of (base + inc) (by omega) (by omega),
    i64_of (int64Min + r.tolerance) (by omega) (by omega), if_neg (by omega),
    i64_of (base + inc - r.tolerance) (by omega) (by omega), if_neg (not_not.mpr hbounds),
    i64_of (now - (base + inc - r.tolerance)) (by omega) (by omega), if_neg hover]
  by_cases hlim : now + r.tolerance < base + inc
  · rw [if_pos (by omega), if_neg (by omega),
      i64_of (-(now - (base + inc - r.tolerance))) (by omega) (by omega),
      if_neg (by rw [if_pos hnow, i64_of (int64Min + now) (by omega) (by omega)]; omega),
      i64_of (tat - now) (by omega) (by omega), replyFor_eq h (by omega) (by omega), if_pos hlim,
      ceilToMs_of _ (by omega) (by omega)]
    congr 6
    omega
  · have hwithin : isValueWithinBounds (base + inc) now :=
      isValueWithinBounds_of (by omega) (by omega) hmax (by omega)
    rw [if_neg (by omega), if_neg (not_not.mpr hwithin),
      i64_of (base + inc - now) (by omega) (by omega),
      replyFor_eq h (by omega) (by omega), if_neg hlim, ceilToMs_of _ (by omega) (by omega),
        Rate.admittedReply]

/-- A request that fits the bucket is admitted. -/
theorem exactThrottle_of_le (hfit : now + r.tolerance ≤ int64Max)
    (h : max tat now + r.cost quantity ≤ now + r.tolerance) :
    r.exactThrottle quantity now tat =
      .ok (r.admittedReply now (max tat now + r.cost quantity),
        some (max tat now + r.cost quantity,
          (max tat now + r.cost quantity + 999999) / 1000000)) := by
  dsimp only [Rate.exactThrottle]
  rw [if_neg (by omega), if_neg (by omega)]

/-- A request that does not fit is limited, or an error. -/
theorem exactThrottle_of_lt (h : now + r.tolerance < max tat now + r.cost quantity) :
    r.exactThrottle quantity now tat = .error .invalidInt ∨
      r.exactThrottle quantity now tat =
        .ok (r.limitedReply quantity now tat (max tat now + r.cost quantity), none) := by
  dsimp only [Rate.exactThrottle]
  split
  · exact .inl rfl
  · exact .inr rfl

/-! ## §4 Requests on one key -/

/-- The number that a request at `now` starts from. -/
def Content.arrival (now : ℤ) : Content → ℤ
  | .int value => value
  | _ => now

@[simp]
theorem Content.arrival_int (now value : ℤ) : (Content.int value).arrival now = value := rfl

/-- Absent, or an integer string. -/
def Content.Numeric : Content → Prop
  | .missing => True
  | .int value => value ≤ int64Max
  | _ => False

/-- The request was let through. -/
def admitted : Outcome → Bool
  | .ok (reply, _) => !reply.limited
  | .error _ => false

/-- Arrival times up to a full bucket ahead can be represented, and a request that costs more than
the bucket holds does not find a number from the past. -/
def Meets (r : Rate) (quantity : ℕ) (now : ℤ) (content : Content) : Prop :=
  now + r.tolerance ≤ int64Max ∧ (quantity ≤ r.limit ∨ now ≤ content.arrival now)

/-- So many further requests for one unit, all at `now`, are admitted one after the other. -/
def Rate.admitsUnits (r : Rate) (now : ℤ) : ℕ → Content → Prop
  | 0, _ => True
  | k + 1, content => ∃ reply tat ms,
      opThrottle r 1 now content = .ok (reply, some (tat, ms)) ∧ r.admitsUnits now k (.int tat)

/-- Under the conditions the code computes with exact integers. -/
theorem opThrottle_eq (h : r.Accepts quantity) (hnow : 0 ≤ now) (hc : content.Numeric)
    (hmeets : Meets r quantity now content) :
    opThrottle r quantity now content = r.exactThrottle quantity now (content.arrival now) := by
  have hmax : now ≤ int64Max := by
    have hfit := hmeets.1
    have hpos := h.interval_pos
    have hle := h.interval_le
    omega
  cases content with
  | missing => exact throttleFrom_eq h hnow hmax hmax hmeets.2
  | int value => exact throttleFrom_eq h hnow hmax hc hmeets.2
  | text => cases hc
  | other => cases hc

/-- How many requests for one unit are admitted at one instant. -/
theorem Rate.admitsUnits_iff (h : r.Accepts 1) (hnow : 0 ≤ now)
    (hfit : now + r.tolerance ≤ int64Max) (k : ℕ) (hc : content.Numeric) :
    r.admitsUnits now k content ↔ k = 0 ∨ max (content.arrival now) now + r.cost k ≤ now +
      r.tolerance := by
  induction k generalizing content with
  | zero => simp [admitsUnits]
  | succ k ih =>
    have heq := opThrottle_eq h hnow hc ⟨hfit, .inl h.limit_pos⟩
    have hk := h.cost_nonneg k
    have hone := h.cost_nonneg 1
    rw [cost_add]
    by_cases hle : max (content.arrival now) now + r.cost 1 ≤ now + r.tolerance
    · -- the first of them is admitted, and the others continue from its arrival time
      have hstep := heq.trans (exactThrottle_of_le hfit hle)
      have hnext : Content.Numeric (.int (max (content.arrival now) now + r.cost 1)) :=
        hle.trans hfit
      have hrest := ih hnext
      rw [Content.arrival_int] at hrest
      constructor
      · rintro ⟨reply, tat, ms, hok, hunits⟩
        cases hok.symm.trans hstep
        have hzero : k = 0 → r.cost k = 0 := fun hk0 => hk0 ▸ cost_zero
        have := hrest.mp hunits
        omega
      · intro hroom
        exact ⟨_, _, _, hstep, hrest.mpr (by omega)⟩
    · constructor
      · rintro ⟨reply, tat, ms, hok, -⟩
        rcases exactThrottle_of_lt (not_le.mp hle) with hlt | hlt <;>
          cases (heq.trans hlt).symm.trans hok
      · omega

theorem Rate.natCast_le_remaining_iff (hpos : 1 ≤ r.interval) (k : ℕ) (ttl : ℤ) :
    (k : ℤ) ≤ r.remaining ttl ↔ k = 0 ∨ r.cost k ≤ r.tolerance - ttl := by
  rw [remaining, le_max_iff, Int.le_ediv_iff_mul_le (by omega), Int.mul_comm, ← cost]
  omega

theorem Rate.remaining_le (h : r.Accepts quantity) {ttl : ℤ} (httl : 0 ≤ ttl) :
    r.remaining ttl ≤ r.limit := by
  have hpos := h.interval_pos
  have hlimit := h.limit_pos
  apply max_le (by omega)
  rw [← Int.mul_ediv_cancel_left r.limit (show r.interval ≠ 0 by omega)]
  exact Int.ediv_le_ediv (by omega) (Int.sub_le_self _ httl)

/-- One request of a history: what it found, and what came out. -/
structure Entry where
  quantity : ℕ
  now : ℤ
  content : Content
  outcome : Outcome

/-- What the key holds after the request, unless it has expired. -/
def Entry.left (x : Entry) : Content :=
  match x.outcome with
  | .ok (_, some (tat, _)) => .int tat
  | _ => x.content

/-- **What a reply promises.** -/
structure EntryRight (r : Rate) (x : Entry) : Prop where
  /-- No step overflows unnoticed. -/
  exact : x.outcome = r.exactThrottle x.quantity x.now (x.content.arrival x.now)
  /-- A limited request is admitted once its retry-after has passed, whether the key has expired or
  not. -/
  retry : ∀ reply store, x.outcome = .ok (reply, store) → reply.limited → 0 ≤ reply.retryAfterMs →
    ∀ later content, x.now + reply.retryAfterMs * 1000000 ≤ later → content = x.content ∨
      content = .missing →
      Meets r x.quantity later content → admitted (opThrottle r x.quantity later content)
  /-- The numbers lie where they should, and the remaining units are those that would still be
  admitted. -/
  reply : ∀ reply store, x.outcome = .ok (reply, store) →
    0 ≤ reply.remaining ∧ reply.remaining ≤ r.limit ∧ 0 ≤ reply.resetAfterMs ∧
      ∀ k : ℕ, r.admitsUnits x.now k x.left ↔ (k : ℤ) ≤ reply.remaining

/-- A limited request for no more than the bucket holds goes through when its retry-after is
over. -/
theorem admitted_later (h : r.Accepts quantity) (hc : content.Numeric) (hnow : 0 ≤ now)
    (htat : now ≤ content.arrival now) {later : ℤ} {content' : Content}
    (hretry : 0 ≤ (r.limitedReply quantity now (content.arrival now)
      (content.arrival now + r.cost quantity)).retryAfterMs)
    (hlater : now + (r.limitedReply quantity now (content.arrival now)
      (content.arrival now + r.cost quantity)).retryAfterMs * 1000000 ≤ later)
    (hcontent : content' = content ∨ content' = .missing)
    (hmeets : Meets r quantity later content') :
    admitted (opThrottle r quantity later content') := by
  simp only [Rate.limitedReply] at hretry hlater
  split at hlater
  case isFalse hbig =>
    omega
  case isTrue hsmall =>
    have hnumeric : content'.Numeric := by
      rcases hcontent with rfl | rfl
      · exact hc
      · trivial
    have htat' : content'.arrival later ≤ content.arrival now ∨ content'.arrival later = later := by
      rcases hcontent with rfl | rfl
      · cases content' <;> simp [Content.arrival]
      · exact .inr rfl
    rw [opThrottle_eq h (by omega) hnumeric hmeets, exactThrottle_of_le hmeets.1 (by omega)]
    rfl

/-- **One request that meets the condition gets the right reply.** -/
theorem entryRight (h : r.Accepts quantity) (hnow : 0 ≤ now) (hc : content.Numeric)
    (hmeets : Meets r quantity now content) :
    EntryRight r ⟨quantity, now, content, opThrottle r quantity now content⟩ := by
  have heq := opThrottle_eq h hnow hc hmeets
  have hinc := h.cost_nonneg quantity
  by_cases hle : max (content.arrival now) now + r.cost quantity ≤ now + r.tolerance
  · rw [exactThrottle_of_le hmeets.1 hle] at heq
    refine ⟨opThrottle_eq h hnow hc hmeets, ?_, ?_⟩
    · intro reply store hreply hlimited
      cases hreply.symm.trans heq
      cases hlimited
    · intro reply store hreply
      cases hreply.symm.trans heq
      have hleft : (Entry.mk quantity now content (opThrottle r quantity now content)).left =
          .int (max (content.arrival now) now + r.cost quantity) := by
        simp only [Entry.left, heq]
      refine ⟨le_max_left _ _, Rate.remaining_le h (by omega),
        Int.ediv_nonneg (by omega) (by omega), fun k => ?_⟩
      rw [hleft, Rate.admitsUnits_iff h.one hnow hmeets.1 k
        (show Content.Numeric (.int _) from hle.trans hmeets.1),
        Rate.admittedReply, Rate.natCast_le_remaining_iff h.interval_pos, Content.arrival_int]
      omega
  · -- a limited request is either too large or finds an arrival time ahead of the clock
    have htat : now ≤ content.arrival now := by
      rcases hmeets.2 with hsmall | hahead
      · have hfits := h.cost_le_tolerance hsmall
        omega
      · exact hahead
    have hlt := exactThrottle_of_lt (not_le.mp hle)
    rw [← heq, max_eq_left htat] at hlt
    refine ⟨heq, ?_, ?_⟩
    · intro reply store hreply _ hretry later content' hlater hcontent hlate
      rcases hlt with hlt | hlt <;> cases hreply.symm.trans hlt
      exact admitted_later h hc hnow htat hretry hlater hcontent hlate
    · intro reply store hreply
      rcases hlt with hlt | hlt <;> cases hreply.symm.trans hlt
      have hleft : (Entry.mk quantity now content (opThrottle r quantity now content)).left =
        content := by
        simp only [Entry.left, hlt]
      refine ⟨le_max_left _ _, Rate.remaining_le h (by omega),
        Int.ediv_nonneg (by omega) (by omega), fun k => ?_⟩
      rw [hleft, Rate.admitsUnits_iff h.one hnow hmeets.1 k hc, Rate.limitedReply,
        Rate.natCast_le_remaining_iff h.interval_pos, max_eq_left htat]
      omega

/-! ## §5 Histories -/

/-- The number under the key with its expiry in milliseconds, and the time of the last request. -/
structure State where
  stored : Option (ℤ × Option ℤ)
  clock : ℤ

/-- What a request at `now` may find: the key disappears no earlier than its expiry. -/
inductive Seen (s : State) (now : ℤ) : Content → Prop where
  | absent (h : s.stored = none) : Seen s now .missing
  | present (value : ℤ) (expiry : Option ℤ) (h : s.stored = some (value, expiry)) :
    Seen s now (.int value)
  | expired (value ms : ℤ) (h : s.stored = some (value, some ms)) (hms : ms * 1000000 ≤ now) :
    Seen s now .missing

/-- The key after a request that found `content`. -/
def State.after (s : State) (now : ℤ) (content : Content) (outcome : Outcome) : State where
  stored := match outcome with
    | .ok (_, some (tat, ms)) => some (tat, some ms)
    | _ => if content = .missing then none else s.stored
  clock := now

/-- The histories of requests on one key, the last request first. -/
inductive Run (r : Rate) (start : State) : State → List Entry → Prop where
  | start : Run r start start []
  | request {s : State} {log : List Entry} (h : Run r start s log) (quantity : ℕ) (now : ℤ)
    (content : Content)
      (haccepts : CommandAccepts r quantity) (hclock : s.clock ≤ now) (hseen : Seen s now content) :
      Run r start (s.after now content (opThrottle r quantity now content))
        (⟨quantity, now, content, opThrottle r quantity now content⟩ :: log)

/-- The total quantity of the requests that were admitted between two instants. -/
def quantityIn (a b : ℤ) : List Entry → ℕ
  | [] => 0
  | x :: log =>
    (if admitted x.outcome ∧ a ≤ x.now ∧ x.now ≤ b then x.quantity else 0) + quantityIn a b log

variable {s start : State} {log : List Entry} {a b : ℤ}

theorem quantityIn_late (h : ∀ x ∈ log, x.now < a) : quantityIn a b log = 0 := by
  induction log with
  | nil => rfl
  | cons x log ih =>
    have hx := h x mem_cons_self
    simp only [quantityIn, ih fun y hy => h y (mem_cons_of_mem _ hy)]
    rw [if_neg (by omega)]

theorem quantityIn_upto {c : ℤ} (hb : ∀ x ∈ log, x.now ≤ b) (hc : ∀ x ∈ log, x.now ≤ c) :
    quantityIn a b log = quantityIn a c log := by
  induction log with
  | nil => rfl
  | cons x log ih =>
    simp [quantityIn, hb x mem_cons_self, hc x mem_cons_self,
      ih (fun y hy => hb y (mem_cons_of_mem _ hy)) fun y hy => hc y (mem_cons_of_mem _ hy)]

/-- The next request starts from `x` at the earliest: the clock has reached it, or the stored number
has and does not expire before. -/
def Backed (s : State) (x : ℤ) : Prop :=
  x ≤ s.clock ∨ ∃ tat ms, s.stored = some (tat, some ms) ∧ tat ≤ ms * 1000000 ∧ x ≤ tat

/-- What the key stands for bounds the arrival time a request finds. -/
theorem Backed.le_base {x : ℤ} (h : Backed s x) (hclock : s.clock ≤ now)
    (hseen : Seen s now content) :
    x ≤ max (content.arrival now) now := by
  rcases h with h | ⟨tat, ms, hstored, hms, hx⟩
  · exact le_max_of_le_right (h.trans hclock)
  · cases hseen with
    | absent hnone => cases hnone.symm.trans hstored
    | present value expiry hsome =>
      cases hsome.symm.trans hstored
      exact le_max_of_le_left hx
    | expired value ms' hsome hexpired =>
      cases hsome.symm.trans hstored
      exact le_max_of_le_right (by omega)

/-- A request that is not admitted keeps what the key stands for. -/
theorem Backed.after {x : ℤ} {outcome : Outcome} (h : Backed s x) (hclock : s.clock ≤ now)
    (hseen : Seen s now content)
    (hkeep : (s.after now content outcome).stored = if content = .missing then none else s.stored) :
    Backed (s.after now content outcome) x := by
  have hbase := h.le_base hclock hseen
  rcases h with h | ⟨tat, ms, hstored, hms, hx⟩
  · exact .inl (h.trans hclock)
  · by_cases hmissing : content = .missing
    · subst hmissing
      exact .inl (hbase.trans (max_self now).le)
    · exact .inr ⟨tat, ms, by rw [hkeep, if_neg hmissing, hstored], hms, hx⟩

/-- What holds after every history: the requests admitted from `a` on have moved the arrival time
ahead of `a` by all that they cost. -/
structure Paced (r : Rate) (s : State) (log : List Entry) : Prop where
  clock : 0 ≤ s.clock
  stored : ∀ value expiry, s.stored = some (value, expiry) → value ≤ int64Max
  times : ∀ x ∈ log, x.now ≤ s.clock
  backed : ∀ a ≤ s.clock, Backed s (a + r.cost (quantityIn a s.clock log))

section

variable (h : Paced r s log)
include h

theorem Paced.numeric (hseen : Seen s now content) : content.Numeric := by
  cases hseen with
  | absent => trivial
  | present value expiry hsome => exact h.stored value expiry hsome
  | expired => trivial

section

variable (hclock : s.clock ≤ now)
include hclock

theorem Paced.upto : ∀ x ∈ log, x.now ≤ now :=
  fun x hx => (h.times x hx).trans hclock

theorem Paced.backed_later (ha : a ≤ now) :
    Backed s (a + r.cost (quantityIn a now log)) ∨ a + r.cost (quantityIn a now log) ≤ now := by
  rw [quantityIn_upto (h.upto hclock) h.times]
  rcases le_or_gt a s.clock with hle | hlt
  · exact .inl (h.backed a hle)
  · rw [quantityIn_late fun x hx => (h.times x hx).trans_lt hlt, Rate.cost_zero, add_zero]
    exact .inr ha

theorem Paced.le_base (hseen : Seen s now content) (ha : a ≤ now) :
    a + r.cost (quantityIn a now log) ≤ max (content.arrival now) now :=
  (h.backed_later hclock ha).elim (fun hb => hb.le_base hclock hseen) le_max_of_le_right

end

/-- One request keeps the pace: an admitted one moves the arrival time by its cost. -/
theorem Paced.request (haccepts : r.Accepts quantity) (hclock : s.clock ≤ now)
    (hseen : Seen s now content) (hmeets : Meets r quantity now content) :
    Paced r (s.after now content (opThrottle r quantity now content))
      (⟨quantity, now, content, opThrottle r quantity now content⟩ :: log) := by
  have hnow := h.clock.trans hclock
  have heq := opThrottle_eq haccepts hnow (h.numeric hseen) hmeets
  by_cases hle : max (content.arrival now) now + r.cost quantity ≤ now + r.tolerance
  · rw [exactThrottle_of_le hmeets.1 hle] at heq
    rw [heq]
    refine ⟨hnow, ?_, forall_mem_cons.mpr ⟨le_refl now, h.upto hclock⟩, ?_⟩
    · rintro value expiry hsome
      cases hsome
      exact hle.trans hmeets.1
    · intro a ha
      have hbase := h.le_base hclock hseen ha
      refine .inr ⟨_, _, rfl, by omega, ?_⟩
      simp only [State.after] at ha ⊢
      simp only [quantityIn, admitted, Rate.admittedReply, ha, le_refl, and_self,
        Bool.not_false, if_true]
      rw [Rate.cost_add]
      omega
  · have hkeep : (s.after now content (opThrottle r quantity now content)).stored =
        if content = .missing then none else s.stored := by
      rcases exactThrottle_of_lt (not_le.mp hle) with hlt | hlt <;> rw [heq, hlt] <;> rfl
    have hnot : admitted (opThrottle r quantity now content) = false := by
      rcases exactThrottle_of_lt (not_le.mp hle) with hlt | hlt <;> rw [heq, hlt] <;> rfl
    refine ⟨hnow, ?_, forall_mem_cons.mpr ⟨le_refl now, h.upto hclock⟩, ?_⟩
    · intro value expiry hsome
      rw [hkeep] at hsome
      split at hsome
      · cases hsome
      · exact h.stored value expiry hsome
    · intro a ha
      simp only [quantityIn, hnot, Bool.false_eq_true, false_and, if_false, zero_add]
      exact (h.backed_later hclock ha).elim (fun hb => hb.after hclock hseen hkeep) .inl

end

/-- A key that is absent or holds an integer, at a time after the epoch. -/
def State.Initial (s : State) : Prop :=
  0 ≤ s.clock ∧ ∀ value expiry, s.stored = some (value, expiry) → int64Min ≤ value ∧
    value ≤ int64Max

section

variable (h : Run r start s log) (hstart : start.Initial)
  (hmeets : ∀ x ∈ log, Meets r x.quantity x.now x.content)
include h hstart hmeets

/-- The pace holds after every history. -/
theorem Run.paced : Paced r s log := by
  induction h with
  | start =>
    refine ⟨hstart.1, fun value expiry h => (hstart.2 value expiry h).2,
      by simp, fun a ha => .inl ?_⟩
    simpa [quantityIn, Rate.cost_zero] using ha
  | request h quantity now content haccepts hclock hseen ih =>
    rw [forall_mem_cons] at hmeets
    exact (ih hmeets.2).request haccepts.accepts hclock hseen hmeets.1

/-- In a window the cost is at most the bucket and the length of the window. -/
theorem Run.window (hbucket : 0 ≤ r.tolerance) (hab : a ≤ b) :
    r.cost (quantityIn a b log) ≤ r.tolerance + (b - a) := by
  induction h with
  | start =>
    rw [quantityIn, Rate.cost_zero]
    omega
  | @request s log h quantity now content haccepts hclock hseen ih =>
    rw [forall_mem_cons] at hmeets
    have hpaced := h.paced hstart hmeets.2
    simp only [quantityIn]
    split
    case isFalse => simpa using ih hmeets.2
    case isTrue hin =>
      obtain ⟨hadmitted, ha, hb⟩ := hin
      -- the request itself was within the tolerance, and it stands behind all the earlier ones
      have hle : max (content.arrival now) now + r.cost quantity ≤ now + r.tolerance := by
        by_contra hgt
        rw [opThrottle_eq haccepts.accepts (hpaced.clock.trans hclock)
          (hpaced.numeric hseen) hmeets.1] at hadmitted
        rcases exactThrottle_of_lt (not_le.mp hgt) with hlt | hlt <;> rw [hlt] at hadmitted <;>
          cases hadmitted
      have hbase := hpaced.le_base hclock hseen ha
      rw [quantityIn_upto (fun x hx => (hpaced.upto hclock x hx).trans hb) (hpaced.upto hclock),
        Rate.cost_add]
      omega

/-- Every reply of a history is right. -/
theorem Run.right : ∀ x ∈ log, EntryRight r x := by
  induction h with
  | start => simp
  | request h quantity now content haccepts hclock hseen ih =>
    rw [forall_mem_cons] at hmeets ⊢
    have hpaced := h.paced hstart hmeets.2
    exact ⟨entryRight haccepts.accepts (hpaced.clock.trans hclock) (hpaced.numeric hseen) hmeets.1,
      ih hmeets.2⟩

end

/-- **The rate holds over every history, and every reply is right,** as long as no request that
costs more than the whole bucket finds a number from the past, and the times are small enough. -/
theorem throttle_run (hrate : ∃ quantity, CommandAccepts r quantity) (hstart : start.Initial)
    (h : Run r start s log) (hmeets : ∀ x ∈ log, Meets r x.quantity x.now x.content) :
    (∀ a T : ℤ, 0 ≤ T → r.interval * quantityIn a (a + T) log ≤ r.interval * r.limit + T) ∧
      ∀ x ∈ log, EntryRight r x := by
  obtain ⟨quantity, haccepts⟩ := hrate
  have hbucket : 0 ≤ r.tolerance :=
    (zero_le_one.trans haccepts.accepts.interval_pos).trans haccepts.accepts.interval_le
  refine ⟨fun a T hT => ?_, h.right hstart hmeets⟩
  have hwindow := h.window hstart hmeets hbucket (show a ≤ a + T by omega)
  rwa [add_sub_cancel_left] at hwindow

theorem commandAccepts_second : CommandAccepts ⟨1, 1000000000⟩ 1 := ⟨0, 1, 1, rfl⟩

/-- A request is admitted, one half a second later finds its time and is limited, and one after the
key has expired is admitted again. -/
theorem throttle_run_three :
    ∃ s log, Run ⟨1, 1000000000⟩ ⟨none, 0⟩ s log ∧
      log.map Entry.content = [.missing, .int 6000000000, .missing] ∧
      ∀ x ∈ log, EntryRight ⟨1, 1000000000⟩ x := by
  have hfirst := Run.request .start 1 5000000000 .missing commandAccepts_second
    (show (0 : ℤ) ≤ 5000000000 by decide) (Seen.absent (s := ⟨none, 0⟩) rfl)
  have hsecond := hfirst.request 1 5500000000 (.int 6000000000) commandAccepts_second (by decide)
    (.present _ (some 6000) rfl)
  have hthird := hsecond.request 1 7000000000 .missing commandAccepts_second (by decide)
    (.expired _ 6000 rfl (by decide))
  refine ⟨_, _, hthird, rfl, (throttle_run ⟨1, commandAccepts_second⟩ ?_ hthird ?_).2⟩
  · exact ⟨le_refl 0, fun _ _ h => by cases h⟩
  · simp only [forall_mem_cons, not_mem_nil, false_imp_iff, implies_true, and_true]
    exact ⟨⟨by decide, .inl (by decide)⟩, ⟨by decide, .inl (by decide)⟩,
      by decide, .inl (by decide)⟩

/-- The key holds `0`, the request asks for two units where the bucket holds one, and the clock
stands at five seconds: the reply says that six more requests would be admitted, and that the bucket
is full again after more than five hundred years. -/
theorem opThrottle_past :
    CommandAccepts ⟨1, 1000000000⟩ 2 ∧
      opThrottle ⟨1, 1000000000⟩ 2 5000000000 (.int 0) =
        .ok (⟨true, 1, 6, -1000, 18446744068710⟩, none) :=
  ⟨⟨0, 1, 1, rfl⟩, by decide⟩

end Drakeydb.Strings
