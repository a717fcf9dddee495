import Drakeydb.Json.Arithmetic

/-!
# `JSON.NUMINCRBY` and `JSON.NUMMULTBY`

`OpDoubleArithmetic` of `server/json_family.cc`: the operand is read as a `double`, and the callback
applies the operation to every number that the path selects.

The function that reads numbers, `fast_float::from_chars`, is a parameter that behaves as documented
on what is written as an integer. `as_string`, which prints the reply, is left out: the reply is the
JSON value.
-/

namespace Drakeydb.Json

open Lib.BinaryFloat Lib.Ascii List Option

/-! ## §1 Reading the operand -/

/-- What may stand before the digits. -/
inductive Sign where
  | none
  | plus
  | minus
  deriving DecidableEq

/-- An integer as it is written. -/
structure Operand where
  sign : Sign
  digits : Bytes
  nonempty : digits ≠ []
  decimal : ∀ c ∈ digits, 48 ≤ c ∧ c ≤ 57

namespace Operand

/-- The argument of the command. -/
def bytes (o : Operand) : Bytes :=
  match o.sign with
  | .none => o.digits
  | .plus => 43 :: o.digits
  | .minus => 45 :: o.digits

def value (o : Operand) : ℤ :=
  match o.sign with
  | .minus => -((readDigits 0 o.digits).getD 0 : ℕ)
  | _ => ((readDigits 0 o.digits).getD 0 : ℕ)

end Operand

/-- `std::errc`, as far as `from_chars` reports it. -/
inductive Errc where
  | invalidArgument
  | resultOutOfRange

/-- An integer is read as the nearest `double`, if there is one. -/
def readAs (z : ℤ) : Except Errc (Datum × Bytes) :=
  if binary64.Overflows z then .error .resultOutOfRange else .ok (.finite (binary64.nearest z), [])

/-- `fast_float::from_chars`: the value and what is left of the input. A plus sign is not taken. -/
structure FromChars where
  fromChars : Bytes → Except Errc (Datum × Bytes)
  plus : ∀ s, fromChars (43 :: s) = .error .invalidArgument
  integer : ∀ o : Operand, o.sign ≠ .plus → fromChars o.bytes = readAs o.value

def parseDouble (p : FromChars) (src : Bytes) : Option Datum :=
  if src = [] then none
  else if equalsIgnoreCase src (text "-inf") then some (.infinite true)
  else if equalsIgnoreCase src (text "+inf") then some (.infinite false)
  else
    match p.fromChars src with
    | .ok (value, []) => if value = .nan then none else some value
    | _ => none

/-! ## §2 The command -/

inductive OpStatus where
  | wrongType
  | wrongJsonType
  | invalidNumericResult
  deriving DecidableEq

/-- The callback; an overflow leaves the number as it is. -/
def arithmeticCallback (op : ArithmeticOpType) (num : Datum) (numIsDouble : Bool) :
    Callback Scalar :=
  fun _ arg =>
    match arg.2 with
    | .scalar (.number val) =>
      (binOpApply op num numIsDouble val).toOption.join.map fun r => .scalar (.number r)
    | _ => none

/-- What `BinOpApply` does in a call. -/
def arithmeticOutcome (op : ArithmeticOpType) (num : Datum) (numIsDouble : Bool) (c : Call Scalar) :
    Option (Except Undefined (Option Number)) :=
  match c.arg.2 with
  | .scalar (.number val) => some (binOpApply op num numIsDouble val)
  | _ => none

/-- `DoubleArithmeticCallbackResult`: without legacy mode the reply is an array, with null for what
is no number; with it the last result counts. -/
def addResult (legacy : Bool) (reply : Option (List (Json Scalar)))
    (result : Option (Json Scalar)) :
    Option (List (Json Scalar)) :=
  match legacy, result with
  | true, some value => some [value]
  | true, none => reply
  | false, some value => reply.map (· ++ [value])
  | false, none => reply.map (· ++ [.scalar .null])

/-- `json_value` after all calls. -/
def jsonValue (legacy : Bool) (calls : List (Call Scalar)) : Option (Json Scalar) :=
  if legacy then (calls.foldl (fun reply c => addResult true reply c.result) none).bind List.head?
  else (calls.foldl (fun reply c => addResult false reply c.result) (some [])).map .array

/-- `OpDoubleArithmetic`: the reply and the document afterwards. -/
def opDoubleArithmetic (p : FromChars) (fuel : ℕ) (path : List PathSegment) (legacy : Bool)
    (num : Bytes) (op : ArithmeticOpType) (doc : Json Scalar) :
    Option (Except Undefined (Except OpStatus (Json Scalar) × Json Scalar)) :=
  let hasFractionalPart := decide (46 ∈ num)
  match parseDouble p num with
  | none => some (.ok (.error .wrongType, doc))
  | some value =>
    (mutatePath fuel path (arithmeticCallback op value hasFractionalPart) doc).map fun run =>
      match run with
      | .error _ => .error .destroyed
      | .ok s =>
        let outcomes := s.calls.filterMap (arithmeticOutcome op value hasFractionalPart)
        if outcomes.any fun outcome => outcome.toOption.isNone then .error .conversion
        else if outcomes.any fun outcome => outcome.toOption.join.isNone then
          .ok (.error .invalidNumericResult, s.doc)
        else
          match jsonValue legacy s.calls with
          | none => .ok (.error .wrongJsonType, s.doc)
          | some reply => .ok (.ok reply, s.doc)

/-! ## §3 Integers as operands -/

theorem digit_cases : ∀ n < 256, 48 ≤ UInt8.ofNat n → UInt8.ofNat n ≤ 57 →
    toLower (UInt8.ofNat n) ≠ 105 ∧ UInt8.ofNat n ≠ 46 ∧ UInt8.ofNat n ≠ 43 := by decide +kernel

variable (o : Operand) {c : UInt8}

theorem Operand.not_letter (hc : c ∈ o.bytes) : toLower c ≠ 105 ∧ c ≠ 46 := by
  have hdigit : ∀ d ∈ o.digits, toLower d ≠ 105 ∧ d ≠ 46 := by
    intro d hd
    obtain ⟨hlow, hhigh⟩ := o.decimal d hd
    have hcase := digit_cases d.toNat d.toNat_lt
    rw [UInt8.ofNat_toNat] at hcase
    exact ⟨(hcase hlow hhigh).1, (hcase hlow hhigh).2.1⟩
  rw [Operand.bytes] at hc
  split at hc
  · exact hdigit c hc
  · rcases mem_cons.mp hc with rfl | hc
    · exact ⟨by decide, by decide⟩
    · exact hdigit c hc
  · rcases mem_cons.mp hc with rfl | hc
    · exact ⟨by decide, by decide⟩
    · exact hdigit c hc

theorem Operand.not_inf {s : Bytes} (hs : 105 ∈ asciiStrToLower s) :
    equalsIgnoreCase o.bytes s = false := by
  apply decide_eq_false
  intro heq
  rw [← heq] at hs
  obtain ⟨c, hc, hlower⟩ := mem_map.mp hs
  exact (o.not_letter hc).1 hlower

theorem Operand.bytes_ne_nil : o.bytes ≠ [] := by
  rw [Operand.bytes]
  split
  · exact o.nonempty
  · exact cons_ne_nil _ _
  · exact cons_ne_nil _ _

variable (p : FromChars)

/-- **An integer as operand** is refused if it has a plus sign or is too large, and else read as the
nearest `double`. -/
theorem parseDouble_operand (o : Operand) :
    parseDouble p o.bytes =
      if o.sign = .plus ∨ binary64.Overflows o.value then none
      else some (.finite (binary64.nearest o.value)) := by
  rw [parseDouble, if_neg o.bytes_ne_nil, o.not_inf (by decide), o.not_inf (by decide)]
  simp only [Bool.false_eq_true, if_false]
  by_cases hsign : o.sign = .plus
  · rw [if_pos (.inl hsign), Operand.bytes, hsign]
    simp only [p.plus]
  · rw [p.integer o hsign, readAs]
    by_cases hover : binary64.Overflows o.value
    · rw [if_pos hover, if_pos (.inr hover)]
    · rw [if_neg hover, if_neg (not_or.mpr ⟨hsign, hover⟩)]
      rfl

/-! ## §4 One selected integer -/

variable (op : ArithmeticOpType)

theorem scalarsOnly_arithmeticCallback (num : Datum) (numIsDouble : Bool) :
    ScalarsOnly (arithmeticCallback op num numIsDouble) := by
  rintro earlier ⟨key, x⟩ v h
  rw [arithmeticCallback] at h
  split at h
  case h_1 val hval =>
    obtain ⟨r, -, rfl⟩ := map_eq_some_iff.mp h
    exact ⟨by rw [hval]; rfl, rfl⟩
  case h_2 => cases h

/-- The reply for one number. -/
def oneReply (legacy : Bool) (r : Number) : Json Scalar :=
  if legacy then .scalar (.number r) else .array [.scalar (.number r)]

/-- What a command does that has one selected number, by what `BinOpApply` does. -/
def afterOne (legacy : Bool) (loc : List ℕ) (doc : Json Scalar) :
    Except Undefined (Option Number) →
      Except Undefined (Except OpStatus (Json Scalar) × Json Scalar)
  | .error _ => .error .conversion
  | .ok none => .ok (.error .invalidNumericResult, doc)
  | .ok (some r) => .ok (.ok (oneReply legacy r), doc.put loc (.scalar (.number r)))

section One

variable {path : List Step} {doc : Json Scalar} {x : Ref Scalar} {val : Number}

/-- **The command on one selected number.** -/
theorem opDoubleArithmetic_spec {num : Bytes} {value : Datum} (legacy : Bool)
    (hparse : parseDouble p num = some value) (hpath : Accepted path) (hfits : (Ref.mk [] doc).Fits)
    (hselect : select path ⟨[], doc⟩ = [x]) (hx : x.json = .scalar (.number val)) :
    ∃ rounds, ∀ fuel, rounds ≤ fuel →
      opDoubleArithmetic p fuel (path.map Step.segment) legacy num op doc =
        some (afterOne legacy x.loc doc (binOpApply op value (decide (46 ∈ num)) val)) := by
  have hcb := scalarsOnly_arithmeticCallback op value (decide (46 ∈ num))
  obtain ⟨rounds, hrun⟩ := mutatePath_scalars hcb path hfits
  refine ⟨rounds, fun fuel hle => ?_⟩
  -- one node is selected, so there is one call
  have hplaces := map_snd_selectedPlaces hpath hfits
  rw [hselect] at hplaces
  obtain ⟨⟨key, loc⟩, hplace, hloc⟩ := map_eq_singleton_iff.mp hplaces
  cases hloc
  have hvalue : doc.valueAt x.loc = some (.scalar (.number val)) := by
    rw [← hx]
    exact valueAt_of_select hfits (hselect ▸ mem_singleton_self x)
  rw [opDoubleArithmetic, hparse]
  dsimp only
  rw [hrun fuel hle, hplace, foldl_cons, foldl_nil, Mutation.callAt, hvalue]
  simp only [map_some, nil_append, filterMap_cons, filterMap_nil,
    arithmeticOutcome, arithmeticCallback, any_cons, any_nil, Bool.or_false]
  cases hresult : binOpApply op value (decide (46 ∈ num)) val with
  | error fault => rfl
  | ok outcome =>
    cases outcome with
    | none => rfl
    | some r => cases legacy <;> rfl

end One

/-! ## §5 A reader of integers -/

/-- The digits after a sign. -/
def readSigned (negative : Bool) (digits : Bytes) : Except Errc (Datum × Bytes) :=
  if digits = [] then .error .invalidArgument
  else (readDigits 0 digits).elim (.error .invalidArgument) fun m =>
    readAs (if negative then -m else m)

/-- A reader that takes nothing but integers. -/
def readInteger : Bytes → Except Errc (Datum × Bytes)
  | 43 :: _ => .error .invalidArgument
  | 45 :: digits => readSigned true digits
  | digits => readSigned false digits

variable {digits : Bytes}

theorem exists_readDigits (h : ∀ c ∈ digits, 48 ≤ c ∧ c ≤ 57) (acc : ℕ) :
    ∃ m, readDigits acc digits = some m := by
  induction digits generalizing acc with
  | nil => exact ⟨acc, rfl⟩
  | cons c digits ih =>
    rw [readDigits, decimalValue, if_pos (h c mem_cons_self), bind_some]
    exact ih (fun d hd => h d (mem_cons_of_mem c hd)) _

theorem readInteger_digits (h : ∀ c ∈ digits, 48 ≤ c ∧ c ≤ 57) :
    readInteger digits = readSigned false digits := by
  rw [readInteger.eq_def]
  split
  · exact absurd (h 43 mem_cons_self).1 (by decide)
  · exact absurd (h 45 mem_cons_self).1 (by decide)
  · rfl

theorem readInteger_minus (digits : Bytes) :
    readInteger (45 :: digits) = readSigned true digits := rfl

theorem readInteger_operand (hsign : o.sign ≠ .plus) : readInteger o.bytes = readAs o.value := by
  obtain ⟨m, hm⟩ := exists_readDigits o.decimal 0
  have hread : ∀ negative, readSigned negative o.digits = readAs (if negative then -m else m) := by
    intro negative
    rw [readSigned, if_neg o.nonempty, hm]
    rfl
  rw [Operand.bytes, Operand.value, hm]
  cases hcase : o.sign with
  | none => exact (readInteger_digits o.decimal).trans (hread false)
  | plus => exact absurd hcase hsign
  | minus => exact (readInteger_minus o.digits).trans (hread true)

/-- It behaves as documented. -/
def integerReader : FromChars where
  fromChars := readInteger
  plus := fun _ => rfl
  integer := readInteger_operand

/-! ## §6 Exact operations -/

/-- **An exact operation**: the result is stored and returned if it can be kept, and refused
otherwise. -/
def StoresExactly (op : ArithmeticOpType) (v n : ℤ) (legacy : Bool) (loc : List ℕ)
    (doc : Json Scalar) (out : Except OpStatus (Json Scalar) × Json Scalar) : Prop :=
  if IsStorable (op.apply v n) then
    ∃ r : Number, r.toInt? = some (op.apply v n) ∧
      out = (.ok (oneReply legacy r), doc.put loc (.scalar (.number r)))
  else (∃ status, out.1 = .error status) ∧ out.2 = doc

/-- With enough rounds the command ends, no conversion is undefined, and the operation is exact. -/
def RunsExactly (p : FromChars) (op : ArithmeticOpType) (o : Operand) (legacy : Bool)
    (path : List Step) (doc : Json Scalar) (loc : List ℕ) (v : ℤ) : Prop :=
  ∃ rounds, ∀ fuel, rounds ≤ fuel →
    ∃ out, opDoubleArithmetic p fuel (path.map Step.segment) legacy o.bytes op doc =
      some (.ok out) ∧ StoresExactly op v o.value legacy loc doc out

/-- When an operation is exact, in terms of the integers. An operand that cannot be read is refused,
which is right for a result that cannot be kept. Otherwise both integers are to be `double`s, and
the result one too, or so far out of range that this is noticed. -/
def ExactWhen (op : ArithmeticOpType) (v : ℤ) (o : Operand) : Prop :=
  if o.sign = .plus ∨ upperEnd ≤ |(o.value : ℚ)| then ¬ IsStorable (op.apply v o.value)
  else binary64.HasInt v ∧ binary64.HasInt o.value ∧
    if IsStorable (op.apply v o.value) then binary64.HasInt (op.apply v o.value)
    else (op.apply v o.value : ℤ) < lowerEnd ∨ upperEnd ≤ (op.apply v o.value : ℤ)

theorem storesExactly_refused (v n : ℤ) (legacy : Bool) (loc : List ℕ) (doc : Json Scalar)
    (status : OpStatus) :
    StoresExactly op v n legacy loc doc (.error status, doc) ↔ ¬ IsStorable (op.apply v n) := by
  rw [StoresExactly]
  split
  case isTrue hstorable =>
    refine ⟨?_, fun h => absurd hstorable h⟩
    rintro ⟨r, -, heq⟩
    cases heq
  case isFalse hnot => exact ⟨fun _ => hnot, fun _ => ⟨⟨status, rfl⟩, rfl⟩⟩

theorem exists_storesExactly_afterOne {op : ArithmeticOpType} {v n : ℤ} {legacy : Bool}
    {loc : List ℕ}
    {doc : Json Scalar} (outcome : Except Undefined (Option Number)) :
    (∃ out, afterOne legacy loc doc outcome = .ok out ∧ StoresExactly op v n legacy loc doc out) ↔
      if IsStorable (op.apply v n) then ∃ r, outcome = .ok (some r) ∧ r.toInt? = some (op.apply v n)
      else outcome = .ok none := by
  match outcome with
  | .error fault =>
    constructor
    · rintro ⟨out, hout, -⟩
      cases hout
    · intro h
      split at h
      · obtain ⟨r, hr, -⟩ := h
        cases hr
      · cases h
  | .ok none =>
    have hrefused := storesExactly_refused op v n legacy loc doc .invalidNumericResult
    constructor
    · rintro ⟨out, hout, hexact⟩
      cases hout
      rw [if_neg (hrefused.mp hexact)]
    · intro h
      split at h
      · obtain ⟨r, hr, -⟩ := h
        cases hr
      · next hnot => exact ⟨_, rfl, hrefused.mpr hnot⟩
  | .ok (some r) =>
    constructor
    · rintro ⟨out, hout, hexact⟩
      cases hout
      rw [StoresExactly] at hexact
      split at hexact
      case isTrue hstorable =>
        obtain ⟨r', hr', heq⟩ := hexact
        have hreply : oneReply legacy r = oneReply legacy r' :=
          Except.ok.inj (congrArg Prod.fst heq)
        have hsame : r = r' := by
          cases legacy
          · injection hreply with h
            injection h with h
            injection h with h
            injection h with h
          · injection hreply with h
            injection h with h
        rw [if_pos hstorable]
        exact ⟨r, rfl, hsame ▸ hr'⟩
      case isFalse =>
        obtain ⟨⟨status, hstatus⟩, -⟩ := hexact
        cases hstatus
    · intro h
      split at h
      case isTrue hstorable =>
        obtain ⟨r', hr', hint⟩ := h
        cases hr'
        refine ⟨_, rfl, ?_⟩
        rw [StoresExactly, if_pos hstorable]
        exact ⟨r, hint, rfl⟩
      case isFalse => cases h

section Exact

variable {p : FromChars} {op : ArithmeticOpType} {o : Operand} {legacy : Bool} {path : List Step}
  {doc : Json Scalar} {loc : List ℕ} {v : ℤ}

/-- A command that comes to an end is exact if what it ends with is. -/
theorem runsExactly_iff {rounds : ℕ}
    {res : Except Undefined (Except OpStatus (Json Scalar) × Json Scalar)}
    (hrun : ∀ fuel, rounds ≤ fuel →
      opDoubleArithmetic p fuel (path.map Step.segment) legacy o.bytes op doc = some res) :
    RunsExactly p op o legacy path doc loc v ↔
      ∃ out, res = .ok out ∧ StoresExactly op v o.value legacy loc doc out := by
  constructor
  · rintro ⟨rounds', hexact⟩
    obtain ⟨out, heq, hout⟩ := hexact (max rounds rounds') (Nat.le_max_right _ _)
    rw [hrun _ (Nat.le_max_left _ _)] at heq
    exact ⟨out, some.inj heq, hout⟩
  · rintro ⟨out, heq, hout⟩
    exact ⟨rounds, fun fuel hle => ⟨out, (hrun fuel hle).trans (congrArg some heq), hout⟩⟩

/-- An operand that cannot be read is refused, whatever the result would be. -/
theorem runsExactly_iff_of_unread (h : o.sign = .plus ∨ binary64.Overflows o.value) :
    RunsExactly p op o legacy path doc loc v ↔ ¬ IsStorable (op.apply v o.value) := by
  have hrun : ∀ fuel, 0 ≤ fuel →
    opDoubleArithmetic p fuel (path.map Step.segment) legacy o.bytes op doc =
      some (.ok (.error .wrongType, doc)) := by
    intro fuel _
    rw [opDoubleArithmetic, parseDouble_operand, if_pos h]
  rw [runsExactly_iff hrun, ← storesExactly_refused op v o.value legacy loc doc .wrongType]
  simp

variable {x : Ref Scalar} {val : Number}

/-- What is stored for an operand that can be read is decided by the rounded operation on the
rounded integers. -/
theorem runsExactly_iff_of_read (h : ¬ (o.sign = .plus ∨ binary64.Overflows o.value))
    (hpath : Accepted path) (hfits : (Ref.mk [] doc).Fits) (hselect : select path ⟨[], doc⟩ = [x])
    (hx : x.json = .scalar (.number val)) (hv : val.toInt? = some v) {y : ℚ}
    (hy : y = op.apply (binary64.nearest v) (binary64.nearest o.value)) :
    RunsExactly p op o legacy path doc x.loc v ↔
      if IsStorable (op.apply v o.value) then binary64.nearest y = (op.apply v o.value : ℤ)
      else y < lowerEnd ∨ upperEnd ≤ y := by
  have hparse := parseDouble_operand p o
  rw [if_neg h] at hparse
  have hpoint : decide (46 ∈ o.bytes) = false :=
    decide_eq_false fun hmem => (o.not_letter hmem).2 rfl
  obtain ⟨rounds, hspec⟩ := opDoubleArithmetic_spec p op legacy hparse hpath hfits hselect hx
  rw [hpoint] at hspec
  rw [runsExactly_iff hspec, exists_storesExactly_afterOne]
  split
  case isTrue hstorable => exact binOpApply_eq_iff hv hstorable hy
  case isFalse => exact binOpApply_ok_none_iff hv hy

/-- Between two integers that are `double`s nothing but the result is rounded. -/
theorem runsExactly_iff_of_hasInt (h : ¬ (o.sign = .plus ∨ binary64.Overflows o.value))
    (hpath : Accepted path) (hfits : (Ref.mk [] doc).Fits) (hselect : select path ⟨[], doc⟩ = [x])
    (hx : x.json = .scalar (.number val)) (hv : val.toInt? = some v)
    (hdouble : binary64.HasInt v) (hdouble' : binary64.HasInt o.value) :
    RunsExactly p op o legacy path doc x.loc v ↔
      if IsStorable (op.apply v o.value) then binary64.HasInt (op.apply v o.value)
      else (op.apply v o.value : ℤ) < lowerEnd ∨ upperEnd ≤ (op.apply v o.value : ℤ) := by
  have hy : ((op.apply v o.value : ℤ) : ℚ) =
    op.apply (binary64.nearest v) (binary64.nearest o.value) := by
    rw [(binary64.nearest_intCast_iff (by decide)).mpr hdouble,
      (binary64.nearest_intCast_iff (by decide)).mpr hdouble', apply_intCast]
  rw [runsExactly_iff_of_read h hpath hfits hselect hx hv hy,
    binary64.nearest_intCast_iff (by decide)]

end Exact

/-- **When `JSON.NUMINCRBY` and `JSON.NUMMULTBY` are exact**, for a path that selects one integer.
The condition is enough for all integers, and needed for those that are `double`s. -/
theorem opDoubleArithmetic_exact (p : FromChars) (op : ArithmeticOpType) (o : Operand)
    (legacy : Bool)
    (path : List Step) (hpath : Accepted path) (doc : Json Scalar) (hfits : (Ref.mk [] doc).Fits)
    (x : Ref Scalar) (hselect : select path ⟨[], doc⟩ = [x]) (val : Number)
    (hx : x.json = .scalar (.number val)) (v : ℤ) (hv : val.toInt? = some v) :
    (ExactWhen op v o → RunsExactly p op o legacy path doc x.loc v) ∧
      (RunsExactly p op o legacy path doc x.loc v → binary64.HasInt v → binary64.HasInt o.value →
        ExactWhen op v o) := by
  simp only [ExactWhen, ← overflows_iff]
  by_cases h : o.sign = .plus ∨ binary64.Overflows o.value
  · rw [if_pos h, runsExactly_iff_of_unread h]
    exact ⟨id, fun hexact _ _ => hexact⟩
  · rw [if_neg h]
    have hiff (hdouble) (hdouble') : RunsExactly p op o legacy path doc x.loc v ↔ _ :=
      runsExactly_iff_of_hasInt h hpath hfits hselect hx hv hdouble hdouble'
    constructor
    · rintro ⟨hdouble, hdouble', hresult⟩
      exact (hiff hdouble hdouble').mpr hresult
    · intro hexact hdouble hdouble'
      exact ⟨hdouble, hdouble', (hiff hdouble hdouble').mp hexact⟩

theorem decimal_singleton (h : 48 ≤ c ∧ c ≤ 57) : ∀ d ∈ [c], 48 ≤ d ∧ d ≤ 57 :=
  fun _ hd => mem_singleton.mp hd ▸ h

def operandTwo : Operand := ⟨.none, [50], List.cons_ne_nil _ _, decimal_singleton (by decide)⟩

variable {z : ℤ}

theorem nearest_small (h : |z| < 9007199254740992) : binary64.nearest z = z :=
  (binary64.nearest_intCast_iff (by decide)).mpr ⟨0, one_dvd z, lt_of_lt_of_eq h (by rfl)⟩

theorem not_overflows_small (h : |z| < 9007199254740992) : ¬ binary64.Overflows z := by
  have hcast : |(z : ℚ)| < 9007199254740992 := by exact_mod_cast h
  have hpow : (2 : ℚ) ^ (53 : ℤ) = 9007199254740992 := by norm_num
  exact binary64.not_overflows (k := 53) (by decide) (by rw [hpow]; exact hcast.le)

/-- Above `2 ^ 53` the even integers are `double`s. -/
theorem exactWhen_add_two : ExactWhen .add 9007199254740992 operandTwo := by
  have hvalue : operandTwo.value = 2 := by decide
  have hover : ¬ binary64.Overflows ((2 : ℤ) : ℚ) := not_overflows_small (by decide)
  simp only [ExactWhen, ← overflows_iff, hvalue]
  rw [if_neg (not_or.mpr ⟨by decide, hover⟩), if_pos (by decide)]
  exact ⟨⟨1, by decide, by decide⟩, ⟨0, by decide, by decide⟩, ⟨1, by decide, by decide⟩⟩

/-- `JSON.NUMINCRBY k $.a 2` on `{"a": 9007199254740992}`. -/
theorem opDoubleArithmetic_exact_add_two :
    RunsExactly integerReader .add operandTwo false [.identifier "a"]
      (.object [("a", .scalar (.number (.int64 9007199254740992)))]) [0] 9007199254740992 :=
  (opDoubleArithmetic_exact integerReader .add operandTwo false [.identifier "a"] (by decide)
    (.object [("a", .scalar (.number (.int64 9007199254740992)))])
    (by
      intro y hy
      simp only [Ref.preorder_eq, Ref.children, Ref.entries, Json.entries, map_cons,
        map_nil, mapIdx_cons, mapIdx_nil, flatMap_cons, flatMap_nil,
        append_nil, cons_append, nil_append, mem_cons, not_mem_nil, or_false] at hy
      rcases hy with rfl | rfl <;> decide)
    ⟨[0], .scalar (.number (.int64 9007199254740992))⟩ rfl
      (.int64 9007199254740992) rfl 9007199254740992
    (by decide)).1 exactWhen_add_two

def operandOne : Operand := ⟨.none, [49], List.cons_ne_nil _ _, decimal_singleton (by decide)⟩

theorem parseDouble_one : parseDouble p operandOne.bytes = some (.finite 1) := by
  have hvalue : operandOne.value = 1 := by decide
  have hone := nearest_small (z := 1) (by decide)
  rw [parseDouble_operand, hvalue,
    if_neg (not_or.mpr ⟨by decide, not_overflows_small (by decide)⟩), hone, Int.cast_one]

theorem fits_scalar (value : Scalar) : (Ref.mk [] (Json.scalar value)).Fits := by
  intro y hy
  rw [Ref.preorder_eq] at hy
  cases mem_singleton.mp hy
  exact fun _ => Nat.zero_le _

theorem opDoubleArithmetic_add_one (n : UInt64) {near : ℚ}
    (hnear : binary64.nearest ((n.toNat : ℤ) : ℚ) = near) (hover : ¬ binary64.Overflows (near + 1))
    (hz : binary64.nearest (near + 1) = z) :
    ∃ rounds, ∀ fuel, rounds ≤ fuel →
      opDoubleArithmetic p fuel [] false operandOne.bytes .add (.scalar (.number (.uint64 n))) =
        some (afterOne false [] (.scalar (.number (.uint64 n)))
          (if 18446744073709551616 ≤ z then .error .conversion
          else if 0 ≤ z then .ok (some (.uint64 (UInt64.ofNat z.toNat)))
          else if -9223372036854775808 ≤ z then .ok (some (.int64 (Int64.ofInt z)))
            else .ok none)) := by
  have hselect : select [] (Ref.mk [] (Json.scalar (Scalar.number (.uint64 n)))) =
      [⟨[], .scalar (.number (.uint64 n))⟩] := rfl
  obtain ⟨rounds, hspec⟩ := opDoubleArithmetic_spec p .add false (parseDouble_one p)
    (show Accepted [] from trivial) (fits_scalar _) hselect rfl
  have hx : near + 1 = ArithmeticOpType.add.apply (binary64.nearest ((n.toNat : ℤ) : ℚ)) 1 := by
    rw [hnear]
    rfl
  refine ⟨rounds, fun fuel hle => (hspec fuel hle).trans ?_⟩
  have hint : (Number.uint64 n).toInt? = some (n.toNat : ℤ) := rfl
  rw [← binOpApply_of_not_overflows hint hx hover hz]
  rfl

/-- Rounding between two powers of two, to a number with an even last digit. -/
theorem nearest_between {x : ℚ} (k : ℤ) (m : ℤ) (hk : -1022 ≤ k) (hlow : 2 ^ k ≤ |x|)
    (hhigh : |x| < 2 ^ (k + 1)) (hle : |x - m * 2 ^ (k - 52)| ≤ 2 ^ (k - 52) / 2) (heven : Even m) :
    binary64.nearest x = m * 2 ^ (k - 52) := by
  have hlast : binary64.lastExp x = k - 52 := by
    rw [binary64.lastExp_eq hlow hhigh]
    change max (k + 1 - 53) (-1074) = k - 52
    omega
  exact binary64.nearest_eq_mul hlast hle heven

/-- `JSON.NUMINCRBY k $ 1` on `9007199254740992` stores and returns `9007199254740992`, and on
    `18446744073709551615` it converts a number that is too large. -/
theorem opDoubleArithmetic_inexact :
    (∃ rounds, ∀ fuel, rounds ≤ fuel →
      opDoubleArithmetic integerReader fuel [] false operandOne.bytes .add
          (.scalar (.number (.uint64 9007199254740992))) =
        some (.ok (.ok (.array [.scalar (.number (.uint64 9007199254740992))]),
          .scalar (.number (.uint64 9007199254740992))))) ∧
    ∃ rounds, ∀ fuel, rounds ≤ fuel →
      opDoubleArithmetic integerReader fuel [] false operandOne.bytes .add
          (.scalar (.number (.uint64 18446744073709551615))) = some (.error .conversion) := by
  constructor
  · have hstay : binary64.nearest ((9007199254740992 : ℤ) : ℚ) = 9007199254740992 := by
      rw [nearest_between 53 4503599627370496 (by norm_num) (by norm_num) (by norm_num)
        (by norm_num) (by decide)]
      norm_num
    have hnext : binary64.nearest (9007199254740992 + 1) = ((9007199254740992 : ℤ) : ℚ) := by
      rw [nearest_between 53 4503599627370496 (by norm_num) (by norm_num) (by norm_num)
        (by norm_num) (by decide)]
      norm_num
    have hover : ¬ binary64.Overflows (9007199254740992 + 1) :=
      binary64.not_overflows (k := 54) (by decide) (by norm_num)
    exact opDoubleArithmetic_add_one integerReader 9007199254740992 hstay hover hnext
  · have hup : binary64.nearest ((18446744073709551615 : ℤ) : ℚ) = 18446744073709551616 := by
      rw [nearest_between 63 9007199254740992 (by norm_num) (by norm_num) (by norm_num)
        (by norm_num) (by decide)]
      norm_num
    have hnext : binary64.nearest (18446744073709551616 + 1) =
      ((18446744073709551616 : ℤ) : ℚ) := by
      rw [nearest_between 64 4503599627370496 (by norm_num) (by norm_num) (by norm_num)
        (by norm_num) (by decide)]
      norm_num
    have hover : ¬ binary64.Overflows (18446744073709551616 + 1) :=
      binary64.not_overflows (k := 65) (by decide) (by norm_num)
    exact opDoubleArithmetic_add_one integerReader 18446744073709551615 hup hover hnext

end Drakeydb.Json
