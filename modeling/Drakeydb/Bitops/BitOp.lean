import Drakeydb.Lib.Ascii
import Drakeydb.Lib.Sharding

/-!
# `BITOP`

The command `BITOP` of `server/bitops_family.cc`: every shard combines the values of its source
keys, and the results of the shards are combined once more. A source key that does not exist is
skipped inside its shard, but a shard that has found none of its keys reports the empty string,
which counts as a value. For `OR` and `XOR` that makes no difference; for `AND` it does.
-/

namespace Drakeydb.Bitops

open List

open Lib.Ascii (Bytes)
open Lib.Sharding

/-! ## §1 The code -/

/-- The operations on two bytes. -/
inductive BinOp where
  | or
  | xor
  | and
  deriving DecidableEq

/-- The names that `BITOP` takes. -/
inductive Op where
  | bin (op : BinOp)
  | not

inductive Value where
  | string (bytes : Bytes)
  | other

/-- `OpStatus`, as far as it occurs. -/
inductive OpStatus where
  | keyNotFound
  | wrongType

/-- `GetByteAt`: zero past the end. -/
def getByteAt (s : Bytes) (i : ℕ) : UInt8 := s.getD i 0

/-- `OrOp`, `XorOp`, `AndOp`. -/
def BinOp.apply : BinOp → UInt8 → UInt8 → UInt8
  | or, left, right => left ||| right
  | xor, left, right => left ^^^ right
  | and, left, right => left &&& right

/-- `SkipOr`, `SkipXor`, `SkipAnd`. -/
def BinOp.skip : BinOp → UInt8 → Bool
  | or, byte => byte == 255
  | xor, _ => false
  | and, byte => byte == 0

/-- The inner loop of `BitOpString`, from the third value on. -/
def BinOp.foldSkip (op : BinOp) : UInt8 → List UInt8 → UInt8
  | entry, [] => entry
  | entry, byte :: bytes =>
    let entry := op.apply entry byte
    if op.skip entry then entry else op.foldSkip entry bytes

/-- `BitOpString`; only the size of `newValue` matters. -/
def bitOpString (op : BinOp) (values : List Bytes) (newValue : Bytes) : Bytes :=
  match values with
  | first :: second :: rest =>
    newValue.mapIdx fun i _ =>
      op.foldSkip (op.apply (getByteAt first i) (getByteAt second i)) (rest.map (getByteAt · i))
  | [value] => value
  | [] => []

/-- The first one of the longest values. -/
def longest (first : Bytes) (values : List Bytes) : Bytes :=
  values.foldl (fun best value => if best.length < value.length then value else best) first

def runBitOperationOnValues (op : Op) (values : List Bytes) : Bytes :=
  match values with
  | [] => []
  | first :: rest =>
    match op with
    | .bin .or => bitOpString .or values (longest first rest)
    | .bin .xor => bitOpString .xor values (List.replicate (longest first rest).length 0)
    | .bin .and => bitOpString .and values (List.replicate (longest first rest).length 0)
    | .not => first.map (~~~ ·)

section Command

variable {κ : Type} [DecidableEq κ] {n : ℕ}

/-- `FindReadOnly` for a string. -/
def findString (db : κ → Option Value) (key : κ) : Except OpStatus Bytes :=
  match db key with
  | none => .error .keyNotFound
  | some (.string bytes) => .ok bytes
  | some .other => .error .wrongType

/-- The values of the keys of one shard; a key that is not found is passed over. -/
def collectValues (db : κ → Option Value) : List κ → Except OpStatus (List Bytes)
  | [] => .ok []
  | key :: keys =>
    match findString db key with
    | .ok value => (collectValues db keys).map (value :: ·)
    | .error .keyNotFound => collectValues db keys
    | .error status => .error status

def runBitOpOnShard (op : Op) (db : κ → Option Value) (keys : List κ) : Except OpStatus Bytes :=
  match op, keys with
  | .not, key :: _ => findString db key
  | _, _ => (collectValues db keys).map (runBitOperationOnValues op)

/-- The callback of one shard; a shard without source keys keeps the status it was given. -/
def shardBitop (op : Op) (db : κ → Option Value) (shard : κ → Fin n) (dest : κ) (srcs : List κ)
    (sid : Fin n) : Except OpStatus Bytes :=
  let largs := onShard shard (dest :: srcs) sid
  let keys := if sid = shard dest then largs.tail else largs
  if keys = [] then .error .keyNotFound else runBitOpOnShard op db keys

/-- The loop of `CombineResultOp`. -/
def validResults : List (Except OpStatus Bytes) → Except OpStatus (List Bytes)
  | [] => .ok []
  | .ok value :: results => (validResults results).map (value :: ·)
  | .error .keyNotFound :: results => validResults results
  | .error status :: _ => .error status

def combineResultOp (results : List (Except OpStatus Bytes)) (op : Op) : Except OpStatus Bytes :=
  (validResults results).map (runBitOperationOnValues op)

/-- `Commit`: the empty string deletes the key. -/
def commit (db : κ → Option Value) (dest : κ) (value : Bytes) : κ → Option Value :=
  Function.update db dest (if value = [] then none else some (.string value))

/-- `BITOP`: the new database and the reply. -/
def bitOp (op : Op) (db : κ → Option Value) (shard : κ → Fin n) (dest : κ) (srcs : List κ) :
    Except OpStatus ((κ → Option Value) × ℕ) :=
  (combineResultOp ((List.finRange n).map (shardBitop op db shard dest srcs)) op).map fun value =>
    (commit db dest value, value.length)

end Command

/-! ## §2 What is meant -/

/-- The length of the longest value. -/
def maxLen (values : List Bytes) : ℕ := (values.map List.length).foldr max 0

/-- The fold of an operation over some bytes. -/
def BinOp.foldBytes (op : BinOp) : List UInt8 → UInt8
  | [] => 0
  | byte :: bytes => bytes.foldl op.apply byte

/-- **The bytewise fold over all sources**, padded with zero bytes to the longest one. -/
def foldSources (op : BinOp) (sources : List Bytes) : Bytes :=
  (List.range (maxLen sources)).map fun i => op.foldBytes (sources.map (getByteAt · i))

/-! ## §3 One byte -/

variable {bytes : List UInt8}

section Byte

variable (op : BinOp)

/-- The byte that changes nothing. -/
def BinOp.neutral : BinOp → UInt8
  | or => 0
  | xor => 0
  | and => 255

theorem BinOp.apply_assoc (a b c : UInt8) :
    op.apply (op.apply a b) c = op.apply a (op.apply b c) := by
  cases op
  · exact UInt8.or_assoc ..
  · exact UInt8.xor_assoc ..
  · exact UInt8.and_assoc ..

theorem BinOp.apply_comm (a b : UInt8) : op.apply a b = op.apply b a := by
  cases op
  · exact UInt8.or_comm ..
  · exact UInt8.xor_comm ..
  · exact UInt8.and_comm ..

theorem BinOp.neutral_apply (a : UInt8) : op.apply op.neutral a = a := by
  cases op
  · exact UInt8.zero_or
  · exact UInt8.zero_xor
  · exact UInt8.neg_one_and

theorem BinOp.apply_neutral (a : UInt8) : op.apply a op.neutral = a := by
  rw [apply_comm, neutral_apply]

theorem BinOp.apply_zero_zero : op.apply 0 0 = 0 := by
  cases op <;> rfl

/-- A byte at which the inner loop stops does not change any more. -/
theorem BinOp.apply_of_skip {entry : UInt8} (h : op.skip entry = true) (byte : UInt8) :
    op.apply entry byte = entry := by
  cases op with
  | or =>
    rw [eq_of_beq h]
    exact UInt8.neg_one_or
  | xor => cases h
  | and =>
    rw [eq_of_beq h]
    exact UInt8.zero_and

/-- The bytes as a monoid under one of the operations. -/
def Folded (_ : BinOp) : Type := UInt8

instance Folded.instCommMonoid : CommMonoid (Folded op) where
  mul := op.apply
  one := op.neutral
  mul_assoc := op.apply_assoc
  mul_comm := op.apply_comm
  one_mul := op.neutral_apply
  mul_one := op.apply_neutral

/-- The product of some bytes. -/
def BinOp.prod (bytes : List UInt8) : UInt8 := List.prod (α := Folded op) bytes

theorem BinOp.prod_cons (byte : UInt8) (bytes : List UInt8) :
    op.prod (byte :: bytes) = op.apply byte (op.prod bytes) := rfl

theorem BinOp.foldl_apply (byte : UInt8) (bytes : List UInt8) :
    bytes.foldl op.apply byte = op.prod (byte :: bytes) := by
  induction bytes generalizing byte with
  | nil => exact (op.apply_neutral byte).symm
  | cons next bytes ih => simp only [foldl_cons, ih, prod_cons, apply_assoc]

/-- Leaving the inner loop early does not change the result. -/
theorem BinOp.foldSkip_eq (entry : UInt8) (bytes : List UInt8) :
    op.foldSkip entry bytes = bytes.foldl op.apply entry := by
  induction bytes generalizing entry with
  | nil => rfl
  | cons byte bytes ih =>
    simp only [foldSkip, foldl_cons]
    split
    case isFalse => exact ih _
    case isTrue hskip =>
      -- the rest of the loop would keep the entry
      clear ih
      induction bytes with
      | nil => rfl
      | cons next bytes ih => rwa [foldl_cons, op.apply_of_skip hskip]

theorem BinOp.foldBytes_eq (h : bytes ≠ []) : op.foldBytes bytes = op.prod bytes := by
  cases bytes with
  | nil => exact absurd rfl h
  | cons byte bytes => exact op.foldl_apply byte bytes

theorem BinOp.prod_of_zeros (h : bytes ≠ []) (hzero : ∀ byte ∈ bytes, byte = 0) :
    op.prod bytes = 0 := by
  induction bytes with
  | nil => exact absurd rfl h
  | cons byte bytes ih =>
    obtain ⟨rfl, htail⟩ := forall_mem_cons.mp hzero
    rw [prod_cons]
    cases bytes with
    | nil => exact op.apply_neutral 0
    | cons next bytes => rw [ih (cons_ne_nil _ _) htail, apply_zero_zero]

/-- Missing values count as the neutral byte. -/
theorem BinOp.prod_filterMap {α β : Type} (f : α → Option β) (g : β → UInt8) (l : List α) :
    op.prod ((l.filterMap f).map g) = op.prod (l.map fun a => (f a).elim op.neutral g) := by
  induction l with
  | nil => rfl
  | cons a l ih =>
    cases hfa : f a with
    | none => simp [hfa, ih, prod_cons, neutral_apply]
    | some b => simp [hfa, ih, prod_cons]

/-- The product of a byte for each shard. -/
def BinOp.shardProd {n : ℕ} (f : Fin n → UInt8) : UInt8 :=
  Finset.prod (M := Folded op) Finset.univ f

theorem BinOp.prod_finRange {n : ℕ} (f : Fin n → UInt8) :
    op.prod ((List.finRange n).map f) = op.shardProd f :=
  (Fin.prod_univ_def (M := Folded op) f).symm

theorem BinOp.prod_map_eq_shardProd {κ : Type} {n : ℕ} (shard : κ → Fin n) (f : κ → UInt8)
    (keys : List κ) :
    op.prod (keys.map f) = op.shardProd fun sid => op.prod ((onShard shard keys sid).map f) :=
  prod_map_eq_prod_shards (M := Folded op) shard f keys

end Byte

/-! ## §4 Combined values -/

variable {values : List Bytes}

theorem maxLen_le_iff {m : ℕ} : maxLen values ≤ m ↔ ∀ v ∈ values, v.length ≤ m := by
  induction values with
  | nil => simp [maxLen]
  | cons value values ih => simpa [maxLen] using and_congr Iff.rfl ih

theorem length_longest (first : Bytes) (values : List Bytes) :
    (longest first values).length = maxLen (first :: values) := by
  have hstep : ∀ best value : Bytes,
      (if best.length < value.length then value else best).length =
        max best.length value.length := by
    intro best value
    split <;> omega
  have hfold : ∀ (values : List Bytes) (first : Bytes),
      (longest first values).length = max first.length (maxLen values) := by
    intro values
    induction values with
    | nil => simp [longest, maxLen]
    | cons value values ih =>
      intro first
      change (longest _ values).length = _
      simp [ih, hstep, maxLen, max_assoc]
  exact hfold values first

variable {newValue : Bytes}

theorem length_bitOpString (op : BinOp) (h : values ≠ []) (hlen : newValue.length = maxLen values) :
    (bitOpString op values newValue).length = maxLen values := by
  match values, h with
  | [value], _ => simp [bitOpString, maxLen]
  | first :: second :: rest, _ => simp [bitOpString, hlen]

variable {i : ℕ}

theorem getByteAt_of_le {s : Bytes} (h : s.length ≤ i) : getByteAt s i = 0 := by
  simp [getByteAt, getElem?_eq_none h]

/-- `BitOpString` combines the strings byte by byte, as if padded with zeros. -/
theorem getByteAt_bitOpString (op : BinOp) (h : values ≠ [])
    (hlen : newValue.length = maxLen values) (i : ℕ) :
    getByteAt (bitOpString op values newValue) i = op.prod (values.map (getByteAt · i)) := by
  match values, h with
  | [value], _ => exact (op.apply_neutral _).symm
  | first :: second :: rest, hne =>
    by_cases hi : i < newValue.length
    · have hloop := op.foldSkip_eq (op.apply (getByteAt first i) (getByteAt second i))
        (rest.map (getByteAt · i))
      simp [bitOpString, getByteAt, hi] at hloop ⊢
      rw [hloop, op.foldl_apply, op.prod_cons, op.prod_cons, op.prod_cons, op.apply_assoc]
    · -- past the longest value there are only zero bytes
      have hle : maxLen (first :: second :: rest) ≤ i := hlen ▸ Nat.le_of_not_lt hi
      rw [getByteAt_of_le (by rwa [length_bitOpString op hne hlen]), op.prod_of_zeros]
      · simp
      · intro byte hbyte
        obtain ⟨value, hvalue, rfl⟩ := mem_map.mp hbyte
        exact getByteAt_of_le (maxLen_le_iff.mp hle value hvalue)

/-- Every operation is `BitOpString` on a buffer of the greatest length. -/
theorem exists_newValue (op : BinOp) (h : values ≠ []) :
    ∃ newValue, newValue.length = maxLen values ∧
      runBitOperationOnValues (.bin op) values = bitOpString op values newValue := by
  match values, h with
  | first :: rest, _ =>
    cases op with
    | or => exact ⟨_, length_longest first rest, rfl⟩
    | xor | and => exact ⟨_, (length_replicate ..).trans (length_longest first rest), rfl⟩

theorem length_runBitOperationOnValues (op : BinOp) (values : List Bytes) :
    (runBitOperationOnValues (.bin op) values).length = maxLen values := by
  by_cases h : values = []
  · subst h
    rfl
  · obtain ⟨newValue, hlen, hrun⟩ := exists_newValue op h
    rw [hrun, length_bitOpString op h hlen]

/-- **One byte of a combined value** is the product of the bytes. -/
theorem getByteAt_runBitOperationOnValues (op : BinOp) (h : values ≠ []) (i : ℕ) :
    getByteAt (runBitOperationOnValues (.bin op) values) i =
      op.prod (values.map (getByteAt · i)) := by
  obtain ⟨newValue, hlen, hrun⟩ := exists_newValue op h
  rw [hrun, getByteAt_bitOpString op h hlen]

theorem ext_getByteAt {s t : Bytes} (hlen : s.length = t.length)
    (h : ∀ i, getByteAt s i = getByteAt t i) :
    s = t := by
  apply ext_getElem hlen
  intro i hs ht
  simpa [getByteAt, hs, ht] using h i

theorem length_foldSources (op : BinOp) (sources : List Bytes) :
    (foldSources op sources).length = maxLen sources := by
  simp [foldSources]

theorem getByteAt_foldSources (op : BinOp) {sources : List Bytes} (h : sources ≠ []) (i : ℕ) :
    getByteAt (foldSources op sources) i = op.prod (sources.map (getByteAt · i)) := by
  have hne : sources.map (getByteAt · i) ≠ [] := by simpa using h
  by_cases hi : i < maxLen sources
  · simp [foldSources, getByteAt, hi] at hne ⊢
    exact op.foldBytes_eq (by simpa using h)
  · have hle := Nat.le_of_not_lt hi
    rw [getByteAt_of_le (by rwa [length_foldSources]), op.prod_of_zeros hne]
    intro byte hbyte
    obtain ⟨value, hvalue, rfl⟩ := mem_map.mp hbyte
    exact getByteAt_of_le (maxLen_le_iff.mp hle value hvalue)

/-! ## §5 Shard by shard -/

section Shards

variable {κ : Type} {n : ℕ} (op : BinOp) (vals : κ → Option Bytes) (shard : κ → Fin n) (dest : κ)
  (srcs : List κ)

/-- A database where the keys hold strings or do not exist. -/
def strings (vals : κ → Option Bytes) (key : κ) : Option Value := (vals key).map .string

/-- The sources, a missing key being the empty string. -/
def sources (vals : κ → Option Bytes) (srcs : List κ) : List Bytes :=
  srcs.map fun key => (vals key).getD []

/-- What a shard reports; nothing if it has no source keys. -/
def reported (sid : Fin n) : Option Bytes :=
  if onShard shard srcs sid = [] then none
  else some (runBitOperationOnValues (.bin op) ((onShard shard srcs sid).filterMap vals))

theorem collectValues_strings (keys : List κ) :
    collectValues (strings vals) keys = .ok (keys.filterMap vals) := by
  induction keys with
  | nil => rfl
  | cons key keys ih =>
    cases hkey : vals key <;> simp [collectValues, findString, strings, hkey, ih, Except.map]

/-- What a shard reports on strings: the result of its own sources, or that it found none. -/
theorem shardBitop_strings (sid : Fin n) :
    shardBitop (.bin op) (strings vals) shard dest srcs sid =
      (reported op vals shard srcs sid).elim (.error .keyNotFound) .ok := by
  have hkeys : (if sid = shard dest then (onShard shard (dest :: srcs) sid).tail
      else onShard shard (dest :: srcs) sid) = onShard shard srcs sid := by
    by_cases h : shard dest = sid
    · simp [onShard, h]
    · rw [if_neg fun h' => h h'.symm]
      simp [onShard, h]
  simp only [shardBitop, hkeys, reported]
  split
  · rfl
  · simp [runBitOpOnShard, collectValues_strings, Except.map]

theorem validResults_elim {ι : Type} (f : ι → Option Bytes) (l : List ι) :
    validResults (l.map fun a => (f a).elim (.error .keyNotFound) .ok) = .ok (l.filterMap f) := by
  induction l with
  | nil => rfl
  | cons a l ih => cases hfa : f a <;> simp [validResults, hfa, ih, Except.map]

/-- The shards that report a result are combined, the others are passed over. -/
theorem combineResultOp_strings :
    combineResultOp
      ((List.finRange n).map (shardBitop (.bin op) (strings vals) shard dest srcs)) (.bin op) =
      .ok (runBitOperationOnValues (.bin op)
        ((List.finRange n).filterMap (reported op vals shard srcs))) := by
  have hmap : (finRange n).map (shardBitop (.bin op) (strings vals) shard dest srcs) =
      (finRange n).map fun sid =>
        (reported op vals shard srcs sid).elim (.error .keyNotFound) .ok :=
    map_congr_left fun sid _ => shardBitop_strings op vals shard dest srcs sid
  rw [combineResultOp, hmap, validResults_elim]
  rfl

/-- The length of the result does not depend on how the sources are sharded. -/
theorem maxLen_reported :
    maxLen ((List.finRange n).filterMap (reported op vals shard srcs)) =
      maxLen (sources vals srcs) := by
  apply eq_of_forall_ge_iff
  intro m
  simp only [maxLen_le_iff, mem_filterMap, mem_finRange, true_and, sources, mem_map,
    forall_exists_index, and_imp, forall_apply_eq_imp_iff₂]
  constructor
  · intro h key hkey
    have hmem : key ∈ onShard shard srcs (shard key) := mem_onShard.mpr ⟨hkey, rfl⟩
    have hle := h _ (shard key) (if_neg (ne_nil_of_mem hmem))
    rw [length_runBitOperationOnValues, maxLen_le_iff] at hle
    cases hval : vals key with
    | none => exact Nat.zero_le m
    | some value => exact hle value (mem_filterMap.mpr ⟨key, hmem, hval⟩)
  · intro h value sid hvalue
    rw [reported] at hvalue
    split at hvalue
    · cases hvalue
    · obtain rfl := Option.some.inj hvalue
      rw [length_runBitOperationOnValues, maxLen_le_iff]
      intro v hv
      obtain ⟨key, hkey, hval⟩ := mem_filterMap.mp hv
      simpa [hval] using h key (mem_onShard.mp hkey).1

/-- The byte that a shard contributes. -/
def shardByte (i : ℕ) (sid : Fin n) : UInt8 :=
  (reported op vals shard srcs sid).elim op.neutral (getByteAt · i)

/-- The byte that a shard should contribute. -/
def sourceByte (i : ℕ) (sid : Fin n) : UInt8 :=
  op.prod ((onShard shard srcs sid).map fun key => getByteAt ((vals key).getD []) i)

theorem prod_reported (i : ℕ) :
    op.prod (((List.finRange n).filterMap (reported op vals shard srcs)).map (getByteAt · i)) =
      op.shardProd (shardByte op vals shard srcs i) := by
  rw [op.prod_filterMap, op.prod_finRange]
  rfl

theorem prod_sources (i : ℕ) :
    op.prod ((sources vals srcs).map (getByteAt · i)) =
      op.shardProd (sourceByte op vals shard srcs i) := by
  rw [sources, map_map]
  exact op.prod_map_eq_shardProd shard _ srcs

variable {sid : Fin n}

theorem reported_of_ne_nil (h : onShard shard srcs sid ≠ []) : reported op vals shard srcs sid =
      some (runBitOperationOnValues (.bin op) ((onShard shard srcs sid).filterMap vals)) := if_neg h

/-- The byte of a shard that has found one of its keys: the missing ones are passed over. -/
theorem shardByte_of_found
    (h : onShard shard srcs sid = [] ∨ (onShard shard srcs sid).filterMap vals ≠ []) :
    shardByte op vals shard srcs i sid =
      op.prod ((onShard shard srcs sid).map fun key =>
        (vals key).elim op.neutral (getByteAt · i)) := by
  rcases h with hnone | hfound
  · simp [shardByte, reported, hnone]
    rfl
  · have hne : onShard shard srcs sid ≠ [] := fun h => hfound (by rw [h]; rfl)
    simp [shardByte, reported_of_ne_nil op vals shard srcs hne,
      getByteAt_runBitOperationOnValues op hfound, op.prod_filterMap]

theorem shardByte_of_missing (hne : onShard shard srcs sid ≠ [])
    (h : (onShard shard srcs sid).filterMap vals = []) :
      shardByte op vals shard srcs i sid = 0 := by
  rw [shardByte, reported_of_ne_nil op vals shard srcs hne, h]
  rfl

theorem sourceByte_of_missing (hne : onShard shard srcs sid ≠ [])
    (h : (onShard shard srcs sid).filterMap vals = []) :
      sourceByte op vals shard srcs i sid = 0 := by
  apply op.prod_of_zeros (by simpa using hne)
  intro byte hbyte
  obtain ⟨key, hkey, rfl⟩ := mem_map.mp hbyte
  rw [filterMap_eq_nil_iff.mp h key hkey]
  rfl

/-- **A shard contributes what it should** if a missing key is neutral, or there is none, or nothing
else. -/
theorem shardByte_eq (h : op.neutral = 0 ∨ ∀ key ∈ onShard shard srcs sid, vals key ≠ none) :
    shardByte op vals shard srcs i sid = sourceByte op vals shard srcs i sid := by
  by_cases hmissing : onShard shard srcs sid ≠ [] ∧ (onShard shard srcs sid).filterMap vals = []
  · rw [shardByte_of_missing op vals shard srcs hmissing.1 hmissing.2,
      sourceByte_of_missing op vals shard srcs hmissing.1 hmissing.2]
  · rw [shardByte_of_found op vals shard srcs (by tauto), sourceByte]
    congr 1
    apply map_congr_left
    intro key hkey
    cases hval : vals key with
    | none => exact h.resolve_right fun hall => hall key hkey hval
    | some value => rfl

end Shards

/-! ## §6 The command -/

section Command

variable {κ : Type} {n : ℕ} (vals : κ → Option Bytes) (shard : κ → Fin n) (srcs : List κ)

/-- When `BITOP` combines its sources as it should: the operation is not `AND`, or every source
exists, or a shard has found none of its sources, or the sources that exist have no common bit. -/
def Unaffected (op : BinOp) (vals : κ → Option Bytes) (shard : κ → Fin n) (srcs : List κ) : Prop :=
  op ≠ .and ∨ (∀ key ∈ srcs, vals key ≠ none) ∨
    (∃ sid, onShard shard srcs sid ≠ [] ∧ ∀ key ∈ onShard shard srcs sid, vals key = none) ∨
    ∀ i, BinOp.and.foldBytes ((srcs.filterMap vals).map (getByteAt · i)) = 0

theorem prod_and_of_zero (h : 0 ∈ bytes) : BinOp.and.prod bytes = 0 := by
  induction bytes with
  | nil => cases h
  | cons byte bytes ih =>
    rw [BinOp.prod_cons]
    rcases mem_cons.mp h with rfl | h
    · exact UInt8.zero_and
    · rw [ih h]
      exact UInt8.and_zero

theorem shardProd_and_of_zero {f : Fin n → UInt8} {sid : Fin n} (h : f sid = 0) :
    BinOp.and.shardProd f = 0 := by
  exact prod_and_of_zero (mem_map.mpr ⟨sid, mem_finRange sid, h⟩)

theorem prod_sources_of_missing {key : κ} (hkey : key ∈ srcs) (hmissing : vals key = none) (i : ℕ) :
    BinOp.and.prod ((sources vals srcs).map (getByteAt · i)) = 0 := by
  apply prod_and_of_zero
  rw [sources, map_map, mem_map]
  exact ⟨key, hkey, by simp [hmissing, getByteAt]⟩

/-- **All bytes are right exactly if a missing key does no harm.** -/
theorem prod_reported_eq_iff (op : BinOp) :
    (∀ i, op.prod
      (((List.finRange n).filterMap (reported op vals shard srcs)).map (getByteAt · i)) =
      op.prod ((sources vals srcs).map (getByteAt · i))) ↔ Unaffected op vals shard srcs := by
  have hbytes : (op.neutral = 0 ∨ ∀ key ∈ srcs, vals key ≠ none) → ∀ i,
      op.prod (((finRange n).filterMap (reported op vals shard srcs)).map (getByteAt · i)) =
        op.prod ((sources vals srcs).map (getByteAt · i)) := by
    intro h i
    rw [prod_reported, prod_sources op vals shard]
    refine congrArg op.shardProd (funext fun sid => shardByte_eq op vals shard srcs ?_)
    exact h.imp_right fun hall key hkey => hall key (mem_onShard.mp hkey).1
  by_cases hand : op = .and
  case neg =>
    have hneutral : op.neutral = 0 := by
      cases op <;> first | rfl | exact absurd rfl hand
    exact ⟨fun _ => .inl hand, fun _ => hbytes (.inl hneutral)⟩
  subst hand
  by_cases hall : ∀ key ∈ srcs, vals key ≠ none
  · exact ⟨fun _ => .inr (.inl hall), fun _ => hbytes (.inr hall)⟩
  obtain ⟨key, hkey, hmissing⟩ : ∃ key ∈ srcs, vals key = none := by
    simpa using hall
  simp only [prod_sources_of_missing vals srcs hkey hmissing]
  by_cases hshard : ∃ sid, onShard shard srcs sid ≠ [] ∧ ∀ key ∈ onShard shard srcs sid,
    vals key = none
  · refine ⟨fun _ => .inr (.inr (.inl hshard)), fun _ i => ?_⟩
    obtain ⟨sid, hne, hnone⟩ := hshard
    rw [prod_reported]
    exact shardProd_and_of_zero
      (shardByte_of_missing .and vals shard srcs hne (filterMap_eq_nil_iff.mpr hnone))
  · -- every shard has found one of its keys: what is left is the product of the values that exist
    have hfound : ∀ sid, onShard shard srcs sid = [] ∨
      (onShard shard srcs sid).filterMap vals ≠ [] := by
      intro sid
      by_contra hnot
      push Not at hnot
      exact hshard ⟨sid, hnot.1, filterMap_eq_nil_iff.mp hnot.2⟩
    have hpresent : srcs.filterMap vals ≠ [] := by
      intro hnil
      rcases hfound (shard key) with hempty | hne
      · exact ne_nil_of_mem (mem_onShard.mpr ⟨hkey, rfl⟩) hempty
      · refine hne (filterMap_eq_nil_iff.mpr fun k hk => ?_)
        exact filterMap_eq_nil_iff.mp hnil k (mem_onShard.mp hk).1
    have hprod : ∀ i, BinOp.and.prod
        (((finRange n).filterMap (reported .and vals shard srcs)).map (getByteAt · i)) =
        BinOp.and.foldBytes ((srcs.filterMap vals).map (getByteAt · i)) := by
      intro i
      rw [prod_reported, BinOp.foldBytes_eq _ (by simpa using hpresent), BinOp.prod_filterMap]
      rw [BinOp.prod_map_eq_shardProd _ shard]
      exact congrArg BinOp.and.shardProd
        (funext fun sid => shardByte_of_found .and vals shard srcs (hfound sid))
    simp only [hprod]
    exact ⟨fun h => .inr (.inr (.inr h)), fun h =>
      ((h.resolve_left (by simp)).resolve_left hall).resolve_left hshard⟩

variable [DecidableEq κ] (dest : κ)

theorem commit_inj {db : κ → Option Value} {value value' : Bytes}
    (h : commit db dest value = commit db dest value') :
    value = value' := by
  have hdest := congrFun h dest
  simp only [commit, Function.update_self] at hdest
  split_ifs at hdest with h1 h2 <;> simp_all

/-- **When `BITOP` stores the fold over all its sources**, for every assignment of the keys to
shards: unless the operation is `AND`, some source is missing, each shard has found one of its
sources, and the sources that exist have a common bit. -/
theorem bitOp_eq_iff (op : BinOp) :
    bitOp (.bin op) (strings vals) shard dest srcs =
        .ok (commit (strings vals) dest (foldSources op (sources vals srcs)),
          (foldSources op (sources vals srcs)).length) ↔
      Unaffected op vals shard srcs := by
  rw [← prod_reported_eq_iff, bitOp, combineResultOp_strings, Except.map, Except.ok.injEq,
    Prod.mk.injEq]
  by_cases hsrcs : srcs = []
  · -- without sources both are empty
    subst hsrcs
    have hnil : (finRange n).filterMap (reported op vals shard []) = [] :=
      filterMap_eq_nil_iff.mpr fun _ _ => rfl
    simp [hnil, sources, runBitOperationOnValues, foldSources, maxLen]
  have hsources : sources vals srcs ≠ [] := by simpa [sources] using hsrcs
  have hreported : (finRange n).filterMap (reported op vals shard srcs) ≠ [] := by
    obtain ⟨key, hkey⟩ := exists_mem_of_ne_nil srcs hsrcs
    have hne := ne_nil_of_mem (mem_onShard.mpr ⟨hkey, rfl⟩ : key ∈ onShard shard srcs (shard key))
    exact ne_nil_of_mem (mem_filterMap.mpr
      ⟨shard key, mem_finRange _, reported_of_ne_nil op vals shard srcs hne⟩)
  have hlen :
    (runBitOperationOnValues (.bin op)
    ((finRange n).filterMap (reported op vals shard srcs))).length =
      (foldSources op (sources vals srcs)).length := by
    rw [length_runBitOperationOnValues, maxLen_reported, length_foldSources]
  simp only [← getByteAt_runBitOperationOnValues op hreported, ← getByteAt_foldSources op hsources]
  constructor
  · rintro ⟨hcommit, _⟩ i
    rw [commit_inj dest hcommit]
  · intro h
    rw [ext_getByteAt hlen h]
    exact ⟨rfl, rfl⟩

end Command

/-- `a` is stored at `0`; the key `1` does not exist. -/
def oneOfTwo (key : ℕ) : Option Bytes := if key = 0 then some [97] else none

/-- **`BITOP AND` depends on where the keys are**: with both sources on one shard the value of the
existing one is stored, on two shards a zero byte, which is what the missing one means. -/
theorem bitOp_and_missing :
    bitOp (.bin .and) (strings oneOfTwo) (fun _ => (0 : Fin 2)) 2 [0, 1] =
        .ok (commit (strings oneOfTwo) 2 [97], 1) ∧
      bitOp (.bin .and) (strings oneOfTwo) (fun key => if key = 0 then (0 : Fin 2)
        else 1) 2 [0, 1] = .ok (commit (strings oneOfTwo) 2 [0], 1) ∧
      foldSources .and (sources oneOfTwo [0, 1]) = [0] :=
  ⟨rfl, rfl, rfl⟩

end Drakeydb.Bitops
