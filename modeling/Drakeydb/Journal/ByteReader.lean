import Drakeydb.Journal.Types
import Drakeydb.Lib.Codec

/-!
# Packed Integers and the Buffered Byte Reader

Integers on the wire have one, two, five or nine bytes, told apart by the first one. The reader
keeps a buffer before its source; how many bytes a read returns beyond what was asked for, and how
large the buffer is at that moment, is up to the environment (`ReadPlan`).
-/

namespace Drakeydb.Journal

open List UInt64

open Lib (Decodes storeBigEndian loadBigEndian)

/-! ## §1 Packed integers -/

def rdb6BitLen : UInt8 := 0
def rdb14BitLen : UInt8 := 1
def rdbEncVal : UInt8 := 3
def rdb32BitLen : UInt8 := 0x80
def rdb64BitLen : UInt8 := 0x81

/-- `PackedUIntMeta::Type`. -/
def metaType (firstByte : UInt8) : UInt8 := (firstByte &&& 0xC0) >>> 6

/-- `PackedUIntMeta::ByteSize`: how many bytes follow the first one. -/
def metaByteSize (firstByte : UInt8) : ℕ :=
  if metaType firstByte = rdbEncVal ∨ metaType firstByte = rdb6BitLen then 0
  else if metaType firstByte = rdb14BitLen then 1
  else if firstByte = rdb32BitLen then 4
  else if firstByte = rdb64BitLen then 8
  else 0

def writePackedUInt (value : UInt64) : Bytes :=
  if value < (1 : UInt64) <<< 6 then [(value &&& 0xFF).toUInt8 ||| (rdb6BitLen <<< 6)]
  else if value < (1 : UInt64) <<< 14 then
    [((value >>> 8) &&& 0xFF).toUInt8 ||| (rdb14BitLen <<< 6), (value &&& 0xFF).toUInt8]
  else if value ≤ 0xFFFFFFFF then rdb32BitLen :: storeBigEndian 4 value.toNat
  else rdb64BitLen :: storeBigEndian 8 value.toNat

/-- The errors a reader reports. -/
inductive ErrorCode where
  | ioError
  | illegalByteSequence
  | resultOutOfRange
  deriving DecidableEq

/-- `ReadPackedUInt`, of a first byte and the bytes that follow it. -/
def readPackedUInt (firstByte : UInt8) (bytes : Bytes) : Except ErrorCode UInt64 :=
  if metaType firstByte = rdbEncVal ∨ metaType firstByte = rdb6BitLen then
    .ok (firstByte &&& 0x3F).toUInt64
  else if metaType firstByte = rdb14BitLen then
    .ok (((firstByte &&& 0x3F).toUInt64 <<< 8) ||| (bytes.headD 0).toUInt64)
  else if firstByte = rdb32BitLen then .ok (UInt64.ofNat (loadBigEndian (bytes.take 4)))
  else if firstByte = rdb64BitLen then .ok (UInt64.ofNat (loadBigEndian (bytes.take 8)))
  else .error .illegalByteSequence

private theorem six_bit : ∀ n : Fin 64, metaType (UInt8.ofNat n ||| (rdb6BitLen <<< 6)) =
    rdb6BitLen ∧ ((UInt8.ofNat n ||| (rdb6BitLen <<< 6)) &&& 0x3F).toNat = n := by
  decide

private theorem fourteen_bit : ∀ n : Fin 64, metaType (UInt8.ofNat n ||| (rdb14BitLen <<< 6)) =
    rdb14BitLen ∧ ((UInt8.ofNat n ||| (rdb14BitLen <<< 6)) &&& 0x3F).toNat = n := by
  decide

variable (value : UInt64)

theorem toUInt8_and_mask : (value &&& 0xFF).toUInt8 = UInt8.ofNat (value.toNat % 256) := by
  apply UInt8.toNat_inj.mp
  have hmask : (0xFF : UInt64).toNat = 2 ^ 8 - 1 := rfl
  rw [UInt64.toNat_toUInt8, UInt64.toNat_and, hmask, Nat.and_two_pow_sub_one_eq_mod,
    UInt8.toNat_ofNat']

private theorem toNat_shiftRight_eight : (value >>> 8).toNat = value.toNat / 256 := by
  exact Nat.shiftRight_eq_div_pow _ 8

private theorem readPackedUInt_six {value : UInt64} (h : value.toNat < 64) (rest : Bytes) :
    readPackedUInt ((value &&& 0xFF).toUInt8 ||| (rdb6BitLen <<< 6)) rest = .ok value := by
  obtain ⟨htype, hval⟩ := six_bit ⟨value.toNat, h⟩
  rw [toUInt8_and_mask, Nat.mod_eq_of_lt (by omega), readPackedUInt, if_pos (Or.inr htype)]
  congr 1
  apply UInt64.toNat_inj.mp
  exact hval

private theorem readPackedUInt_fourteen {value : UInt64} (h : value.toNat < 2 ^ 14) (rest : Bytes) :
    readPackedUInt (((value >>> 8) &&& 0xFF).toUInt8 ||| (rdb14BitLen <<< 6))
      ((value &&& 0xFF).toUInt8 :: rest) = .ok value := by
  have hhi : value.toNat / 256 < 64 := by omega
  obtain ⟨htype, hval⟩ := fourteen_bit ⟨value.toNat / 256, hhi⟩
  rw [toUInt8_and_mask, toUInt8_and_mask, toNat_shiftRight_eight,
    Nat.mod_eq_of_lt (by omega : _ < 256),
    readPackedUInt, if_neg (by rw [htype]; decide), if_pos htype]
  congr 1
  apply UInt64.toNat_inj.mp
  -- the high bits are shifted past the low byte
  have hlow : value.toNat % 256 < 2 ^ 8 := by omega
  have hor := Nat.shiftLeft_add_eq_or_of_lt hlow (value.toNat / 256)
  rw [UInt64.toNat_or, UInt64.toNat_shiftLeft, UInt8.toNat_toUInt64, UInt8.toNat_toUInt64,
    headD_cons, UInt8.toNat_ofNat', hval]
  show (value.toNat / 256) <<< 8 % 2 ^ 64 ||| value.toNat % 256 % 256 = value.toNat
  rw [Nat.mod_mod, Nat.mod_eq_of_lt (by rw [Nat.shiftLeft_eq]; omega), ← hor, Nat.shiftLeft_eq]
  omega

/-- **Packed integers round trip.**  The first byte says how many bytes follow, and these give the
    value back. -/
theorem readPackedUInt_writePackedUInt :
    ∃ firstByte tail, writePackedUInt value = firstByte :: tail ∧
      metaByteSize firstByte = tail.length ∧ ∀ rest, readPackedUInt firstByte (tail ++ rest) =
        .ok value := by
  have hlt := value.toNat_lt
  rw [writePackedUInt]
  by_cases h6 : value < (1 : UInt64) <<< 6
  · have hv : value.toNat < 64 := lt_iff_toNat_lt.mp h6
    rw [if_pos h6]
    refine ⟨_, [], rfl, ?_, readPackedUInt_six hv⟩
    obtain ⟨htype, -⟩ := six_bit ⟨value.toNat, hv⟩
    rw [toUInt8_and_mask, Nat.mod_eq_of_lt (by omega), metaByteSize, if_pos (Or.inr htype)]
    rfl
  by_cases h14 : value < (1 : UInt64) <<< 14
  · have hv : value.toNat < 2 ^ 14 := lt_iff_toNat_lt.mp h14
    rw [if_neg h6, if_pos h14]
    refine ⟨_, [_], rfl, ?_, readPackedUInt_fourteen hv⟩
    obtain ⟨htype, -⟩ := fourteen_bit ⟨value.toNat / 256, by omega⟩
    rw [toUInt8_and_mask, toNat_shiftRight_eight, Nat.mod_eq_of_lt (by omega), metaByteSize,
      if_neg (by rw [htype]; decide), if_pos htype]
    rfl
  by_cases h32 : value ≤ 0xFFFFFFFF
  · have hv : value.toNat < 256 ^ 4 := by
      have := le_iff_toNat_le.mp h32
      have hmax : (0xFFFFFFFF : UInt64).toNat = 256 ^ 4 - 1 := rfl
      omega
    rw [if_neg h6, if_neg h14, if_pos h32]
    refine ⟨_, _, rfl, by rw [Lib.length_storeBigEndian]; decide, fun rest => ?_⟩
    rw [readPackedUInt, if_neg (by decide), if_neg (by decide), if_pos rfl,
      take_left' (Lib.length_storeBigEndian 4 _), Lib.loadBigEndian_storeBigEndian _ _ hv,
        UInt64.ofNat_toNat]
  · rw [if_neg h6, if_neg h14, if_neg h32]
    refine ⟨_, _, rfl, by rw [Lib.length_storeBigEndian]; decide, fun rest => ?_⟩
    rw [readPackedUInt, if_neg (by decide), if_neg (by decide), if_neg (by decide), if_pos rfl,
      take_left' (Lib.length_storeBigEndian 8 _),
      Lib.loadBigEndian_storeBigEndian _ _ (by omega), UInt64.ofNat_toNat]

/-! ## §2 The buffered reader -/

/-- What the environment decides: how many bytes the `i`-th read of the source returns beyond the
    ones asked for, and the capacity of the buffer then. -/
structure ReadPlan where
  extra : ℕ → ℕ
  capacity : ℕ → ℕ

/-- The bytes in the buffer, the bytes the source still has, and the number of reads so far. -/
structure ByteReader where
  buf : Bytes
  source : Bytes
  reads : ℕ
  deriving DecidableEq

/-- The stream from here on. -/
def ByteReader.pending (r : ByteReader) : Bytes := r.buf ++ r.source

/-- A step of the reader. -/
abbrev Reader := StateT ByteReader (Except ErrorCode)

namespace ByteReader

/-- `EnsureRead`. The source's `ReadAtLeast` returns less than asked for at the end of the stream
    only. -/
def ensureRead (plan : ReadPlan) (num : ℕ) : Reader Unit := fun r =>
  if r.buf.length ≥ num then .ok ((), r)
  else
    let remainder := num - r.buf.length
    let read := min r.source.length (remainder + plan.extra r.reads)
    if read < remainder then .error .ioError
    else .ok ((), ⟨r.buf ++ r.source.take read, r.source.drop read, r.reads + 1⟩)

/-- Take bytes that are in the buffer. -/
def consumeInput (num : ℕ) : Reader Bytes := fun r =>
  .ok (r.buf.take num, { r with buf := r.buf.drop num })

/-- The source's `Read`, which fills the whole destination unless the stream ends. -/
def readSource (num : ℕ) : Reader Bytes := fun r =>
  if r.source.length < num then .error .ioError
  else .ok (r.source.take num, ⟨r.buf, r.source.drop num, r.reads + 1⟩)

/-- Have the buffer hold some bytes, then take them. -/
def readBuffered (plan : ReadPlan) (num : ℕ) : Reader Bytes := do
  ensureRead plan num
  consumeInput num

/-- The last step of `ReadUInt`. -/
def checkRange (limit res : UInt64) : Reader UInt64 :=
  if res > limit then throw .resultOutOfRange else pure res

/-- `ReadUInt`, for a type whose greatest value is `limit`. -/
def readUInt (plan : ReadPlan) (limit : UInt64) : Reader UInt64 := do
  let first ← readBuffered plan 1
  let firstByte := first.headD 0
  let bytes ← readBuffered plan (metaByteSize firstByte)
  let res ← readPackedUInt firstByte bytes
  checkRange limit res

/-- What `ReadString` does when the buffer ends inside the string: a long remainder is read past
    the buffer. -/
def readRemainder (plan : ReadPlan) (remainder : ℕ) : Reader Bytes := fun r =>
  if remainder = 0 then .ok ([], r)
  else if remainder < plan.capacity r.reads / 2 then (readBuffered plan remainder).run r
  else (readSource remainder).run r

def readString (plan : ReadPlan) (size : ℕ) : Reader Bytes := do
  let r ← get
  let available := min size r.buf.length
  let front ← consumeInput available
  let back ← readRemainder plan (size - available)
  pure (front ++ back)

section Decodes

variable (plan : ReadPlan) {r : ByteReader}

theorem ensureRead_spec (num : ℕ) (h : num ≤ r.pending.length) :
    ∃ r', (ensureRead plan num).run r = .ok ((), r') ∧ r'.pending = r.pending ∧
      num ≤ r'.buf.length := by
  show ∃ r', ensureRead plan num r = _ ∧ _
  rw [ensureRead]
  by_cases hbuf : r.buf.length ≥ num
  · exact ⟨r, if_pos hbuf, rfl, hbuf⟩
  · rw [if_neg hbuf]
    have hlen : num ≤ r.buf.length + r.source.length := by
      rw [← length_append]
      exact h
    refine ⟨_, if_neg (by omega), ?_, ?_⟩
    · rw [pending, append_assoc, take_append_drop]
      rfl
    · rw [length_append, length_take]
      omega

variable (bytes : Bytes)

theorem readBuffered_decodes :
    Decodes pending (readBuffered plan bytes.length) bytes bytes := by
  intro r rest hr
  obtain ⟨r', hrun, hpending, hlen⟩ := ensureRead_spec plan bytes.length (r := r)
    (by rw [hr, length_append]; omega)
  have hsplit : r'.buf ++ r'.source = bytes ++ rest := hpending.trans hr
  -- the buffer starts with the bytes
  have htake : r'.buf.take bytes.length = bytes := by
    have := congrArg (take bytes.length) hsplit
    rwa [take_append_of_le_length hlen, take_left] at this
  have hdrop : r'.buf.drop bytes.length ++ r'.source = rest := by
    have := congrArg (drop bytes.length) hsplit
    rwa [drop_append_of_le_length hlen, drop_left] at this
  refine ⟨{ r' with buf := r'.buf.drop bytes.length }, ?_, hdrop⟩
  refine (Lib.run_bind_ok hrun).trans ?_
  show Except.ok (r'.buf.take bytes.length, _) = _
  rw [htake]

/-- Reading back what `writePackedUInt` wrote. -/
theorem readUInt_decodes {limit value : UInt64} (h : value ≤ limit) :
    Decodes pending (readUInt plan limit) (writePackedUInt value) value := by
  obtain ⟨firstByte, tail, hbytes, hsize, hread⟩ := readPackedUInt_writePackedUInt value
  have hvalue : readPackedUInt firstByte tail = .ok value := by
    have := hread []
    rwa [append_nil] at this
  have hcheck : Decodes pending (checkRange limit value) [] value :=
    Decodes.guard _ (UInt64.not_lt.mpr h) (Decodes.pure value)
  have hlast : Decodes pending (do
      let res ← (readPackedUInt firstByte tail : Reader UInt64)
      checkRange limit res) [] value := by
    rw [hvalue]
    exact hcheck
  have htail : Decodes pending (do
      let bytes ← readBuffered plan (metaByteSize firstByte)
      let res ← (readPackedUInt firstByte bytes : Reader UInt64)
      checkRange limit res) tail value := by
    rw [hsize]
    exact (readBuffered_decodes plan tail).bind_nil hlast
  rw [hbytes]
  exact (readBuffered_decodes plan [firstByte]).bind htail

theorem readSource_decodes {bytes rest : Bytes} (hr : r.source = bytes ++ rest) :
    ∃ r', (readSource bytes.length).run r = .ok (bytes, r') ∧ r'.pending = r.buf ++ rest := by
  refine ⟨⟨r.buf, rest, r.reads + 1⟩, ?_, rfl⟩
  show readSource bytes.length r = _
  rw [readSource, if_neg (by rw [hr, length_append]; omega), hr, take_left, drop_left]

/-- The remainder is read when the buffer is empty, or there is none. -/
theorem readRemainder_spec (bytes rest : Bytes) (hr : r.pending = bytes ++ rest)
    (hbuf : bytes = [] ∨ r.buf = []) :
    ∃ r', (readRemainder plan bytes.length).run r = .ok (bytes, r') ∧ r'.pending = rest := by
  show ∃ r', readRemainder plan bytes.length r = _ ∧ _
  rw [readRemainder]
  by_cases hnil : bytes.length = 0
  · obtain rfl : bytes = [] := length_eq_zero_iff.mp hnil
    exact ⟨r, if_pos rfl, hr⟩
  rw [if_neg hnil]
  split
  · exact readBuffered_decodes plan bytes r rest hr
  · have hempty : r.buf = [] := hbuf.resolve_left fun h => hnil (by rw [h]; rfl)
    rw [pending, hempty] at hr
    obtain ⟨r', hrun, hpending⟩ := readSource_decodes hr
    refine ⟨r', hrun, ?_⟩
    rw [hpending, hempty]
    rfl

/-- Reading a byte string, through the buffer or past it. -/
theorem readString_decodes : Decodes pending (readString plan bytes.length) bytes bytes := by
  intro r rest hr
  have hsplit : r.buf ++ r.source = bytes ++ rest := hr
  have hrun : (readString plan bytes.length).run r =
      (do let back ← readRemainder plan (bytes.length - min bytes.length r.buf.length)
          pure (r.buf.take (min bytes.length r.buf.length) ++ back)).run
        { r with buf := r.buf.drop (min bytes.length r.buf.length) } := rfl
  rw [hrun, StateT.run_bind]
  rcases Nat.lt_or_ge r.buf.length bytes.length with hshort | hlong
  · -- the buffer ends inside the string
    obtain ⟨back, hback⟩ : r.buf <+: bytes :=
      prefix_of_prefix_length_le (prefix_append r.buf r.source)
        (hsplit ▸ prefix_append bytes rest) hshort.le
    subst hback
    rw [append_assoc, append_cancel_left_eq] at hsplit
    rw [Nat.min_eq_right hshort.le, take_length, drop_length, length_append,
      Nat.add_sub_cancel_left]
    obtain ⟨r', hrest, hpending⟩ := readRemainder_spec plan back rest
      (r := { r with buf := [] }) hsplit (Or.inr rfl)
    rw [hrest]
    exact ⟨r', rfl, hpending⟩
  · -- the whole string is in the buffer
    obtain ⟨back, hback⟩ : bytes <+: r.buf :=
      prefix_of_prefix_length_le (prefix_append bytes rest)
        (hsplit ▸ prefix_append r.buf r.source) hlong
    rw [← hback, append_assoc, append_cancel_left_eq] at hsplit
    rw [Nat.min_eq_left hlong, Nat.sub_self, ← hback, take_left, drop_left]
    refine ⟨{ r with buf := back }, ?_, hsplit⟩
    show Except.ok (bytes ++ [], _) = _
    simp

end Decodes

end ByteReader

end Drakeydb.Journal
