import Drakeydb.Compact.StrEncoding

/-!
# Strings in a compact object

The string part of `CompactObj` and `CompactKey` of `core/compact_object.cc`. A string is kept as an
integer, in the sixteen inline bytes, in a small or a large buffer, or, for a key with an expiry, in
a buffer that also holds the expiry. `setString` chooses among these and among the encodings; the
other operations take whatever representation they find.

`SmallString::CanAllocate` asks the allocator of the thread; its answer is an argument of every
operation that may allocate. The memory accounting of the source is left out.
-/

namespace Drakeydb.Compact

open Option

open Lib (readAt writeAt)

/-! ## §1 Representations -/

/-- Size of the inline buffer. -/
def kInlineLen : ℕ := 16

/-- Bytes that fit the inline buffer; `taglen_` is their number. -/
abbrev InlineStr := { bytes : List UInt8 // bytes.length ≤ kInlineLen }

def kPrefLen : ℕ := 10

/-- `SmallString`: the first ten bytes are kept beside the pointer to the others. -/
structure SmallString where
  pref : Vector UInt8 kPrefLen
  heap : List UInt8
  deriving DecidableEq

namespace SmallString

/-- `SmallString::Assign`, of more than ten bytes. -/
def assign (s : List UInt8) : SmallString where
  pref := Vector.ofFn fun i => s.getD i 0
  heap := s.drop kPrefLen

/-- Both slices, one after the other. -/
def bytes (ss : SmallString) : List UInt8 := ss.pref.toList ++ ss.heap

def size (ss : SmallString) : ℕ := kPrefLen + ss.heap.length

/-- `SmallString::Get` into a buffer at `dest`. -/
def get (ss : SmallString) (mem : ℕ → UInt8) (dest : ℕ) : ℕ → UInt8 :=
  writeAt (writeAt mem dest ss.pref.toList) (dest + kPrefLen) ss.heap

def equal (ss : SmallString) (o : List UInt8) : Bool :=
  ss.size == o.length && ss.pref.toList == o.take kPrefLen && ss.heap == o.drop kPrefLen

theorem bytes_assign {s : List UInt8} (h : kPrefLen ≤ s.length) : (assign s).bytes = s := by
  have hpref : (assign s).pref.toList = s.take kPrefLen := by
    apply List.ext_getElem
    · simp [h]
    · intro i hi _
      simp [assign, List.getElem?_eq_getElem (hi.trans_le h)]
  rw [bytes, hpref]
  exact List.take_append_drop _ _

variable (ss : SmallString)

theorem length_bytes : ss.bytes.length = ss.size := by
  simp [bytes, size]

theorem get_eq (mem : ℕ → UInt8) (dest : ℕ) : ss.get mem dest = writeAt mem dest ss.bytes := by
  simp [get, bytes, Lib.writeAt_append]

theorem equal_iff (o : List UInt8) : ss.equal o = true ↔ o = ss.bytes := by
  have htake : (ss.bytes.take kPrefLen, ss.bytes.drop kPrefLen) = (ss.pref.toList, ss.heap) := by
    simp [bytes]
  simp only [equal, Bool.and_eq_true, beq_iff_eq]
  constructor
  · rintro ⟨⟨-, hpref⟩, hheap⟩
    simp [bytes, hpref, hheap]
  · rintro rfl
    exact ⟨⟨ss.length_bytes.symm, (congrArg Prod.fst htake).symm⟩, (congrArg Prod.snd htake).symm⟩

end SmallString

/-- The tags that a string takes, with their part of the union. -/
inductive Repr
  | inline (bytes : InlineStr)
  | int (ival : ℤ)
  | small (str : SmallString)
  | large (bytes : List UInt8)
  | sdsTtl (bytes : List UInt8) (expMs : ℕ)
  deriving DecidableEq

/-- `CompactObj`, as far as strings go. -/
structure CompactObj where
  isKey : Bool
  encoding : Encoding
  repr : Repr
  deriving DecidableEq

/-! ## §2 Storing a string -/

/-- `TryHuffEncode`: the blob and the length of its payload, unless compression does not pay. -/
def tryHuffEncode (str : List UInt8) (encoder : Huffman) : Option (List UInt8 × ℕ) :=
  match encoder.encode str with
  | none => none
  | some payload =>
    if payload.length = 0 ∨ str.length ≤ payload.length then none
    else some (encodeHuffHeader (str.length - payload.length) ++ payload, payload.length)

/-- The blob that `EncodeString` accepts: it fits the inline buffer, or saves a fifth. -/
def acceptedHuff (tl : Tl) (isKey : Bool) (str : List UInt8) : Option (List UInt8) :=
  match tl.huffman isKey with
  | none => none
  | some encoder =>
    match tryHuffEncode str encoder with
    | none => none
    | some (blob, destLen) =>
      if blob.length ≤ kInlineLen ∨ destLen + destLen / 5 < str.length then some blob else none

/-- The end of `EncodeString`: a small buffer if the allocator allows it, or else a large one. -/
def storeEncoded (canAllocate : Bool) (encoded : List UInt8) : Repr :=
  if encoded.length ≤ 255 ∧ canAllocate = true then .small (SmallString.assign encoded)
  else .large encoded

def encodeString (tl : Tl) (canAllocate isKey : Bool) (str : List UInt8) : Encoding × Repr :=
  let isAscii := decide (str.length < 19) && validateAsciiFast str
  let huff := if isAscii = false ∧ str.length ≤ kMaxHuffLen then acceptedHuff tl isKey str else none
  match huff with
  | some blob =>
    if h : blob.length ≤ kInlineLen then (.huffman, .inline ⟨blob, h⟩)
    else (.huffman, storeEncoded canAllocate blob)
  | none =>
    if isAscii = true ∨ 19 ≤ str.length ∧ validateAsciiFast str = true then
      let encodeLen := binpackedLen str.length
      let revLen := asciiLen encodeLen
      let enc := if revLen = str.length then Encoding.ascii2 else .ascii1
      if h : encodeLen ≤ kInlineLen then
        (enc, .inline ⟨asciiPack str, (asciiPack_length str).trans_le h⟩)
      else (enc, storeEncoded canAllocate (asciiPackSimd2 str))
    else (.none, storeEncoded canAllocate str)

namespace CompactObj

section

variable (obj : CompactObj)

def setString (tl : Tl) (canAllocate : Bool) (str : List UInt8) : CompactObj :=
  match (if str.length ≤ 20 then tl.string2ll str else none) with
  | some ival => { obj with encoding := .none, repr := .int ival }
  | none =>
    if h : str.length ≤ kInlineLen then { obj with encoding := .none, repr := .inline ⟨str, h⟩ }
    else
      let (encoding, repr) := encodeString tl canAllocate obj.isKey str
      { obj with encoding, repr }

/-! ## §3 Reading it back -/

def getHuffHeader : ℕ :=
  match obj.repr with
  | .inline bytes => loadLe16 (bytes.1.getD 0 0) (bytes.1.getD 1 0)
  | .large bytes => loadLe16 (bytes.getD 0 0) (bytes.getD 1 0)
  | .small str => loadLe16 (str.pref.toList.getD 0 0) (str.pref.toList.getD 1 0)
  | .sdsTtl bytes _ => loadLe16 (bytes.getD 0 0) (bytes.getD 1 0)
  | .int _ => 0

def size (tl : Tl) : ℕ :=
  let huffHeader := if obj.encoding = .huffman then obj.getHuffHeader else 0
  match obj.repr with
  | .inline bytes => decodedSizeOf obj.encoding bytes.1.length huffHeader
  | .small str => decodedSizeOf obj.encoding str.size huffHeader
  | .large bytes => decodedSizeOf obj.encoding bytes.length huffHeader
  | .int ival => (tl.alphaNum ival).length
  | .sdsTtl bytes _ => decodedSizeOf obj.encoding bytes.length huffHeader

/-- `GetString(char*)`: the destination buffer after the call. A small buffer with a packed string
    is copied to the right end of the destination and unpacked there. -/
def getStringInto (tl : Tl) (dest : ℕ → UInt8) : ℕ → UInt8 :=
  match obj.repr with
  | .inline bytes => writeAt dest 0 (decode tl obj.isKey obj.encoding bytes.1)
  | .int ival => writeAt dest 0 (tl.alphaNum ival)
  | .small str =>
    match obj.encoding with
    | .none => str.get dest 0
    | .huffman => writeAt dest 0 (decode tl obj.isKey .huffman str.bytes)
    | enc =>
      let decodedLen := decodedSizeOf enc str.size 0
      let copyDest := decodedLen - str.size
      asciiUnpackInPlace decodedLen (str.get dest copyDest) copyDest 0 0
  | .large bytes | .sdsTtl bytes _ =>
    if obj.encoding = .none then writeAt dest 0 bytes
    else writeAt dest 0 (decode tl obj.isKey obj.encoding bytes)

/-- `GetString(string*)`: the destination is resized to `Size()` bytes, whatever they held. -/
def getString (tl : Tl) (dest : ℕ → UInt8) : List UInt8 :=
  readAt (obj.getStringInto tl dest) 0 (obj.size tl)

/-- The stored bytes: `GetEncodedBlob` without a destination, and `GetSlice` without an encoding. -/
def blob (tl : Tl) : List UInt8 :=
  match obj.repr with
  | .inline bytes => bytes.1
  | .int ival => tl.alphaNum ival
  | .small str => str.bytes
  | .large bytes => bytes
  | .sdsTtl bytes _ => bytes

def getByteAtIndex (tl : Tl) (idx : ℕ) : Option UInt8 :=
  if obj.encoding = .none then (obj.blob tl)[idx]?
  else decodeByte tl obj.isKey obj.encoding (obj.blob tl) idx

/-! ## §4 Changing it in place -/

/-- The end of `SetByteAtIndex`: decode, modify, and store again. -/
def reencodeByte (tl : Tl) (canAllocate : Bool) (idx : ℕ) (val : UInt8) :
    CompactObj × Bool × Bool :=
  let str := obj.getString tl fun _ => 0
  if str.length ≤ idx then (obj, false, false)
  else (obj.setString tl canAllocate (str.set idx val), true, false)

/-- `SetByteAtIndex`: whether the byte was set, and whether in place. -/
def setByteAtIndex (tl : Tl) (canAllocate : Bool) (idx : ℕ) (val : UInt8) :
    CompactObj × Bool × Bool :=
  match obj.repr, obj.encoding with
  | .inline bytes, .none =>
    if bytes.1.length ≤ idx then (obj, false, false)
    else
      ({ obj with repr := .inline ⟨bytes.1.set idx val, by
          rw [List.length_set]; exact bytes.2⟩ }, true, true)
  | .sdsTtl bytes expMs, .none =>
    if bytes.length ≤ idx then (obj, false, false)
    else ({ obj with repr := .sdsTtl (bytes.set idx val) expMs }, true, true)
  | .large bytes, .none =>
    if bytes.length ≤ idx then (obj, false, false)
    else ({ obj with repr := .large (bytes.set idx val) }, true, true)
  | .large bytes, .ascii1 | .large bytes, .ascii2 =>
    if val.toNat < 128 then
      let decodedLen := decodedSizeOf obj.encoding bytes.length 0
      if decodedLen ≤ idx then (obj, false, false)
      else ({ obj with repr := .large (asciiPackByte bytes decodedLen idx val) }, true, true)
    else obj.reencodeByte tl canAllocate idx val
  | _, _ => obj.reencodeByte tl canAllocate idx val

def setExpireTime (tl : Tl) (absMs : ℕ) : CompactObj :=
  match obj.repr with
  | .sdsTtl bytes _ => { obj with repr := .sdsTtl bytes absMs }
  | .inline bytes => { obj with repr := .sdsTtl bytes.1 absMs }
  | .int ival => { obj with encoding := .none, repr := .sdsTtl (tl.alphaNum ival) absMs }
  | .small str => { obj with repr := .sdsTtl str.bytes absMs }
  | .large bytes => { obj with repr := .sdsTtl bytes absMs }

def clearExpireTime (tl : Tl) (canAllocate : Bool) : CompactObj × Bool :=
  match obj.repr with
  | .sdsTtl _ _ =>
    let decoded := obj.getString tl fun _ => 0
    let cleared := { obj with encoding := .none, repr := .inline ⟨[], by decide⟩ }
    (cleared.setString tl canAllocate decoded, true)
  | _ => (obj, false)

/-! ## §5 What an object holds -/

/-- The object holds the string `s`: its bytes are an encoding of it, and an integer is not encoded
    further. -/
structure Holds (tl : Tl) (s : List UInt8) : Prop where
  encodes : Encodes tl obj.isKey obj.encoding (obj.blob tl) s
  int_raw : ∀ ival, obj.repr = .int ival → obj.encoding = .none

/-- The object reads as the string `s`, through every function that reads it. -/
structure Reads (tl : Tl) (s : List UInt8) : Prop where
  getString : ∀ dest, obj.getString tl dest = s
  size : obj.size tl = s.length
  getByteAtIndex : ∀ idx, obj.getByteAtIndex tl idx = s[idx]?

end

section Storing

variable {tl : Tl} {isKey : Bool} {str blob : List UInt8}

theorem blob_storeEncoded (tl : Tl) (isKey canAllocate : Bool) (enc : Encoding)
    {encoded : List UInt8} (h : kInlineLen < encoded.length) :
    (CompactObj.mk isKey enc (storeEncoded canAllocate encoded)).blob tl = encoded := by
  rw [storeEncoded]
  split
  · exact SmallString.bytes_assign (by rw [kInlineLen] at h; rw [kPrefLen]; omega)
  · rfl

theorem storeEncoded_ne_int (canAllocate : Bool) (encoded : List UInt8) (ival : ℤ) :
    storeEncoded canAllocate encoded ≠ .int ival := by
  rw [storeEncoded]
  split <;> simp

theorem acceptedHuff_encodes (hmax : str.length ≤ kMaxHuffLen)
    (h : acceptedHuff tl isKey str = some blob) : Encodes tl isKey .huffman blob str := by
  cases htable : tl.huffman isKey with
  | none => simp [acceptedHuff, htable] at h
  | some encoder =>
    cases henc : encoder.encode str with
    | none => simp [acceptedHuff, htable, tryHuffEncode, henc] at h
    | some payload =>
      by_cases hlen : payload.length = 0 ∨ str.length ≤ payload.length
      · simp only [acceptedHuff, htable, tryHuffEncode, henc, if_pos hlen, reduceCtorEq] at h
      · simp only [acceptedHuff, htable, tryHuffEncode, henc, if_neg hlen,
          ite_none_right_eq_some, some.injEq] at h
        obtain ⟨h0, h1⟩ := not_or.mp hlen
        exact ⟨encoder, payload, htable, henc, fun hnil => h0 (by rw [hnil]; rfl),
          by omega, hmax, h.2.symm⟩

/-- The packed form of a string, tagged by whether its length is one short of a whole group. -/
theorem asciiPack_encodes (tl : Tl) (isKey : Bool) (hs : Ascii str) :
    Encodes tl isKey
      (if asciiLen (binpackedLen str.length) = str.length then .ascii2 else .ascii1)
      (asciiPack str) str := by
  rw [asciiLen_binpackedLen]
  by_cases h : str.length % 8 = 7
  · rw [if_pos h, if_neg (by omega)]
    exact ⟨hs, h, rfl⟩
  · rw [if_neg h, if_pos rfl]
    exact ⟨hs, h, rfl⟩

/-- `EncodeString` keeps some encoding of the string, inline exactly when it fits. -/
theorem encodeString_cases (tl : Tl) (canAllocate isKey : Bool) (h : kInlineLen < str.length) :
    ∃ enc bytes, Encodes tl isKey enc bytes str ∧
      ((∃ hfit : bytes.length ≤ kInlineLen,
          encodeString tl canAllocate isKey str = (enc, .inline ⟨bytes, hfit⟩)) ∨
            kInlineLen < bytes.length ∧
          encodeString tl canAllocate isKey str = (enc, storeEncoded canAllocate bytes)) := by
  dsimp only [encodeString]
  split
  case h_1 blob hblob =>
    obtain ⟨⟨-, hmax⟩, hblob⟩ := ite_none_right_eq_some.mp hblob
    refine ⟨.huffman, blob, acceptedHuff_encodes hmax hblob, ?_⟩
    split
    case isTrue hfit => exact .inl ⟨hfit, rfl⟩
    case isFalse hfit => exact .inr ⟨by omega, rfl⟩
  case h_2 =>
    split
    case isTrue hascii =>
      have hs : Ascii str := by
        rw [← validateAsciiFast_iff]
        simp only [Bool.and_eq_true] at hascii
        tauto
      refine ⟨_, asciiPack str, asciiPack_encodes tl isKey hs, ?_⟩
      rw [asciiPackSimd2_eq hs]
      split
      case isTrue hfit => exact .inl ⟨(asciiPack_length str).trans_le hfit, rfl⟩
      case isFalse hfit => exact .inr ⟨by rw [asciiPack_length]; omega, rfl⟩
    case isFalse => exact ⟨.none, str, rfl, .inr ⟨h, rfl⟩⟩

theorem encodeString_holds (tl : Tl) (canAllocate isKey : Bool) (h : kInlineLen < str.length) :
    (CompactObj.mk isKey (encodeString tl canAllocate isKey str).1
      (encodeString tl canAllocate isKey str).2).Holds tl str := by
  obtain ⟨enc, bytes, henc, ⟨hfit, heq⟩ | ⟨hlen, heq⟩⟩ := encodeString_cases tl canAllocate isKey h
  · rw [heq]
    exact ⟨henc, by simp⟩
  · rw [heq]
    constructor
    · rw [blob_storeEncoded _ _ _ _ hlen]
      exact henc
    · exact fun ival hint => absurd hint (storeEncoded_ne_int _ _ _)

/-- **Storing a string**: the object holds it, whatever it held before. -/
theorem setString_holds (htl : tl.Lawful) (obj : CompactObj) (canAllocate : Bool)
    (str : List UInt8) : (obj.setString tl canAllocate str).Holds tl str := by
  rw [setString]
  split
  case h_1 ival hival =>
    obtain ⟨-, hival⟩ := ite_none_right_eq_some.mp hival
    exact ⟨htl.alphaNum_string2ll str ival hival, fun _ _ => rfl⟩
  case h_2 =>
    split
    case isTrue h => exact ⟨rfl, by simp⟩
    case isFalse h => exact encodeString_holds tl canAllocate obj.isKey (by omega)

end Storing

section Reading

variable {obj : CompactObj} {tl : Tl} {s : List UInt8}

theorem getHuffHeader_eq (tl : Tl) (h : ∀ ival, obj.repr ≠ .int ival) :
    obj.getHuffHeader = loadLe16 ((obj.blob tl).getD 0 0) ((obj.blob tl).getD 1 0) := by
  cases hrepr : obj.repr with
  | int ival => exact absurd hrepr (h ival)
  | small str =>
    have hlen : str.pref.toList.length = 10 := Vector.length_toList
    simp only [getHuffHeader, blob, hrepr, SmallString.bytes]
    rw [List.getD_append _ _ _ _ (by omega), List.getD_append _ _ _ _ (by omega)]
  | inline bytes | large bytes | sdsTtl bytes expMs => simp only [getHuffHeader, blob, hrepr]

theorem Holds.size (h : obj.Holds tl s) : obj.size tl = s.length := by
  have hsize : obj.size tl = decodedSizeOf obj.encoding (obj.blob tl).length
      (if obj.encoding = .huffman then obj.getHuffHeader else 0) := by
    cases hrepr : obj.repr with
    | int ival =>
      have hraw := h.int_raw ival hrepr
      simp [CompactObj.size, blob, hrepr, hraw, decodedSizeOf]
    | small str => simp [CompactObj.size, blob, hrepr, SmallString.length_bytes]
    | inline bytes | large bytes | sdsTtl bytes expMs => simp [CompactObj.size, blob, hrepr]
  have henc := h.encodes
  rw [hsize]
  by_cases hhuff : obj.encoding = .huffman
  · have hint : ∀ ival, obj.repr ≠ .int ival := fun ival hrepr => by
      rw [h.int_raw ival hrepr] at hhuff
      cases hhuff
    rw [hhuff] at henc ⊢
    obtain ⟨b0, b1, rest, hblob, hlen⟩ := henc.header
    rw [if_pos rfl, getHuffHeader_eq tl hint, hblob]
    rw [hblob] at hlen
    exact hlen b1 (.inl rfl)
  · exact henc.decodedSizeOf hhuff _

/-- Packed bytes at the right end of the destination leave one spare byte for every group. -/
theorem unpack_right_end (hs : Ascii s) (dest : ℕ → UInt8) :
    ∃ mem, asciiUnpackInPlace s.length
        (writeAt dest (s.length - binpackedLen s.length) (asciiPack s))
        (s.length - binpackedLen s.length) 0 0 = writeAt mem 0 s := by
  refine ⟨writeAt dest (s.length - binpackedLen s.length) (asciiPack s), ?_⟩
  rw [asciiUnpackInPlace_eq _ _ _ (by rw [binpackedLen]; omega), ← asciiPack_length,
    Lib.readAt_writeAt, asciiUnpack_asciiPack 0 hs]

section

variable (htl : tl.Lawful)
include htl

section

variable (h : obj.Holds tl s)
include h

variable (dest : ℕ → UInt8)

theorem Holds.getStringInto : ∃ mem, obj.getStringInto tl dest = writeAt mem 0 s := by
  have henc := h.encodes
  cases hrepr : obj.repr with
  | inline bytes =>
    simp only [blob, hrepr] at henc
    exact ⟨dest, by simp [CompactObj.getStringInto, hrepr, henc.decode htl]⟩
  | int ival =>
    simp only [blob, hrepr, h.int_raw ival hrepr] at henc
    exact ⟨dest, by simp [CompactObj.getStringInto, hrepr, show tl.alphaNum ival = s from henc]⟩
  | small str =>
    simp only [blob, hrepr] at henc
    cases hencoding : obj.encoding with
    | none =>
      rw [hencoding] at henc
      refine ⟨dest, ?_⟩
      simp [CompactObj.getStringInto, hrepr, hencoding, SmallString.get_eq,
        show str.bytes = s from henc]
    | huffman =>
      rw [hencoding] at henc
      exact ⟨dest, by simp [CompactObj.getStringInto, hrepr, hencoding, henc.decode htl]⟩
    | ascii1 | ascii2 =>
      rw [hencoding] at henc
      have hlen := henc.decodedSizeOf (by simp) 0
      obtain ⟨hs, -, hbytes⟩ := henc
      have hsize : str.size = binpackedLen s.length := by
        rw [← SmallString.length_bytes, hbytes, asciiPack_length]
      rw [SmallString.length_bytes, hsize] at hlen
      simp only [CompactObj.getStringInto, hrepr, hencoding, hsize, hlen,
        SmallString.get_eq, hbytes]
      exact unpack_right_end hs dest
  | large bytes | sdsTtl bytes expMs =>
    simp only [blob, hrepr] at henc
    by_cases hencoding : obj.encoding = .none
    · rw [hencoding] at henc
      exact ⟨dest,
        by simp [CompactObj.getStringInto, hrepr, if_pos hencoding, show bytes = s from henc]⟩
    · exact ⟨dest, by simp [CompactObj.getStringInto, hrepr, if_neg hencoding, henc.decode htl]⟩

theorem Holds.getString : obj.getString tl dest = s := by
  obtain ⟨mem, hmem⟩ := h.getStringInto htl dest
  simp [CompactObj.getString, hmem, h.size]

theorem Holds.getByteAtIndex (idx : ℕ) : obj.getByteAtIndex tl idx = s[idx]? := by
  have henc := h.encodes
  rw [CompactObj.getByteAtIndex]
  split
  case isTrue hraw =>
    rw [hraw] at henc
    rw [show obj.blob tl = s from henc]
  case isFalse => exact henc.decodeByte htl idx

/-- **Reading**: an object that holds a string reads as that string. -/
theorem Holds.reads : obj.Reads tl s where
  getString := h.getString htl
  size := h.size
  getByteAtIndex := h.getByteAtIndex htl

end

end

end Reading

end CompactObj

open List CompactObj

/-! ## §6 Operations -/

/-- The calls that move a key in and out of the representation with an expiry. -/
inductive ExpireCall
  | setExpireTime (absMs : ℕ)
  | clearExpireTime (canAllocate : Bool)

/-- The calls that change an object with a string; the allocator's answer is part of the call. -/
inductive StringOp
  | setString (str : List UInt8) (canAllocate : Bool)
  | setByteAtIndex (idx : ℕ) (val : UInt8) (canAllocate : Bool)
  | expire (call : ExpireCall)

/-- The object after a call that concerns its expiry. -/
def CompactObj.expireStep (tl : Tl) (obj : CompactObj) : ExpireCall → CompactObj
  | .setExpireTime absMs => obj.setExpireTime tl absMs
  | .clearExpireTime canAllocate => (obj.clearExpireTime tl canAllocate).1

def CompactObj.step (tl : Tl) (obj : CompactObj) : StringOp → CompactObj
  | .setString str canAllocate => obj.setString tl canAllocate str
  | .setByteAtIndex idx val canAllocate => (obj.setByteAtIndex tl canAllocate idx val).1
  | .expire call => obj.expireStep tl call

/-- What a call is for: its effect on the string. An index past the end is refused. -/
def StringOp.effect (s : List UInt8) : StringOp → List UInt8
  | .setString str _ => str
  | .setByteAtIndex idx val _ => s.set idx val
  | .expire _ => s

/-! ## §7 One call -/

namespace CompactObj

variable {obj : CompactObj} {tl : Tl} {s : List UInt8}

theorem Holds.reencodeByte (htl : tl.Lawful) (h : obj.Holds tl s) (canAllocate : Bool) (idx : ℕ)
    (val : UInt8) : (obj.reencodeByte tl canAllocate idx val).1.Holds tl (s.set idx val) := by
  simp only [CompactObj.reencodeByte, h.getString htl]
  split
  case isTrue hidx => rwa [set_eq_of_length_le hidx]
  case isFalse => exact setString_holds htl obj canAllocate _

variable {bytes : List UInt8} {val : UInt8} {idx : ℕ}

private theorem set_of_raw {o o' : CompactObj} (hbytes : bytes = s) (ho : o.Holds tl s)
    (ho' : o'.Holds tl (bytes.set idx val)) :
    (if bytes.length ≤ idx then (o, false, false) else (o', true, true)).1.Holds tl
      (s.set idx val) := by
  subst hbytes
  split
  case isTrue hidx => rwa [set_eq_of_length_le hidx]
  case isFalse => exact ho'

theorem Encodes.asciiPackByte {isKey : Bool} {enc : Encoding} (henc : enc = .ascii1 ∨ enc = .ascii2)
    (h : Encodes tl isKey enc bytes s) (hidx : idx < s.length) (hval : val.toNat < 128) :
    Encodes tl isKey enc (asciiPackByte bytes s.length idx val) (s.set idx val) := by
  have hset : ∀ hs : Ascii s, Ascii (s.set idx val) := fun hs c hc => by
    rcases mem_or_eq_of_mem_set hc with hmem | rfl
    · exact hs c hmem
    · exact hval
  rcases henc with rfl | rfl
  · obtain ⟨hs, hlen, rfl⟩ := h
    exact ⟨hset hs, by rwa [length_set], asciiPackByte_asciiPack hs hidx⟩
  · obtain ⟨hs, hlen, rfl⟩ := h
    exact ⟨hset hs, by rwa [length_set], asciiPackByte_asciiPack hs hidx⟩

theorem Holds.setByteAtIndex (htl : tl.Lawful) (h : obj.Holds tl s) (canAllocate : Bool) (idx : ℕ)
    (val : UInt8) : (obj.setByteAtIndex tl canAllocate idx val).1.Holds tl (s.set idx val) := by
  have hre := h.reencodeByte htl canAllocate idx val
  obtain ⟨isKey, enc, repr⟩ := obj
  have henc : Encodes tl isKey enc _ s := h.encodes
  cases repr with
  | int ival => exact hre
  | small str => exact hre
  | inline bytes =>
    cases enc with
    | none => exact set_of_raw henc h ⟨rfl, by simp⟩
    | ascii1 | ascii2 | huffman => exact hre
  | sdsTtl bytes expMs =>
    cases enc with
    | none => exact set_of_raw henc h ⟨rfl, by simp⟩
    | ascii1 | ascii2 | huffman => exact hre
  | large bytes =>
    cases enc with
    | none => exact set_of_raw henc h ⟨rfl, by simp⟩
    | huffman => exact hre
    | ascii1 | ascii2 =>
      have hlen : decodedSizeOf _ bytes.length 0 = s.length := henc.decodedSizeOf (by simp) 0
      simp only [setByteAtIndex, hlen]
      split
      case isFalse => exact hre
      case isTrue hval =>
        split
        case isTrue hidx => rwa [set_eq_of_length_le hidx]
        case isFalse hidx =>
          exact ⟨Encodes.asciiPackByte (by simp) henc (by omega) hval, by simp⟩

theorem Holds.setExpireTime (h : obj.Holds tl s) (absMs : ℕ) :
    (obj.setExpireTime tl absMs).Holds tl s := by
  obtain ⟨isKey, enc, repr⟩ := obj
  cases repr with
  | int ival =>
    obtain rfl : enc = .none := h.int_raw ival rfl
    exact ⟨h.encodes, fun _ _ => rfl⟩
  | inline bytes | small str | large bytes | sdsTtl bytes expMs =>
    exact ⟨h.encodes, by simp [setExpireTime]⟩

theorem Holds.clearExpireTime (htl : tl.Lawful) (h : obj.Holds tl s) (canAllocate : Bool) :
    (obj.clearExpireTime tl canAllocate).1.Holds tl s := by
  rw [CompactObj.clearExpireTime]
  split
  · simp only [h.getString htl]
    exact setString_holds htl _ canAllocate s
  · exact h

theorem Holds.expireStep (htl : tl.Lawful) (h : obj.Holds tl s) (call : ExpireCall) :
    (obj.expireStep tl call).Holds tl s := by
  cases call with
  | setExpireTime absMs => exact h.setExpireTime absMs
  | clearExpireTime canAllocate => exact h.clearExpireTime htl canAllocate

/-- **One call** acts on the string that the object holds. -/
theorem step_holds (htl : tl.Lawful) (h : obj.Holds tl s) (op : StringOp) :
    (obj.step tl op).Holds tl (op.effect s) := by
  cases op with
  | setString str canAllocate => exact setString_holds htl obj canAllocate str
  | setByteAtIndex idx val canAllocate => exact h.setByteAtIndex htl canAllocate idx val
  | expire call => exact h.expireStep htl call

end CompactObj

/-! ## §8 Sequences of calls -/

theorem run_holds {tl : Tl} (htl : tl.Lawful) {obj : CompactObj} {s : List UInt8}
    (h : obj.Holds tl s) (ops : List StringOp) :
    (ops.foldl (CompactObj.step tl) obj).Holds tl (ops.foldl StringOp.effect s) := by
  induction ops generalizing obj s with
  | nil => exact h
  | cons op ops ih => exact ih (step_holds htl h op)

/-- **Stored strings survive**: after a string is stored over any earlier state, and after any
    further calls, `GetString` into any buffer, `Size` and `GetByteAtIndex` give the string that the
    calls amount to. -/
theorem stored_string_survives {tl : Tl} (htl : tl.Lawful) (obj : CompactObj) (canAllocate : Bool)
    (s : List UInt8) (ops : List StringOp) :
    (ops.foldl (CompactObj.step tl) (obj.setString tl canAllocate s)).Reads tl
      (ops.foldl StringOp.effect s) := by
  have hstored := setString_holds htl obj canAllocate s
  exact (run_holds htl hstored ops).reads htl

/-- Decimal text of an integer, and a thread without compression tables that meets no integer. -/
def plainTl : Tl where
  huffKeys := none
  huffStringValues := none
  string2ll := fun _ => none
  alphaNum := fun ival => (toString ival).toList.map fun c => c.toNat.toUInt8

theorem plainTl_lawful : plainTl.Lawful where
  decode_encode := by
    intro isKey h htable
    cases isKey <;> cases htable
  alphaNum_string2ll := by
    intro s ival h
    cases h

/-- Twenty-three letters in a small buffer, one of which is replaced while the key has an expiry. -/
theorem stored_string_survives_small :
    plainTl.Lawful ∧
      ([.expire (.setExpireTime 1000), .setByteAtIndex 22 0x62 true,
          .expire (.clearExpireTime false)].foldl (CompactObj.step plainTl)
        (CompactObj.setString ⟨true, .none, .int 7⟩ plainTl true (List.replicate 23 0x61))).Reads
        plainTl (List.replicate 22 0x61 ++ [0x62]) :=
  ⟨plainTl_lawful, stored_string_survives plainTl_lawful ⟨true, .none, .int 7⟩ true
    (replicate 23 0x61) [.expire (.setExpireTime 1000), .setByteAtIndex 22 0x62 true,
      .expire (.clearExpireTime false)]⟩

end Drakeydb.Compact
