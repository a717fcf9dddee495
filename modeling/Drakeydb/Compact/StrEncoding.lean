import Drakeydb.Compact.BitPacking
import Drakeydb.Lib.Memory

/-!
# Encodings of a string

`StrEncoding` of `core/compact_object.cc`: a string is kept raw, packed to seven bits, or compressed
with a header that holds by how much it shrank. The blob does not hold the decoded length; it is
recovered from the length of the blob, the encoding, and that header.
-/

namespace Drakeydb.Compact

open List

open Lib (readAt writeAt)

/-! ## §1 Unpacking in place -/

/-- The inner loop of `ascii_unpack` with `n` rounds left, over a buffer that may hold both the
    packed bytes and the characters; returns the byte read last as well. -/
def unpackRounds (i : ℕ) : ℕ → (ℕ → UInt8) → ℕ → ℕ → UInt8 → (ℕ → UInt8) × UInt8
  | 0, mem, _, ascii, p => (Function.update mem ascii (p >>> 1), p)
  | n + 1, mem, bin, ascii, p =>
    let src := mem bin
    unpackRounds (i + 1) n (Function.update mem ascii (unpackChar p src i)) (bin + 1)
      (ascii + 1) src

/-- The last loop of `ascii_unpack`. -/
def copyBytes : ℕ → (ℕ → UInt8) → ℕ → ℕ → (ℕ → UInt8)
  | 0, mem, _, _ => mem
  | n + 1, mem, bin, ascii =>
    copyBytes n (Function.update mem ascii (mem bin)) (bin + 1) (ascii + 1)

/-- `ascii_unpack` with the packed bytes at `bin` and the characters at `ascii` of one buffer. -/
def asciiUnpackInPlace : ℕ → (ℕ → UInt8) → ℕ → ℕ → UInt8 → (ℕ → UInt8)
  | len + 8, mem, bin, ascii, p =>
    let (mem, p) := unpackRounds 0 7 mem bin ascii p
    asciiUnpackInPlace len mem (bin + 7) (ascii + 8) p
  | len, mem, bin, ascii, _ => copyBytes len mem bin ascii

variable {bin ascii : ℕ}

theorem unpackRounds_eq (i n : ℕ) (mem : ℕ → UInt8) (p : UInt8) (h : ascii < bin) :
    unpackRounds i n mem bin ascii p =
      (writeAt mem ascii (unpackChars i p (readAt mem bin n)), (readAt mem bin n).getLastD p) := by
  induction n generalizing i mem bin ascii p with
  | zero => rfl
  | succ n ih =>
    simp only [unpackRounds]
    rw [ih _ _ _ (by omega), Lib.readAt_update_of_lt _ _ (by omega), readAt, unpackChars, writeAt,
      getLastD_cons]

theorem copyBytes_eq (n : ℕ) (mem : ℕ → UInt8) (h : ascii ≤ bin) :
    copyBytes n mem bin ascii = writeAt mem ascii (readAt mem bin n) := by
  induction n generalizing mem bin ascii with
  | zero => rfl
  | succ n ih =>
    rw [copyBytes, ih _ (by omega), Lib.readAt_update_of_lt _ _ (by omega), readAt, writeAt]

theorem unpackChars_length (i : ℕ) (p : UInt8) (bin : List UInt8) :
    (unpackChars i p bin).length = bin.length + 1 := by
  induction bin generalizing i p with
  | nil => rfl
  | cons b bin ih => simp [unpackChars, ih]

/-- **Unpacking in place**: with one spare byte on the left for every group, the buffer ends up as
    if the packed bytes had been read from elsewhere. -/
theorem asciiUnpackInPlace_eq (len : ℕ) (mem : ℕ → UInt8) (p : UInt8) (h : ascii + len / 8 ≤ bin) :
    asciiUnpackInPlace len mem bin ascii p =
      writeAt mem ascii (asciiUnpack p (readAt mem bin (binpackedLen len)) len) := by
  induction len using Nat.strongRecOn generalizing mem bin ascii p with
  | ind len ih =>
    by_cases hlen : len < 8
    · have hread : binpackedLen len = len := by rw [binpackedLen]; omega
      rw [asciiUnpackInPlace.eq_2 _ _ _ _ _ (fun n hn => by omega), asciiUnpack_tail p hlen, hread,
        copyBytes_eq _ _ (by omega), take_of_length_le (by simp)]
    · obtain ⟨len, rfl⟩ : ∃ n, len = n + 8 := ⟨len - 8, by omega⟩
      have hread : binpackedLen (len + 8) = binpackedLen len + 7 := by
        rw [binpackedLen, binpackedLen]; omega
      have hwritten : (unpackChars 0 p (readAt mem bin 7)).length = 8 := by
        rw [unpackChars_length, Lib.readAt_length]
      rw [asciiUnpackInPlace, unpackRounds_eq _ _ _ _ (by omega)]
      simp only
      rw [ih len (by omega) _ _ (by omega), Lib.readAt_writeAt_of_le _ (by omega), hread]
      rfl

/-! ## §2 The thread-local environment -/

/-- A loaded pair of a compressor and its decompressor. -/
structure Huffman where
  encode : List UInt8 → Option (List UInt8)
  decode : List UInt8 → ℕ → List UInt8

/-- The parts of `tl` and of the libraries that string storage uses: the tables for keys and for
    values, if loaded, and the integer conversions. -/
structure Tl where
  huffKeys : Option Huffman
  huffStringValues : Option Huffman
  string2ll : List UInt8 → Option ℤ
  alphaNum : ℤ → List UInt8

/-- The table for a key or for a value. -/
def Tl.huffman (tl : Tl) (isKey : Bool) : Option Huffman :=
  if isKey then tl.huffKeys else tl.huffStringValues

/-- What storage relies on: decompression inverts compression, and an accepted integer is written
    back as the text it was read from. -/
structure Tl.Lawful (tl : Tl) : Prop where
  decode_encode : ∀ isKey h, tl.huffman isKey = some h → ∀ s payload,
    h.encode s = some payload → h.decode payload s.length = s
  alphaNum_string2ll : ∀ s ival, tl.string2ll s = some ival → tl.alphaNum ival = s

/-! ## §3 The size-delta header -/

def huffHeaderLen (b0 : UInt8) : ℕ := if b0 &&& 0x80 != 0 then 2 else 1

/-- `HuffHeader`: the delta and the length of the header, from the first two bytes of the blob. In
    the one-byte form the second byte is payload. -/
def huffHeader (header : ℕ) : ℕ × ℕ :=
  let b0 := (header &&& 0xFF).toUInt8
  let b1 := (header >>> 8).toUInt8
  if b0 &&& 0x80 == 0 then (b0.toNat, 1) else (((b0 &&& 0x7F).toNat <<< 8) ||| b1.toNat, 2)

def encodeHuffHeader (delta : ℕ) : List UInt8 :=
  if delta < 128 then [delta.toUInt8]
  else [(0x80 ||| ((delta >>> 8) &&& 0x7F)).toUInt8, (delta &&& 0xFF).toUInt8]

/-- The first two bytes of a blob, little-endian. -/
def loadLe16 (b0 b1 : UInt8) : ℕ := b0.toNat ||| (b1.toNat <<< 8)

theorem huffHeader_loadLe16 (b0 b1 : UInt8) :
    huffHeader (loadLe16 b0 b1) =
      if b0.toNat < 128 then (b0.toNat, 1) else ((b0.toNat - 128) * 256 + b1.toNat, 2) := by
  have h0 := b0.toNat_lt
  have h1 := b1.toNat_lt
  have hsum : loadLe16 b0 b1 = b0.toNat + b1.toNat * 256 := Lib.or_shiftLeft_of_lt (k := 8) h0 _
  have hb0 : (loadLe16 b0 b1 &&& 0xFF).toUInt8 = b0 := by
    rw [← UInt8.toNat_inj, show (0xFF : ℕ) = 2 ^ 8 - 1 from rfl,
      Nat.and_two_pow_sub_one_eq_mod, hsum]
    change (b0.toNat + b1.toNat * 256) % 2 ^ 8 % 2 ^ 8 = b0.toNat
    omega
  have hb1 : (loadLe16 b0 b1 >>> 8).toUInt8 = b1 := by
    rw [← UInt8.toNat_inj, Nat.shiftRight_eq_div_pow, hsum]
    change (b0.toNat + b1.toNat * 256) / 2 ^ 8 % 2 ^ 8 = b1.toNat
    omega
  dsimp only [huffHeader]
  rw [hb0, hb1]
  by_cases h : b0.toNat < 128
  · rw [if_pos (by simpa using (top_bit_clear_iff b0).mpr h), if_pos h]
  · have hlow : (b0 &&& 0x7F).toNat = b0.toNat - 128 := by
      rw [UInt8.toNat_and, show (0x7F : UInt8).toNat = 2 ^ 7 - 1 from rfl,
        Nat.and_two_pow_sub_one_eq_mod]
      omega
    rw [if_neg (by simpa using mt (top_bit_clear_iff b0).mp h), if_neg h, hlow, Nat.or_comm,
      Lib.or_shiftLeft_of_lt (k := 8) h1, Nat.add_comm]
    rfl

theorem huffHeaderLen_eq (b0 : UInt8) : huffHeaderLen b0 = if b0.toNat < 128 then 1 else 2 := by
  rw [huffHeaderLen]
  by_cases h : b0.toNat < 128
  · simp [(top_bit_clear_iff b0).mpr h, h]
  · simp [mt (top_bit_clear_iff b0).mp h, h]

/-- The header of a blob gives back the delta and its own length, whatever follows it. -/
theorem encodeHuffHeader_spec {delta : ℕ} (hdelta : delta < 2 ^ 15) {payload : List UInt8}
    (hpayload : payload ≠ []) :
    ∃ b0 b1 rest, encodeHuffHeader delta ++ payload = b0 :: b1 :: rest ∧
      huffHeader (loadLe16 b0 b1) = (delta, (encodeHuffHeader delta).length) ∧
      huffHeaderLen b0 = (encodeHuffHeader delta).length := by
  by_cases h : delta < 128
  · obtain ⟨b, payload, rfl⟩ := exists_cons_of_ne_nil hpayload
    have hb : delta.toUInt8.toNat = delta := Nat.mod_eq_of_lt (by omega)
    refine ⟨delta.toUInt8, b, payload, by simp [encodeHuffHeader, h], ?_, ?_⟩
    · rw [huffHeader_loadLe16, hb, if_pos h]
      simp [encodeHuffHeader, h]
    · rw [huffHeaderLen_eq, hb, if_pos h]
      simp [encodeHuffHeader, h]
  · have hand : (delta >>> 8) &&& 0x7F = delta / 256 := by
      rw [show (0x7F : ℕ) = 2 ^ 7 - 1 from rfl, Nat.and_two_pow_sub_one_eq_mod,
        Nat.shiftRight_eq_div_pow]
      omega
    have hor : 0x80 ||| delta / 256 = 128 + delta / 256 := by
      rw [Nat.or_comm]
      exact (Lib.or_shiftLeft_of_lt (k := 7) (by omega) 1).trans (Nat.add_comm _ _)
    have hb0 : (0x80 ||| ((delta >>> 8) &&& 0x7F)).toUInt8.toNat = 128 + delta / 256 := by
      rw [hand, hor]
      exact Nat.mod_eq_of_lt (by omega)
    have hb1 : (delta &&& 0xFF).toUInt8.toNat = delta % 256 := by
      rw [show (0xFF : ℕ) = 2 ^ 8 - 1 from rfl, Nat.and_two_pow_sub_one_eq_mod]
      exact Nat.mod_eq_of_lt (by omega)
    refine ⟨_, _, payload, by rw [encodeHuffHeader, if_neg h]; rfl, ?_, ?_⟩
    · rw [huffHeader_loadLe16, hb0, hb1, if_neg (by omega), encodeHuffHeader, if_neg h]
      exact Prod.ext (by simp only; omega) rfl
    · rw [huffHeaderLen_eq, hb0, if_neg (by omega), encodeHuffHeader, if_neg h]
      rfl

/-! ## §4 Decoding -/

inductive Encoding
  | none
  | ascii1
  | ascii2
  | huffman
  deriving DecidableEq

/-- `StrEncoding::DecodedSize` of a blob size and a header. -/
def decodedSizeOf (enc : Encoding) (blobSize header : ℕ) : ℕ :=
  match enc with
  | .none => blobSize
  | .ascii1 => asciiLen blobSize - 1
  | .ascii2 => asciiLen blobSize
  | .huffman =>
    let (delta, headerLen) := huffHeader header
    blobSize + delta - headerLen

/-- `StrEncoding::DecodedSize` of a blob: its second byte is read only if the header extends to
it. -/
def decodedSize (enc : Encoding) (blob : List UInt8) : ℕ :=
  let header :=
    if enc = .huffman then
      let b0 := blob.getD 0 0
      loadLe16 b0 (if huffHeaderLen b0 = 2 then blob.getD 1 0 else 0)
    else 0
  decodedSizeOf enc blob.length header

/-- The bytes `decoder.Decode` writes for a compressed blob; nothing without a table. -/
def huffDecode (tl : Tl) (isKey : Bool) (blob : List UInt8) (decodedLen : ℕ) : List UInt8 :=
  match tl.huffman isKey with
  | some h => h.decode (blob.drop (huffHeaderLen (blob.getD 0 0))) decodedLen
  | none => []

/-- `StrEncoding::Decode` from a blob outside the destination: the bytes it writes. -/
def decode (tl : Tl) (isKey : Bool) (enc : Encoding) (blob : List UInt8) : List UInt8 :=
  if blob = [] then []
  else
    let decodedLen := decodedSize enc blob
    match enc with
    | .none => blob
    | .ascii1 | .ascii2 => asciiUnpack 0 blob decodedLen
    | .huffman => huffDecode tl isKey blob decodedLen

def decodeByte (tl : Tl) (isKey : Bool) (enc : Encoding) (blob : List UInt8) (idx : ℕ) :
    Option UInt8 :=
  if blob = [] then .none
  else
    let decodedLen := decodedSize enc blob
    if decodedLen ≤ idx then .none
    else
      match enc with
      | .none => some (blob.getD idx 0)
      | .ascii1 | .ascii2 => some (asciiUnpackByte blob decodedLen idx)
      | .huffman => some ((huffDecode tl isKey blob decodedLen).getD idx 0)

/-! ## §5 What a blob stands for -/

/-- Longest string that is compressed. -/
def kMaxHuffLen : ℕ := 16 * 1024

/-- The blob is the encoding of the string `s`. -/
def Encodes (tl : Tl) (isKey : Bool) (enc : Encoding) (blob s : List UInt8) : Prop :=
  match enc with
  | .none => blob = s
  | .ascii1 => Ascii s ∧ s.length % 8 = 7 ∧ blob = asciiPack s
  | .ascii2 => Ascii s ∧ s.length % 8 ≠ 7 ∧ blob = asciiPack s
  | .huffman => ∃ h payload, tl.huffman isKey = some h ∧ h.encode s = some payload ∧
      payload ≠ [] ∧ payload.length < s.length ∧ s.length ≤ kMaxHuffLen ∧
      blob = encodeHuffHeader (s.length - payload.length) ++ payload

section Encodes

variable {tl : Tl} {isKey : Bool} {enc : Encoding} {blob s : List UInt8}

theorem Encodes.header (h : Encodes tl isKey .huffman blob s) :
    ∃ b0 b1 rest, blob = b0 :: b1 :: rest ∧
      ∀ b, b = b1 ∨ huffHeaderLen b0 = 1 → decodedSizeOf .huffman blob.length (loadLe16 b0 b) =
        s.length := by
  obtain ⟨huff, payload, -, -, hne, hlt, hmax, rfl⟩ := h
  rw [kMaxHuffLen] at hmax
  have hdelta : s.length - payload.length < 2 ^ 15 := by omega
  obtain ⟨b0, b1, rest, hblob, hheader, hlen⟩ := encodeHuffHeader_spec hdelta hne
  refine ⟨b0, b1, rest, hblob, fun b hb => ?_⟩
  have hsame : huffHeader (loadLe16 b0 b) = huffHeader (loadLe16 b0 b1) := by
    rcases hb with rfl | hone
    · rfl
    · rw [huffHeaderLen_eq] at hone
      have hb0 : b0.toNat < 128 := by
        by_contra hge
        rw [if_neg hge] at hone
        cases hone
      rw [huffHeader_loadLe16, huffHeader_loadLe16, if_pos hb0, if_pos hb0]
  simp only [decodedSizeOf, hsame, hheader, length_append]
  omega

theorem Encodes.decodedSizeOf (h : Encodes tl isKey enc blob s) (henc : enc ≠ .huffman)
    (header : ℕ) : decodedSizeOf enc blob.length header = s.length := by
  cases enc with
  | none => exact congrArg length h
  | ascii1 =>
    obtain ⟨-, hlen, rfl⟩ := h
    simp only [Compact.decodedSizeOf, asciiPack_length, asciiLen_binpackedLen, if_pos hlen]
    omega
  | ascii2 =>
    obtain ⟨-, hlen, rfl⟩ := h
    simp [Compact.decodedSizeOf, asciiPack_length, asciiLen_binpackedLen, if_neg hlen]
  | huffman => exact absurd rfl henc

theorem Encodes.decodedSize (h : Encodes tl isKey enc blob s) :
    decodedSize enc blob = s.length := by
  by_cases henc : enc = .huffman
  · subst henc
    obtain ⟨b0, b1, rest, rfl, hsize⟩ := h.header
    simp only [Compact.decodedSize, if_true, getD_cons_zero, getD_cons_succ]
    apply hsize
    rw [huffHeaderLen]
    by_cases hb : b0 &&& 0x80 != 0 <;> simp [hb]
  · simp only [Compact.decodedSize, if_neg henc]
    exact h.decodedSizeOf henc 0

theorem Encodes.huffDecode (htl : tl.Lawful) (h : Encodes tl isKey .huffman blob s) :
    huffDecode tl isKey blob s.length = s := by
  obtain ⟨huff, payload, htable, henc, hne, hlt, hmax, rfl⟩ := h
  rw [kMaxHuffLen] at hmax
  have hdelta : s.length - payload.length < 2 ^ 15 := by omega
  obtain ⟨b0, b1, rest, hblob, -, hlen⟩ := encodeHuffHeader_spec hdelta hne
  have hfirst : (encodeHuffHeader (s.length - payload.length) ++ payload).getD 0 0 = b0 := by
    rw [hblob, getD_cons_zero]
  simp only [Compact.huffDecode, htable, hfirst, hlen, drop_left]
  exact htl.decode_encode isKey huff htable s payload henc

theorem Encodes.eq_nil (h : Encodes tl isKey enc [] s) : s = [] := by
  have hsize := h.decodedSize
  cases enc with
  | none => exact h.symm
  | ascii1 | ascii2 => exact eq_nil_of_length_eq_zero hsize.symm
  | huffman =>
    obtain ⟨_, _, _, hnil, -⟩ := h.header
    cases hnil

/-- **Decoding inverts encoding.** -/
theorem Encodes.decode (htl : tl.Lawful) (h : Encodes tl isKey enc blob s) :
    decode tl isKey enc blob = s := by
  by_cases hblob : blob = []
  · subst hblob
    rw [h.eq_nil]
    rfl
  · simp only [Compact.decode, if_neg hblob, h.decodedSize]
    cases enc with
    | none => exact h
    | ascii1 =>
      obtain ⟨hs, -, rfl⟩ := h
      exact asciiUnpack_asciiPack 0 hs
    | ascii2 =>
      obtain ⟨hs, -, rfl⟩ := h
      exact asciiUnpack_asciiPack 0 hs
    | huffman => exact h.huffDecode htl

theorem Encodes.decodeByte (htl : tl.Lawful) (h : Encodes tl isKey enc blob s) (idx : ℕ) :
    decodeByte tl isKey enc blob idx = s[idx]? := by
  by_cases hblob : blob = []
  · subst hblob
    rw [h.eq_nil]
    rfl
  · simp only [Compact.decodeByte, if_neg hblob, h.decodedSize]
    by_cases hidx : s.length ≤ idx
    · rw [if_pos hidx, getElem?_eq_none hidx]
    · have hget : s[idx]? = some (s.getD idx 0) := by
        rw [getD_eq_getElem _ _ (by omega), getElem?_eq_getElem]
      rw [if_neg hidx, hget]
      cases enc with
      | none => exact congrArg (fun b : List UInt8 => some (b.getD idx 0)) h
      | ascii1 =>
        obtain ⟨hs, -, rfl⟩ := h
        exact congrArg some (asciiUnpackByte_asciiPack hs (by omega))
      | ascii2 =>
        obtain ⟨hs, -, rfl⟩ := h
        exact congrArg some (asciiUnpackByte_asciiPack hs (by omega))
      | huffman => exact congrArg (fun b : List UInt8 => some (b.getD idx 0)) (h.huffDecode htl)

end Encodes

end Drakeydb.Compact
