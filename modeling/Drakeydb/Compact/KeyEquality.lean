import Drakeydb.Compact.CompactObj

/-!
# Key equality

`CompactKey::operator==` compares a stored key with a string without decoding it: a packed key is
compared with the string packed on the fly. Only the packed lengths are checked, and the lengths
`8k + 7` and `8k + 8` pack to the same length; outside of the inline buffer, where such lengths
occur, a key can therefore be found equal to a string one character longer or shorter.
-/

namespace Drakeydb.Compact

open List

namespace CompactObj

/-! ## §1 The comparison -/

/-- The packed part of `CmpEncoded` for a large buffer, also used for one with an expiry. -/
def cmpPacked (bytes sv : List UInt8) : Bool :=
  if bytes.length ≠ binpackedLen sv.length then false
  else if validateAsciiFast sv = false then false
  else comparePacked bytes sv

/-- The packed part of `CmpEncoded` for a small buffer: sixteen characters are packed to compare the
    first fourteen bytes, which lie in both slices. -/
def cmpPackedSmall (str : SmallString) (sv : List UInt8) : Bool :=
  if str.size ≠ binpackedLen sv.length then false
  else if validateAsciiFast sv = false then false
  else
    let tmpbuf := asciiPack (sv.take 16)
    if str.pref.toList ≠ tmpbuf.take kPrefLen then false
    else
      let prefLen := 14 - kPrefLen
      if str.heap.take prefLen ≠ tmpbuf.drop kPrefLen then false
      else comparePacked (str.heap.drop prefLen) (sv.drop 16)

def cmpEncoded (obj : CompactObj) (tl : Tl) (sv : List UInt8) : Bool :=
  if obj.encoding = .huffman then
    if sv.length ≠ obj.size tl then false else sv == obj.getString tl fun _ => 0
  else
    match obj.repr with
    | .inline bytes =>
      if binpackedLen sv.length ≠ bytes.1.length then false
      else sv == asciiUnpack 0 bytes.1 sv.length
    | .large bytes => cmpPacked bytes sv
    | .sdsTtl bytes _ => cmpPacked bytes sv
    | .small str => cmpPackedSmall str sv
    -- an integer is never encoded
    | .int _ => false

/-- `CompactKey::operator==`, with `CmpNonInline` for what is not encoded. -/
def equals (obj : CompactObj) (tl : Tl) (sv : List UInt8) : Bool :=
  if obj.encoding ≠ .none then obj.cmpEncoded tl sv
  else
    match obj.repr with
    | .inline bytes => bytes.1 == sv
    | .int ival => tl.alphaNum ival == sv
    | .large bytes => bytes == sv
    | .small str => str.equal sv
    | .sdsTtl bytes _ => bytes == sv

/-! ## §2 Packed keys -/

theorem cmpPacked_iff (bytes sv : List UInt8) :
    cmpPacked bytes sv = true ↔ Ascii sv ∧ bytes = asciiPack sv := by
  rw [cmpPacked]
  split
  case isTrue hlen =>
    have : bytes ≠ asciiPack sv := fun h => hlen (by rw [h, asciiPack_length])
    simp [this]
  case isFalse hlen =>
    rw [ne_eq, not_not] at hlen
    split
    case isTrue hascii =>
      have : ¬ Ascii sv := by
        rw [← validateAsciiFast_iff, hascii]
        simp
      simp [this]
    case isFalse hascii =>
      have hsv : Ascii sv := by
        rw [← validateAsciiFast_iff]
        simpa using hascii
      rw [comparePacked_iff hsv hlen]
      simp [hsv]

private theorem append_eq_append_iff_take {a b x y : List UInt8} {n : ℕ}
    (hx : x.length = a.length + n) :
    a ++ b = x ++ y ↔ a = x.take a.length ∧ b.take n = x.drop a.length ∧ b.drop n = y := by
  constructor
  · intro h
    have hx' : x = a ++ b.take n := by
      have := congrArg (take (a.length + n)) h
      rwa [take_length_add_append, ← hx, take_left, eq_comm] at this
    subst hx'
    refine ⟨by simp, by simp, ?_⟩
    rw [append_assoc, append_cancel_left_eq] at h
    exact append_cancel_left ((take_append_drop n b).trans h)
  · rintro ⟨ha, hmid, hy⟩
    rw [← take_append_drop a.length x, ← ha, ← hmid, ← hy, append_assoc, take_append_drop]

/-- Comparing the two slices of a small buffer is comparing its bytes. -/
theorem cmpPackedSmall_eq {str : SmallString} (hstr : kInlineLen < str.size) (sv : List UInt8) :
    cmpPackedSmall str sv = cmpPacked str.bytes sv := by
  rw [cmpPackedSmall, cmpPacked, SmallString.length_bytes]
  split
  case isTrue => rfl
  case isFalse hlen =>
    rw [ne_eq, not_not] at hlen
    split
    case isTrue => rfl
    case isFalse hascii =>
      have hA : Ascii sv := by
        rw [← validateAsciiFast_iff]
        simpa using hascii
      have hsv : 16 ≤ sv.length := by
        rw [kInlineLen, hlen, binpackedLen] at hstr
        omega
      have hrest : Ascii (sv.drop 16) := fun c hc => hA c (mem_of_mem_drop hc)
      have hpack : asciiPack sv = asciiPack (sv.take 16) ++ asciiPack (sv.drop 16) := by
        rw [← asciiPack_append (by simp [hsv]), take_append_drop]
      have hpref : str.pref.toList.length = kPrefLen := Vector.length_toList
      have htmp : (asciiPack (sv.take 16)).length = str.pref.toList.length + 4 := by
        rw [asciiPack_length, length_take_of_le hsv, hpref]
        rfl
      have hheap : str.heap.length = binpackedLen sv.length - kPrefLen := by
        rw [← hlen, SmallString.size, Nat.add_sub_cancel_left]
      have hdrop : (str.heap.drop 4).length = binpackedLen (sv.drop 16).length := by
        rw [length_drop, length_drop, hheap, kPrefLen, binpackedLen, binpackedLen]
        omega
      rw [Bool.eq_iff_iff, comparePacked_iff hA (by rw [SmallString.length_bytes, hlen]), hpack,
        SmallString.bytes, append_eq_append_iff_take htmp, hpref, ← comparePacked_iff hrest hdrop]
      simp only [show 14 - kPrefLen = 4 from rfl]
      by_cases hfirst : str.pref.toList = (asciiPack (sv.take 16)).take kPrefLen
      · by_cases hsecond : str.heap.take 4 = (asciiPack (sv.take 16)).drop kPrefLen
        · simp [← hfirst, hsecond]
        · simp [hsecond]
      · simp [hfirst]

/-! ## §3 What the comparison decides -/

/-- An object as a store leaves it: what is encoded has more than sixteen characters, what is in a
    small buffer more than sixteen bytes. -/
structure Stored (obj : CompactObj) (tl : Tl) (s : List UInt8) : Prop extends obj.Holds tl s where
  encoded_long : obj.encoding ≠ .none → kInlineLen < s.length
  small_long : ∀ str, obj.repr = .small str → kInlineLen < str.size

/-- The key is packed, and not in the inline buffer. -/
def PackedOutOfLine (obj : CompactObj) : Prop :=
  (obj.encoding = .ascii1 ∨ obj.encoding = .ascii2) ∧ ∀ bytes, obj.repr ≠ .inline bytes

/-- Two strings of different lengths with one packed form. -/
def PackingTwins (s t : List UInt8) : Prop :=
  Ascii t ∧ t.length ≠ s.length ∧ asciiPack t = asciiPack s

/-- Comparing packed forms tells the string apart from all but its twins. -/
private theorem packed_eq_iff {s t : List UInt8} (hs : Ascii s) :
    Ascii t ∧ asciiPack s = asciiPack t ↔ t = s ∨ PackingTwins s t := by
  constructor
  · rintro ⟨ht, hpack⟩
    by_cases hlen : t.length = s.length
    · exact .inl (asciiPack_inj ht hs hlen hpack.symm)
    · exact .inr ⟨ht, hlen, hpack.symm⟩
  · rintro (rfl | ⟨ht, -, hpack⟩)
    · exact ⟨hs, rfl⟩
    · exact ⟨ht, hpack.symm⟩

/-- In the inline buffer there are packed strings of seventeen and of eighteen characters only, and
    no other length packs to theirs. -/
private theorem inline_packed_iff {s t : List UInt8} (hs : Ascii s) (hlong : kInlineLen < s.length)
    (hfit : (asciiPack s).length ≤ kInlineLen) :
    (if binpackedLen t.length ≠ (asciiPack s).length then false
      else t == asciiUnpack 0 (asciiPack s) t.length) = true ↔ t = s := by
  rw [asciiPack_length, binpackedLen] at hfit
  rw [kInlineLen] at hlong hfit
  constructor
  · intro h
    split at h
    case isTrue => cases h
    case isFalse hlen =>
      rw [ne_eq, not_not, asciiPack_length, binpackedLen, binpackedLen] at hlen
      have hs17 : s.length = 17 ∨ s.length = 18 := by omega
      have hsame : t.length = s.length := by
        rcases hs17 with h17 | h18
        · omega
        · omega
      rw [hsame, asciiUnpack_asciiPack 0 hs, beq_iff_eq] at h
      exact h
  · rintro rfl
    rw [if_neg (by rw [asciiPack_length]; simp), asciiUnpack_asciiPack 0 hs, beq_self_eq_true]

variable {obj : CompactObj} {tl : Tl} {s : List UInt8}

section

variable (htl : tl.Lawful)
include htl

/-- **What the comparison decides** for a stored key. -/
theorem Stored.equals_iff (h : obj.Stored tl s) (t : List UInt8) :
    obj.equals tl t = true ↔ t = s ∨ obj.PackedOutOfLine ∧ PackingTwins s t := by
  have henc := h.encodes
  have hlong := h.encoded_long
  cases hencoding : obj.encoding with
  | none =>
    have hpacked : ¬ obj.PackedOutOfLine := by simp [PackedOutOfLine, hencoding]
    rw [hencoding] at henc
    have hblob : obj.blob tl = s := henc
    have hequals : obj.equals tl t = true ↔ obj.blob tl = t := by
      cases hrepr : obj.repr with
      | small str =>
        simp only [equals, blob, hencoding, hrepr, ne_eq, not_true_eq_false, if_false]
        rw [SmallString.equal_iff, eq_comm]
      | inline bytes | int ival | large bytes | sdsTtl bytes expMs =>
        simp [equals, blob, hencoding, hrepr]
    rw [hequals, hblob, eq_comm]
    simp [hpacked]
  | huffman =>
    have hpacked : ¬ obj.PackedOutOfLine := by simp [PackedOutOfLine, hencoding]
    have hequals : obj.equals tl t = true ↔ t.length = s.length ∧ t = s := by
      simp [equals, cmpEncoded, hencoding, h.size, h.getString htl]
    rw [hequals]
    constructor
    · exact fun ht => .inl ht.2
    · rintro (rfl | hpack)
      · exact ⟨rfl, rfl⟩
      · exact absurd hpack.1 hpacked
  | ascii1 | ascii2 =>
    have hlong := hlong (by simp [hencoding])
    rw [hencoding] at henc
    obtain ⟨hs, -, hblob⟩ := henc
    cases hrepr : obj.repr with
    | int ival => exact absurd (h.int_raw ival hrepr) (by simp [hencoding])
    | inline bytes =>
      have hpacked : ¬ obj.PackedOutOfLine := by simp [PackedOutOfLine, hrepr]
      simp only [blob, hrepr] at hblob
      have hfit := bytes.2
      simp only [equals, cmpEncoded, hencoding, hrepr, hblob] at hfit ⊢
      simpa [hpacked] using inline_packed_iff hs hlong hfit
    | small str =>
      have hpacked : obj.PackedOutOfLine := by simp [PackedOutOfLine, hrepr, hencoding]
      simp only [blob, hrepr] at hblob
      simp only [equals, cmpEncoded, hencoding, hrepr,
        cmpPackedSmall_eq (h.small_long str hrepr), hblob]
      simpa [hpacked, cmpPacked_iff] using packed_eq_iff hs
    | large bytes | sdsTtl bytes expMs =>
      have hpacked : obj.PackedOutOfLine := by simp [PackedOutOfLine, hrepr, hencoding]
      simp only [blob, hrepr] at hblob
      simp only [equals, cmpEncoded, hencoding, hrepr, hblob]
      simpa [hpacked, cmpPacked_iff] using packed_eq_iff hs

/-! ## §4 Keys -/

theorem setString_stored (obj : CompactObj) (canAllocate : Bool) (str : List UInt8) :
    (obj.setString tl canAllocate str).Stored tl str := by
  refine ⟨setString_holds htl obj canAllocate str, ?_, ?_⟩
  · rw [setString]
    split
    · exact fun h => absurd rfl h
    · split
      case isTrue => exact fun h => absurd rfl h
      case isFalse hlen => exact fun _ => by omega
  · rw [setString]
    split
    · exact fun _ h => by cases h
    · split
      case isTrue => exact fun _ h => by cases h
      case isFalse hlen =>
        intro ss h
        obtain ⟨enc, bytes, -, ⟨hfit, heq⟩ | ⟨hbytes, heq⟩⟩ :=
          encodeString_cases tl canAllocate obj.isKey (Nat.lt_of_not_le hlen)
        · simp [heq] at h
        · have hblob := blob_storeEncoded tl obj.isKey canAllocate enc hbytes
          simp only [heq] at h
          simp only [blob, h] at hblob
          rwa [← SmallString.length_bytes, hblob]

theorem Stored.expireStep (h : obj.Stored tl s) (call : ExpireCall) :
    (obj.expireStep tl call).Stored tl s := by
  cases call with
  | setExpireTime absMs =>
    refine ⟨h.toHolds.setExpireTime absMs, ?_, ?_⟩
    · intro hne
      apply h.encoded_long
      rintro hnone
      apply hne
      cases hrepr : obj.repr <;> simp [CompactObj.expireStep, setExpireTime, hrepr, hnone]
    · intro str hstr
      cases hrepr : obj.repr <;> simp [CompactObj.expireStep, setExpireTime, hrepr] at hstr
  | clearExpireTime canAllocate =>
    rw [CompactObj.expireStep, clearExpireTime]
    split
    · simp only [h.toHolds.getString htl]
      exact setString_stored htl _ canAllocate s
    · exact h

theorem Stored.expireSteps (h : obj.Stored tl s) (calls : List ExpireCall) :
    (calls.foldl (CompactObj.expireStep tl) obj).Stored tl s := by
  induction calls generalizing obj with
  | nil => exact h
  | cons call calls ih => exact ih (h.expireStep htl call)

end

end CompactObj

/-- **Key equality**: a key that was stored, and whose expiry was set and cleared any number of
    times, compares as its string does, exactly when it is not packed outside of the inline buffer
    with the other string a packing twin of its own. -/
theorem key_equals_iff {tl : Tl} (htl : tl.Lawful) (obj : CompactObj) (canAllocate : Bool)
    (s t : List UInt8) (calls : List ExpireCall) (key : CompactObj)
    (hkey : key = calls.foldl (CompactObj.expireStep tl) (obj.setString tl canAllocate s)) :
    (key.equals tl t = true ↔ t = s) ↔
      ¬ (key.PackedOutOfLine ∧ CompactObj.PackingTwins s t) := by
  have hstored : key.Stored tl s :=
    hkey ▸ (CompactObj.setString_stored htl obj canAllocate s).expireSteps htl calls
  rw [hstored.equals_iff htl]
  constructor
  · rintro h htwins
    exact htwins.2.2.1 (congrArg length (h.mp (.inr htwins)))
  · intro h
    simp only [h, or_false]

/-- Twenty-three letters against themselves. -/
theorem key_equals_iff_letters :
    plainTl.Lawful ∧
      (((CompactObj.setString ⟨true, .none, .int 7⟩ plainTl true
            (List.replicate 23 0x61)).equals plainTl (List.replicate 23 0x61) = true ↔
          List.replicate 23 (0x61 : UInt8) = List.replicate 23 0x61) ↔
        ¬ ((CompactObj.setString ⟨true, .none, .int 7⟩ plainTl true
            (List.replicate 23 0x61)).PackedOutOfLine ∧
          CompactObj.PackingTwins (List.replicate 23 0x61) (List.replicate 23 0x61))) :=
  ⟨plainTl_lawful, key_equals_iff plainTl_lawful ⟨true, .none, .int 7⟩ true
    (replicate 23 0x61) (replicate 23 0x61) [] _ rfl⟩

/-- The string that packs as twenty-three letters do: the last seven letters, read as the seven
    bytes of a whole group. -/
def lettersTwin : List UInt8 :=
  List.replicate 16 0x61 ++ [0x61, 0x42, 0x05, 0x0B, 0x16, 0x2C, 0x58, 0x30]

/-- Twenty-three letters in a small buffer are found equal to a string of twenty-four bytes. -/
theorem key_equals_longer_string :
    (CompactObj.setString ⟨true, .none, .int 7⟩ plainTl true
        (List.replicate 23 0x61)).equals plainTl lettersTwin = true ∧
      lettersTwin ≠ List.replicate 23 0x61 := by
  decide +kernel

end Drakeydb.Compact
