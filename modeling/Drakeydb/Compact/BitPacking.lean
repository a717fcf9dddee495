import Drakeydb.Lib.BitFields

/-!
# Seven-bit packing of ASCII strings

`core/detail/bitpacking.cc`: eight ASCII characters are packed into seven bytes, a tail of fewer
than eight characters stays verbatim. Two different lengths, `8k + 7` and `8k + 8`, share the
packed length `7k + 7`.
-/

namespace Drakeydb.Compact

open List UInt8

/-! ## §1 The packed form -/

def binpackedLen (asciiLen : ℕ) : ℕ := (asciiLen * 7 + 7) / 8

def asciiLen (binLen : ℕ) : ℕ := binLen * 8 / 7

/-- Converting a packed length back is exact but for the lengths one short of a whole group. -/
theorem asciiLen_binpackedLen (n : ℕ) :
    asciiLen (binpackedLen n) = if n % 8 = 7 then n + 1 else n := by
  have hpacked : binpackedLen n = 7 * (n / 8) + n % 8 := by rw [binpackedLen]; omega
  rw [hpacked, asciiLen]
  split_ifs <;> omega

/-- `validate_ascii_fast`: no byte contributes its top bit to the union of all bytes. -/
def validateAsciiFast (src : List UInt8) : Bool :=
  (src.foldl (· ||| ·) 0) &&& 0x80 == 0

def load64 (bytes : List UInt8) : ℕ := Nat.ofDigits 256 (bytes.map UInt8.toNat)

/-- `memcpy` of the `n` low bytes of a word. -/
def storeBytes (word n : ℕ) : List UInt8 :=
  (List.range n).map fun j => (word >>> (8 * j)).toUInt8

/-- The loop of `ascii_pack` over one word: `val` moves right by one bit at each round. -/
def packWord (val : ℕ) : ℕ :=
  ((List.range 7).foldl
    (fun (acc : ℕ × ℕ) i =>
      let val := acc.1 >>> 1
      (val, acc.2 ||| (val &&& (0x7F <<< (7 * (i + 1))))))
    (val, val &&& 0xFF)).2

def asciiPack : List UInt8 → List UInt8
  | c0 :: c1 :: c2 :: c3 :: c4 :: c5 :: c6 :: c7 :: ascii =>
    storeBytes (packWord (load64 [c0, c1, c2, c3, c4, c5, c6, c7])) 7 ++ asciiPack ascii
  -- epilog: fewer than eight bytes are left
  | ascii => ascii

/-- One half of a round of `simd_variant2_pack`: neighbouring fields are joined by the multiply-add
    instructions, the two halves of the word by a shift. The bytes are below 128, so the signed
    readings of the instructions are the unsigned ones and no lane saturates. -/
def simdWord (c0 c1 c2 c3 c4 c5 c6 c7 : UInt8) : ℕ :=
  let maddubs := fun (c c' : UInt8) => c.toNat * 0x01 + c'.toNat * 0x80
  let madd := fun (v v' : ℕ) => v * 0x0001 + v' * 0x4000
  let val := madd (maddubs c0 c1) (maddubs c2 c3) +
    madd (maddubs c4 c5) (maddubs c6 c7) * 2 ^ 32
  ((val &&& 0x0FFFFFFF00000000) >>> 4) ||| (val &&& 0x0FFFFFFF)

/-- `ascii_pack_simd2`: sixteen characters a round while sixteen more follow, since a round stores
    two bytes too many. -/
def asciiPackSimd2 : List UInt8 → List UInt8
  | c0 :: c1 :: c2 :: c3 :: c4 :: c5 :: c6 :: c7 ::
      c8 :: c9 :: c10 :: c11 :: c12 :: c13 :: c14 :: c15 :: ascii =>
    if 16 ≤ ascii.length then
      storeBytes (simdWord c0 c1 c2 c3 c4 c5 c6 c7) 7 ++
        storeBytes (simdWord c8 c9 c10 c11 c12 c13 c14 c15) 7 ++ asciiPackSimd2 ascii
    else
      asciiPack (c0 :: c1 :: c2 :: c3 :: c4 :: c5 :: c6 :: c7 ::
        c8 :: c9 :: c10 :: c11 :: c12 :: c13 :: c14 :: c15 :: ascii)
  | ascii => asciiPack ascii

/-- One character of `ascii_unpack`. -/
def unpackChar (p src : UInt8) (i : ℕ) : UInt8 :=
  ((p.toNat >>> (8 - i)) ||| ((src.toNat <<< i) &&& 0x7F)).toUInt8

/-- The characters of one packed group, from the `i`-th on; `p` is the byte read last. -/
def unpackChars (i : ℕ) (p : UInt8) : List UInt8 → List UInt8
  | [] => [p >>> 1]
  | src :: bin => unpackChar p src i :: unpackChars (i + 1) src bin

/-- `ascii_unpack` into a buffer of its own. -/
def asciiUnpack (p : UInt8) : List UInt8 → ℕ → List UInt8
  | b0 :: b1 :: b2 :: b3 :: b4 :: b5 :: b6 :: bin, len + 8 =>
    unpackChars 0 p [b0, b1, b2, b3, b4, b5, b6] ++ asciiUnpack b6 bin len
  | bin, len => bin.take len

/-- The byte that `compare_packed` expects for two neighbouring characters. -/
def convByte (c c' : UInt8) (i : ℕ) : UInt8 :=
  ((c.toNat >>> i) ||| (c'.toNat <<< (7 - i))).toUInt8

/-- The bytes that `compare_packed` expects for a group of characters, from the `i`-th on. -/
def convBytes (i : ℕ) : List UInt8 → List UInt8
  | c :: c' :: ascii => convByte c c' i :: convBytes (i + 1) (c' :: ascii)
  | _ => []

/-- `compare_packed`; `packed` has `binpackedLen` bytes for `ascii`. -/
def comparePacked : List UInt8 → List UInt8 → Bool
  | packed, c0 :: c1 :: c2 :: c3 :: c4 :: c5 :: c6 :: c7 :: ascii =>
    convBytes 0 [c0, c1, c2, c3, c4, c5, c6, c7] == packed.take 7 &&
      comparePacked (packed.drop 7) ascii
  | packed, ascii => ascii == packed.take ascii.length

def asciiUnpackByte (bin : List UInt8) (asciiLen idx : ℕ) : UInt8 :=
  let packedGroups := asciiLen / 8
  let group := idx / 8
  if packedGroups ≤ group then
    bin.getD (packedGroups * 7 + idx % 8) 0
  else
    (asciiUnpack 0 (bin.drop (group * 7)) 8).getD (idx % 8) 0

def asciiPackByte (bin : List UInt8) (asciiLen idx : ℕ) (val : UInt8) : List UInt8 :=
  let packedGroups := asciiLen / 8
  let group := idx / 8
  if packedGroups ≤ group then
    bin.set (packedGroups * 7 + idx % 8) val
  else
    let buf := (asciiUnpack 0 (bin.drop (group * 7)) 8).set (idx % 8) val
    bin.take (group * 7) ++ asciiPack buf ++ bin.drop (group * 7 + 7)

/-- Every byte is a seven-bit character. -/
def Ascii (s : List UInt8) : Prop := ∀ c ∈ s, c.toNat < 128

@[simp] theorem ascii_nil : Ascii [] := by simp [Ascii]

@[simp] theorem ascii_cons {c : UInt8} {s : List UInt8} :
    Ascii (c :: s) ↔ c.toNat < 128 ∧ Ascii s := forall_mem_cons

theorem top_bit_clear_iff (c : UInt8) : c &&& 0x80 = 0 ↔ c.toNat < 128 := by
  rw [← UInt8.toNat_inj, UInt8.toNat_and, show (0x80 : UInt8).toNat = 2 ^ 7 from rfl,
    Nat.and_two_pow, Nat.testBit_eq_decide_div_mod_eq]
  have := c.toNat_lt
  by_cases h : c.toNat < 128
  · simp [h, Nat.div_eq_of_lt h]
  · have : c.toNat / 128 % 2 = 1 := by omega
    simp [h, this]

theorem validateAsciiFast_iff (src : List UInt8) : validateAsciiFast src = true ↔ Ascii src := by
  have hor : ∀ a b : UInt8, (a ||| b).toNat < 128 ↔ a.toNat < 128 ∧ b.toNat < 128 := fun a b => by
    rw [UInt8.toNat_or]
    exact ⟨fun h => ⟨Nat.left_le_or.trans_lt h, Nat.right_le_or.trans_lt h⟩,
      fun h => Nat.or_lt_two_pow (n := 7) h.1 h.2⟩
  have hfold : ∀ acc : UInt8, (src.foldl (· ||| ·) acc).toNat < 128 ↔ acc.toNat < 128 ∧
    Ascii src := by
    induction src with
    | nil => simp
    | cons c src ih =>
      intro acc
      rw [foldl_cons, ih, hor, ascii_cons, and_assoc]
  rw [validateAsciiFast, beq_iff_eq, top_bit_clear_iff, hfold]
  exact and_iff_right (by decide)

/-! ## §2 One group -/

variable {c c' : UInt8} {i : ℕ}

theorem convByte_toNat (hi : i ≤ 7) (hc : c.toNat < 128) :
    (convByte c c' i).toNat = (c.toNat / 2 ^ i + c'.toNat * 2 ^ (7 - i)) % 256 := by
  have hlow : c.toNat / 2 ^ i < 2 ^ (7 - i) := by
    rw [Nat.div_lt_iff_lt_mul (by positivity), ← pow_add, Nat.sub_add_cancel hi]
    exact hc
  rw [convByte, Nat.shiftRight_eq_div_pow, Lib.or_shiftLeft_of_lt hlow]
  rfl

theorem unpackChar_toNat (p src : UInt8) (hi : i ≤ 7) :
    (unpackChar p src i).toNat = p.toNat / 2 ^ (8 - i) + src.toNat * 2 ^ i % 128 := by
  have hp : p.toNat / 2 ^ (8 - i) < 2 ^ i := by
    rw [Nat.div_lt_iff_lt_mul (by positivity), ← pow_add, Nat.add_sub_cancel' (by omega)]
    exact p.toNat_lt
  have hsrc : src.toNat * 2 ^ i % 2 ^ 7 = src.toNat % 2 ^ (7 - i) * 2 ^ i := by
    rw [← Nat.mul_mod_mul_right, ← pow_add, Nat.sub_add_cancel hi]
  have hsum : p.toNat / 2 ^ (8 - i) + src.toNat % 2 ^ (7 - i) * 2 ^ i < 256 := by
    have : src.toNat * 2 ^ i % 2 ^ 7 < 128 := Nat.mod_lt _ (by norm_num)
    have : 2 ^ i ≤ 2 ^ 7 := Nat.pow_le_pow_right (by omega) hi
    omega
  rw [unpackChar, Nat.shiftRight_eq_div_pow, show (0x7F : ℕ) = 2 ^ 7 - 1 from rfl,
    Nat.and_two_pow_sub_one_eq_mod, Nat.shiftLeft_eq, hsrc, ← Nat.shiftLeft_eq,
    Lib.or_shiftLeft_of_lt hp, show (128 : ℕ) = 2 ^ 7 from rfl, hsrc]
  exact Nat.mod_eq_of_lt hsum

/-- The low bits of a character are in one packed byte, the others in the next. -/
theorem unpackChar_convByte {c'' : UInt8} (hi : i < 6) (hc : c.toNat < 128) (hc' : c'.toNat < 128) :
    unpackChar (convByte c c' i) (convByte c' c'' (i + 1)) (i + 1) = c' := by
  rw [← UInt8.toNat_inj, unpackChar_toNat _ _ (by omega), convByte_toNat (by omega) hc,
    convByte_toNat (by omega) hc']
  interval_cases i <;> norm_num <;> omega

variable (p : UInt8)

theorem unpackChar_convByte_first (hc : c.toNat < 128) : unpackChar p (convByte c c' 0) 0 = c := by
  have := p.toNat_lt
  rw [← UInt8.toNat_inj, unpackChar_toNat _ _ (by omega), convByte_toNat (by omega) hc]
  omega

theorem unpackChar_convByte_last (hc : c.toNat < 128) (hc' : c'.toNat < 128) :
    convByte c c' 6 >>> 1 = c' := by
  rw [← UInt8.toNat_inj, UInt8.toNat_shiftRight, convByte_toNat (by omega) hc,
    show (1 : UInt8).toNat % 8 = 1 from rfl, Nat.shiftRight_eq_div_pow]
  omega

variable {c0 c1 c2 c3 c4 c5 c6 c7 : UInt8}

theorem storeBytes_ofDigits (h : Ascii [c0, c1, c2, c3, c4, c5, c6, c7]) :
    storeBytes (Nat.ofDigits (2 ^ 7) ([c0, c1, c2, c3, c4, c5, c6, c7].map UInt8.toNat)) 7 =
      convBytes 0 [c0, c1, c2, c3, c4, c5, c6, c7] := by
  simp only [ascii_cons, ascii_nil, and_true] at h
  obtain ⟨h0, h1, h2, h3, h4, h5, h6, h7⟩ := h
  -- each stored byte is the union of two neighbouring characters
  have hbyte : ∀ (w : ℕ) (c c' : UInt8) (i : ℕ), i ≤ 7 → c.toNat < 128 →
      w % 256 = (c.toNat / 2 ^ i + c'.toNat * 2 ^ (7 - i)) % 256 → w.toUInt8 = convByte c c' i := by
    intro w c c' i hi hc hw
    rw [← UInt8.toNat_inj, convByte_toNat hi hc, ← hw]
    rfl
  simp only [storeBytes, range_succ, range_zero, nil_append, cons_append,
    map_cons, map_nil, convBytes, Nat.ofDigits_cons, Nat.ofDigits_nil,
    Nat.shiftRight_eq_div_pow, cons.injEq, and_true]
  refine ⟨?_, ?_, ?_, ?_, ?_, ?_, ?_⟩ <;> apply hbyte _ _ _ _ (by omega) (by assumption) <;> omega

theorem testBit_packWord (val i : ℕ) : (packWord val).testBit i =
    (decide (i < 56) && (decide (i = 7) && val.testBit 7 || val.testBit (i + i / 7))) := by
  simp only [packWord, range_succ, range_zero, nil_append, cons_append, foldl_cons, foldl_nil,
    ← Nat.shiftRight_add, show (0x7F : ℕ) = 2 ^ 7 - 1 from rfl,
      show (0xFF : ℕ) = 2 ^ 8 - 1 from rfl,
    Nat.testBit_or, Nat.testBit_and, Nat.testBit_shiftRight, Nat.testBit_shiftLeft,
      Nat.testBit_two_pow_sub_one]
  by_cases hi : i < 56
  · interval_cases i <;> simp
  · have hfield : ∀ k ≤ 49, ¬i - k < 7 := by omega
    simp [hi, hfield, show ¬i < 8 by omega]

section Bits

variable {g : List UInt8}

theorem testBit_load64 (i : ℕ) :
    (load64 g).testBit i = ((g.map toNat).getD (i / 8) 0).testBit (i % 8) :=
  Lib.testBit_ofDigits (w := 8) (by omega) (forall_mem_map.mpr fun c _ => c.toNat_lt) i

theorem Ascii.lt (h : Ascii g) : ∀ d ∈ g.map UInt8.toNat, d < 2 ^ 7 := forall_mem_map.mpr h

theorem testBit_packed (h : Ascii g) (i : ℕ) :
    (Nat.ofDigits (2 ^ 7) (g.map toNat)).testBit i = ((g.map toNat).getD (i / 7) 0).testBit
    (i % 7) :=
  Lib.testBit_ofDigits (by omega) h.lt i

theorem Ascii.top_bit (h : Ascii g) (hi : i % 8 = 7) : (load64 g).testBit i = false := by
  rw [testBit_load64, hi]
  rcases Nat.lt_or_ge (i / 8) (g.map UInt8.toNat).length with hlt | hge
  · rw [getD_eq_getElem _ _ hlt]
    exact Nat.testBit_lt_two_pow (h.lt _ (getElem_mem hlt))
  · rw [getD_eq_default _ _ hge, Nat.zero_testBit]

/-- Packing drops every eighth bit. -/
theorem eq_packed (hg : g.length = 8) (h : Ascii g) {word : ℕ}
    (hword : ∀ i, word.testBit i = (decide (i < 56) && (load64 g).testBit (i + i / 7))) :
    word = Nat.ofDigits (2 ^ 7) (g.map toNat) := by
  apply Nat.eq_of_testBit_eq
  intro i
  rw [hword, testBit_packed h]
  by_cases hi : i < 56
  · rw [testBit_load64, show (i + i / 7) / 8 = i / 7 by
      omega, show (i + i / 7) % 8 = i % 7 by omega]
    simp [hi]
  · rw [getD_eq_default _ _ (by rw [length_map]; omega), Nat.zero_testBit]
    simp [hi]

end Bits

section

variable (h : Ascii [c0, c1, c2, c3, c4, c5, c6, c7])
include h

theorem packWord_load64 :
    packWord (load64 [c0, c1, c2, c3, c4, c5, c6, c7]) =
      Nat.ofDigits (2 ^ 7) ([c0, c1, c2, c3, c4, c5, c6, c7].map UInt8.toNat) :=
  eq_packed rfl h fun i => by rw [testBit_packWord, h.top_bit rfl, Bool.and_false, Bool.false_or]

theorem unpackChars_convBytes :
    unpackChars 0 p (convBytes 0 [c0, c1, c2, c3, c4, c5, c6, c7]) =
      [c0, c1, c2, c3, c4, c5, c6, c7] := by
  simp only [ascii_cons, ascii_nil, and_true] at h
  obtain ⟨h0, h1, h2, h3, h4, h5, h6, h7⟩ := h
  simp only [convBytes, unpackChars, Nat.zero_add, Nat.reduceAdd, cons.injEq, and_true]
  refine ⟨unpackChar_convByte_first p h0, unpackChar_convByte (by omega) h0 h1,
    unpackChar_convByte (by omega) h1 h2, unpackChar_convByte (by omega) h2 h3,
    unpackChar_convByte (by omega) h3 h4, unpackChar_convByte (by omega) h4 h5,
    unpackChar_convByte (by omega) h5 h6, unpackChar_convByte_last h6 h7⟩

end

/-! ## §3 Strings of groups -/

@[elab_as_elim]
theorem group_induction {P : List UInt8 → Prop} (tail : ∀ s, s.length < 8 → P s)
    (group : ∀ c0 c1 c2 c3 c4 c5 c6 c7 s, P s →
      P (c0 :: c1 :: c2 :: c3 :: c4 :: c5 :: c6 :: c7 :: s)) (s : List UInt8) : P s :=
  match s with
  | c0 :: c1 :: c2 :: c3 :: c4 :: c5 :: c6 :: c7 :: s =>
    group c0 c1 c2 c3 c4 c5 c6 c7 s (group_induction tail group s)
  | [] | [_] | [_, _] | [_, _, _] | [_, _, _, _] | [_, _, _, _, _] | [_, _, _, _, _, _]
  | [_, _, _, _, _, _, _] => tail _ (by simp)

variable {s : List UInt8}

theorem asciiPack_tail (h : s.length < 8) : asciiPack s = s := by
  rw [asciiPack.eq_2]
  rintro c0 c1 c2 c3 c4 c5 c6 c7 s rfl
  simp only [length_cons] at h
  omega

theorem asciiPack_group (s : List UInt8) (h : Ascii [c0, c1, c2, c3, c4, c5, c6, c7]) :
    asciiPack (c0 :: c1 :: c2 :: c3 :: c4 :: c5 :: c6 :: c7 :: s) =
      convBytes 0 [c0, c1, c2, c3, c4, c5, c6, c7] ++ asciiPack s := by
  rw [asciiPack, packWord_load64 h, storeBytes_ofDigits h]

theorem asciiUnpack_tail {bin : List UInt8} {len : ℕ} (h : len < 8) :
    asciiUnpack p bin len = bin.take len := by
  rw [asciiUnpack.eq_2]
  intro b0 b1 b2 b3 b4 b5 b6 bin n _ hn
  omega

theorem ascii_split (h : Ascii (c0 :: c1 :: c2 :: c3 :: c4 :: c5 :: c6 :: c7 :: s)) :
    Ascii [c0, c1, c2, c3, c4, c5, c6, c7] ∧ Ascii s := by
  simp only [ascii_cons, ascii_nil] at h ⊢
  tauto

theorem asciiPack_length (s : List UInt8) : (asciiPack s).length = binpackedLen s.length := by
  induction s using group_induction with
  | tail s h => rw [asciiPack_tail h, binpackedLen]; omega
  | group c0 c1 c2 c3 c4 c5 c6 c7 s ih =>
    simp only [asciiPack, storeBytes, binpackedLen, length_append, length_map,
      length_range, length_cons, ih]
    omega

/-- **Unpacking inverts packing**, whatever byte was read before. -/
theorem asciiUnpack_asciiPack (hs : Ascii s) : asciiUnpack p (asciiPack s) s.length = s := by
  induction s using group_induction generalizing p with
  | tail s h => simp [asciiPack_tail h, asciiUnpack_tail p h]
  | group c0 c1 c2 c3 c4 c5 c6 c7 s ih =>
    obtain ⟨hg, hs⟩ := ascii_split hs
    have hunpack := unpackChars_convBytes p hg
    rw [asciiPack_group s hg]
    simp only [convBytes, length_cons, cons_append, nil_append] at hunpack ⊢
    rw [asciiUnpack, hunpack, ih _ hs]
    rfl

theorem asciiPack_inj {t : List UInt8} (hs : Ascii s) (ht : Ascii t) (hlen : s.length = t.length)
    (h : asciiPack s = asciiPack t) : s = t := by
  rw [← asciiUnpack_asciiPack 0 hs, ← asciiUnpack_asciiPack 0 ht, h, hlen]

variable {packed : List UInt8}

theorem comparePacked_tail (h : s.length < 8) :
    comparePacked packed s = (s == packed.take s.length) := by
  rw [comparePacked.eq_2]
  rintro c0 c1 c2 c3 c4 c5 c6 c7 s rfl
  simp only [length_cons] at h
  omega

/-- **Comparison without unpacking**: the packed bytes are those of the string. -/
theorem comparePacked_iff (hs : Ascii s) (hlen : packed.length = binpackedLen s.length) :
    comparePacked packed s = true ↔ packed = asciiPack s := by
  induction s using group_induction generalizing packed with
  | tail s h =>
    have : packed.length = s.length := by rw [hlen, binpackedLen]; omega
    rw [comparePacked_tail h, asciiPack_tail h, ← this, take_length, beq_iff_eq, eq_comm]
  | group c0 c1 c2 c3 c4 c5 c6 c7 s ih =>
    obtain ⟨hg, hs⟩ := ascii_split hs
    simp only [length_cons, binpackedLen] at hlen
    have hrest : (packed.drop 7).length = binpackedLen s.length := by
      rw [length_drop, binpackedLen]
      omega
    rw [comparePacked, Bool.and_eq_true, beq_iff_eq, ih hs hrest, asciiPack_group s hg]
    constructor
    · rintro ⟨hfirst, hnext⟩
      rw [hfirst, ← hnext, take_append_drop]
    · intro h
      rw [h]
      exact ⟨by simp [convBytes], by simp [convBytes]⟩

/-! ## §4 The vectorised packer -/

private theorem join_halves (val : ℕ) :
    ((val &&& 0x0FFFFFFF00000000) >>> 4) ||| (val &&& 0x0FFFFFFF) =
      val % 2 ^ 28 + val / 2 ^ 32 % 2 ^ 28 * 2 ^ 28 := by
  have hhigh : (val &&& 0x0FFFFFFF00000000) >>> 4 = (val / 2 ^ 32 % 2 ^ 28) <<< 28 := by
    rw [show (0x0FFFFFFF00000000 : ℕ) = (2 ^ 28 - 1) <<< 32 from rfl, Lib.and_shiftLeft_mask,
      Nat.shiftRight_eq_div_pow, Nat.shiftLeft_eq]
    omega
  have hlow : val &&& 0x0FFFFFFF = val % 2 ^ 28 := Nat.and_two_pow_sub_one_eq_mod val 28
  rw [hhigh, hlow, Nat.or_comm, Lib.or_shiftLeft_of_lt (Nat.mod_lt _ (by norm_num))]

theorem simdWord_eq (h : Ascii [c0, c1, c2, c3, c4, c5, c6, c7]) :
    simdWord c0 c1 c2 c3 c4 c5 c6 c7 =
      Nat.ofDigits (2 ^ 7) ([c0, c1, c2, c3, c4, c5, c6, c7].map UInt8.toNat) := by
  simp only [ascii_cons, ascii_nil, and_true] at h
  obtain ⟨h0, h1, h2, h3, h4, h5, h6, h7⟩ := h
  dsimp only [simdWord]
  rw [join_halves]
  simp only [map_cons, map_nil, Nat.ofDigits_cons, Nat.ofDigits_nil]
  omega

/-- The vectorised packer computes `asciiPack`. -/
theorem asciiPackSimd2_eq (hs : Ascii s) : asciiPackSimd2 s = asciiPack s := by
  fun_induction asciiPackSimd2 s with
  | case1 c0 c1 c2 c3 c4 c5 c6 c7 c8 c9 c10 c11 c12 c13 c14 c15 s _ ih =>
    obtain ⟨hfirst, hs⟩ := ascii_split hs
    obtain ⟨hsecond, hs⟩ := ascii_split hs
    rw [simdWord_eq hfirst, simdWord_eq hsecond, storeBytes_ofDigits hfirst,
      storeBytes_ofDigits hsecond, ih hs, asciiPack_group _ hfirst, asciiPack_group _ hsecond,
      append_assoc]
  | case2 => rfl
  | case3 => rfl

/-! ## §5 Access to one character -/

variable {a : List UInt8}

theorem asciiPack_append (h : a.length % 8 = 0) (s : List UInt8) :
    asciiPack (a ++ s) = asciiPack a ++ asciiPack s := by
  induction a using group_induction with
  | tail a hlt =>
    obtain rfl : a = [] := eq_nil_of_length_eq_zero (by omega)
    rfl
  | group c0 c1 c2 c3 c4 c5 c6 c7 a ih =>
    simp only [length_cons] at h
    simp only [cons_append, asciiPack, ih (by omega), append_assoc]

variable {m : List UInt8}

theorem exists_eq_group (hm : m.length = 8) :
    ∃ c0 c1 c2 c3 c4 c5 c6 c7, m = [c0, c1, c2, c3, c4, c5, c6, c7] := by
  match m, hm with
  | [c0, c1, c2, c3, c4, c5, c6, c7], _ => exact ⟨c0, c1, c2, c3, c4, c5, c6, c7, rfl⟩

theorem asciiUnpack_first (hm : m.length = 8) (h : Ascii m) (z : List UInt8) :
    asciiUnpack 0 (asciiPack m ++ z) 8 = m := by
  obtain ⟨c0, c1, c2, c3, c4, c5, c6, c7, rfl⟩ := exists_eq_group hm
  have hunpack := unpackChars_convBytes 0 h
  rw [asciiPack_group [] h]
  simp only [convBytes, cons_append, nil_append] at hunpack ⊢
  rw [asciiUnpack.eq_1 _ _ _ _ _ _ _ _ _ 0, hunpack, asciiUnpack_tail _ (by omega),
    take_zero, append_nil]

/-- A string around its group `g`: whole groups, the group itself, and the rest. -/
theorem exists_group {g : ℕ} (h : g < s.length / 8) :
    ∃ a m z, s = a ++ (m ++ z) ∧ a.length = 8 * g ∧ m.length = 8 := by
  refine ⟨s.take (8 * g), (s.drop (8 * g)).take 8, (s.drop (8 * g)).drop 8, ?_, ?_, ?_⟩
  · simp
  · rw [length_take_of_le (by omega)]
  · rw [length_take_of_le (by rw [length_drop]; omega)]

private theorem exists_tail (s : List UInt8) :
    ∃ a b, s = a ++ b ∧ a.length = 8 * (s.length / 8) ∧ b.length < 8 := by
  refine ⟨s.take (8 * (s.length / 8)), s.drop (8 * (s.length / 8)), ?_, ?_, ?_⟩
  · simp
  · rw [length_take_of_le (by omega)]
  · rw [length_drop]
    omega

private theorem length_asciiPack_groups {g : ℕ} (h : a.length = 8 * g) :
    (asciiPack a).length = g * 7 := by
  rw [asciiPack_length, h, binpackedLen]
  omega

/-- One character is read from the packed text without unpacking the rest. -/
theorem asciiUnpackByte_asciiPack (hs : Ascii s) {idx : ℕ}
    (hidx : idx < s.length) : asciiUnpackByte (asciiPack s) s.length idx = s.getD idx 0 := by
  by_cases hgroup : s.length / 8 ≤ idx / 8
  · -- the tail is stored verbatim
    obtain ⟨a, b, hab, ha, hb⟩ := exists_tail s
    rw [asciiUnpackByte, if_pos hgroup]
    generalize hg : s.length / 8 = g at *
    subst hab
    rw [asciiPack_append (by omega), asciiPack_tail hb,
      getD_append_right _ _ _ _ (by rw [length_asciiPack_groups ha]; omega),
      getD_append_right _ _ _ _ (by omega), length_asciiPack_groups ha, ha]
    congr 1
    omega
  · obtain ⟨a, m, z, hamz, ha, hm⟩ := exists_group (Nat.lt_of_not_le hgroup)
    rw [asciiUnpackByte, if_neg hgroup]
    subst hamz
    have hmAscii : Ascii m := fun c hc => hs c (by simp [hc])
    rw [asciiPack_append (by omega), ← length_asciiPack_groups ha, drop_left,
      asciiPack_append (by omega), asciiUnpack_first hm hmAscii,
      getD_append_right _ _ _ _ (by omega), getD_append _ _ _ _ (by omega)]
    congr 1
    omega

theorem asciiPackByte_asciiPack (hs : Ascii s) {idx : ℕ} (hidx : idx < s.length)
    {val : UInt8} : asciiPackByte (asciiPack s) s.length idx val = asciiPack (s.set idx val) := by
  by_cases hgroup : s.length / 8 ≤ idx / 8
  · obtain ⟨a, b, hab, ha, hb⟩ := exists_tail s
    rw [asciiPackByte, if_pos hgroup]
    generalize hg : s.length / 8 = g at *
    subst hab
    rw [asciiPack_append (by omega), asciiPack_tail hb,
      set_append_right _ _ (by rw [length_asciiPack_groups ha]; omega),
      set_append_right _ _ (by omega), length_asciiPack_groups ha, ha,
      asciiPack_append (by omega), asciiPack_tail (s := b.set _ _) (by rwa [length_set])]
    congr 2
    omega
  · obtain ⟨a, m, z, hamz, ha, hm⟩ := exists_group (Nat.lt_of_not_le hgroup)
    rw [asciiPackByte, if_neg hgroup]
    subst hamz
    have hmAscii : Ascii m := fun c hc => hs c (by simp [hc])
    have hmLen : (asciiPack m).length = 7 := by
      rw [length_asciiPack_groups (g := 1) (by omega)]
    dsimp only
    rw [set_append_right _ _ (by omega), set_append_left _ _ (by omega),
      asciiPack_append (by omega), asciiPack_append (by omega), asciiPack_append (by omega),
      asciiPack_append (by rw [length_set]; omega), ← length_asciiPack_groups ha,
      drop_left, take_left, asciiUnpack_first hm hmAscii, ← hmLen, ← drop_drop,
      drop_left, drop_left, append_assoc]
    congr 4
    omega

end Drakeydb.Compact
