import Drakeydb.Compact.BitPacking

/-!
# The other packers and unpackers

`core/detail/bitpacking.cc` has the packed form in several ways: `ascii_pack2` and `ascii_pack_simd`
join neighbouring characters by masks and shifts, `ascii_try_pack` builds a word character by
character and validates on the way, `ascii_unpack_simd` undoes the joining.
-/

namespace Drakeydb.Compact

open List UInt8 Lib

/-! ## §1 Definitions -/

/-- The loop of a packer over groups of eight, with the word of a group as a parameter. -/
def packGroups (word : List UInt8 → ℕ) : List UInt8 → List UInt8
  | c0 :: c1 :: c2 :: c3 :: c4 :: c5 :: c6 :: c7 :: ascii =>
    storeBytes (word [c0, c1, c2, c3, c4, c5, c6, c7]) 7 ++ packGroups word ascii
  | ascii => ascii

/-- `Compress8x7bit`, and each half of a round of `simd_variant1_pack`. -/
def compress8x7bit (x : BitVec 64) : BitVec 64 :=
  let x := (x &&& 0x7F007F007F007F00) >>> 1 ||| (x &&& 0x007F007F007F007F)
  let x := (x &&& 0x3FFF00003FFF0000) >>> 2 ||| (x &&& 0x00003FFF00003FFF)
  (x &&& 0x0FFFFFFF00000000) >>> 4 ||| (x &&& 0x000000000FFFFFFF)

def asciiPack2 : List UInt8 → List UInt8 := packGroups fun group =>
  (compress8x7bit (BitVec.ofNat 64 (load64 group))).toNat

/-- `ascii_pack_simd`: two groups a round while sixteen characters more follow. -/
def asciiPackSimd (ascii : List UInt8) : List UInt8 :=
  let simdLen := (ascii.length - 16) / 16 * 16
  asciiPack2 (ascii.take simdLen) ++ asciiPack (ascii.drop simdLen)

/-- The word of `ascii_try_pack` from character `j` of a group on. -/
def tryPackWord (j val : ℕ) : List UInt8 → ℕ
  | [] => val
  | c :: src => tryPackWord (j + 1) (val ||| (c &&& 0x7F).toNat <<< (7 * j)) src

/-- `ascii_try_pack`: the length returned and the bytes written. The loops gather `hi` on the
way. -/
def asciiTryPack (src : List UInt8) : ℕ × List UInt8 :=
  let hi := src.foldl (· ||| ·) 0
  let out := packGroups (tryPackWord 0 0) src
  (if hi &&& 0x80 ≠ 0 then 0 else out.length, out)

/-- The shifts and masks of half a round of `ascii_unpack_simd`. -/
def expand7x8bit (x : BitVec 64) : BitVec 64 :=
  let x := (x &&& 0x00FFFFFFF0000000) <<< 4 ||| (x &&& 0x000000000FFFFFFF)
  let x := (x &&& 0xFFFFC000FFFFC000) <<< 2 ||| (x &&& 0x00003FFF00003FFF)
  (x &&& 0x7F807F807F807F80) <<< 1 ||| (x &&& 0x007F007F007F007F)

/-- Half a round of `ascii_unpack_simd`. -/
def simdHalf (bin : List UInt8) : List UInt8 :=
  storeBytes (expand7x8bit (BitVec.ofNat 64 (load64 bin))).toNat 8

/-- The rounds of `ascii_unpack_simd`: the shuffle puts seven bytes into the lower half and the next
    eight into the upper one. -/
def simdRounds : ℕ → List UInt8 → List UInt8
  | 0, _ => []
  | rounds + 1, bin =>
    simdHalf (bin.take 7) ++ simdHalf ((bin.drop 7).take 8) ++ simdRounds rounds (bin.drop 14)

def asciiUnpackSimd (bin : List UInt8) (asciiLen : ℕ) : List UInt8 :=
  if asciiLen < 18 then
    asciiUnpack 0 bin asciiLen
  else
    let rounds := (asciiLen - 2) / 16
    simdRounds rounds bin ++ asciiUnpack 0 (bin.drop (14 * rounds)) (asciiLen - 16 * rounds)

/-! ## §2 Words and bytes -/

theorem storeBytes_succ (word n : ℕ) :
    storeBytes word (n + 1) = word.toUInt8 :: storeBytes (word / 256) n := by
  have hshift : ∀ j, word >>> (8 * (j + 1)) = (word / 256) >>> (8 * j) := fun j => by
    rw [show 8 * (j + 1) = 8 + 8 * j by ring, Nat.shiftRight_add, Nat.shiftRight_eq_div_pow word]
  simp only [storeBytes, range_succ_eq_map, map_cons, map_map, Function.comp_def,
    Nat.succ_eq_add_one, hshift]
  rfl

theorem load64_cons (b : UInt8) (bytes : List UInt8) :
    load64 (b :: bytes) = b.toNat + 256 * load64 bytes := by
  rw [load64, map_cons, Nat.ofDigits_cons, load64]

theorem load64_storeBytes (word n : ℕ) : load64 (storeBytes word n) = word % 256 ^ n := by
  induction n generalizing word with
  | zero => simp [storeBytes, load64, Nat.mod_one]
  | succ n ih =>
    rw [storeBytes_succ, load64_cons, ih, pow_succ', Nat.mod_mul]
    rfl

theorem storeBytes_load64 (bytes : List UInt8) :
    storeBytes (load64 bytes) bytes.length = bytes := by
  induction bytes with
  | nil => rfl
  | cons b bytes ih =>
    have hb := b.toNat_lt
    have hfirst : (b.toNat + 256 * load64 bytes).toUInt8 = b := by
      rw [← UInt8.toNat_inj]
      show (b.toNat + 256 * load64 bytes) % 256 = b.toNat
      omega
    rw [length_cons, storeBytes_succ, load64_cons, hfirst,
      show (b.toNat + 256 * load64 bytes) / 256 = load64 bytes by omega, ih]

/-! ## §3 One group -/

variable (x : BitVec 64) {i : ℕ}

theorem getLsbD_compress8x7bit (hi : i < 64) :
    (compress8x7bit x).getLsbD i = (decide (i < 56) && x.getLsbD (i + i / 7)) := by
  simp only [compress8x7bit, BitVec.getLsbD_or, BitVec.getLsbD_and, BitVec.getLsbD_ushiftRight]
  interval_cases i <;> simp

theorem getLsbD_expand7x8bit (hi : i < 64) :
    (expand7x8bit x).getLsbD i = (decide (i % 8 < 7) && x.getLsbD (i - i / 8)) := by
  simp only [expand7x8bit, BitVec.getLsbD_or, BitVec.getLsbD_and, BitVec.getLsbD_shiftLeft]
  interval_cases i <;> simp

variable {g : List UInt8}

theorem compress8x7bit_load64 (hg : g.length = 8) (h : Ascii g) :
    (compress8x7bit (BitVec.ofNat 64 (load64 g))).toNat = Nat.ofDigits (2 ^ 7) (g.map toNat) := by
  refine eq_packed hg h fun i => ?_
  rw [BitVec.testBit_toNat]
  rcases Nat.lt_or_ge i 64 with hlt | hge
  · rw [getLsbD_compress8x7bit _ hlt, BitVec.getLsbD_ofNat]
    by_cases hi : i < 56
    · simp [show i + i / 7 < 64 by omega]
    · simp [hi]
  · rw [BitVec.getLsbD_of_ge _ _ hge]
    simp [show ¬i < 56 by omega]

/-- Of the word that is loaded, seven bytes matter. -/
theorem expand7x8bit_packed (hg : g.length = 8) (h : Ascii g) {x : ℕ}
    (hx : x % 2 ^ 56 = Nat.ofDigits (2 ^ 7) (g.map toNat)) :
    (expand7x8bit (BitVec.ofNat 64 x)).toNat = load64 g := by
  apply Nat.eq_of_testBit_eq
  intro i
  rw [BitVec.testBit_toNat, testBit_load64]
  rcases Nat.lt_or_ge i 64 with hlt | hge
  · rw [getLsbD_expand7x8bit _ hlt, BitVec.getLsbD_ofNat]
    by_cases hi : i % 8 < 7
    · have hbit := Nat.testBit_mod_two_pow x 56 (i - i / 8)
      rw [hx, testBit_packed h, show (i - i / 8) / 7 = i / 8 by omega,
        show (i - i / 8) % 7 = i % 8 by omega] at hbit
      rw [hbit]
      simp [hi, show i - i / 8 < 64 by omega, show i - i / 8 < 56 by omega]
    · rw [← testBit_load64, h.top_bit (by omega)]
      simp [hi]
  · rw [getD_eq_default _ _ (by rw [length_map]; omega), Nat.zero_testBit]
    exact BitVec.getLsbD_of_ge _ _ hge

theorem tryPackWord_eq {j val : ℕ} (hg : Ascii g) (hval : val < 2 ^ (7 * j)) :
    tryPackWord j val g = val + Nat.ofDigits (2 ^ 7) (g.map toNat) * 2 ^ (7 * j) := by
  induction g generalizing j val with
  | nil => simp [tryPackWord]
  | cons c g ih =>
    rw [ascii_cons] at hg
    have hc : (c &&& 0x7F).toNat = c.toNat := by
      rw [UInt8.toNat_and]
      exact (Nat.and_two_pow_sub_one_eq_mod c.toNat 7).trans (Nat.mod_eq_of_lt hg.1)
    have hnext : val + c.toNat * 2 ^ (7 * j) < 2 ^ (7 * (j + 1)) := by
      rw [Nat.mul_succ, Nat.add_comm (7 * j)]
      exact add_mul_two_pow_lt (j := 7) hval hg.1
    rw [tryPackWord, hc, or_shiftLeft_of_lt hval, ih hg.2 hnext, map_cons, Nat.ofDigits_cons]
    ring

/-! ## §4 Strings -/

variable {s : List UInt8}

/-- A packer whose words are the fields of seven bits writes the packed form. -/
theorem packGroups_eq {word : List UInt8 → ℕ}
    (hword : ∀ g, g.length = 8 → Ascii g → word g = Nat.ofDigits (2 ^ 7) (g.map toNat))
    (hs : Ascii s) :
    packGroups word s = asciiPack s := by
  fun_induction packGroups word s with
  | case1 c0 c1 c2 c3 c4 c5 c6 c7 s ih =>
    obtain ⟨hg, hs⟩ := ascii_split hs
    rw [hword _ rfl hg, storeBytes_ofDigits hg, ih hs, asciiPack_group s hg]
  | case2 s hlast => rw [asciiPack.eq_2 _ hlast]

theorem asciiPack2_eq (hs : Ascii s) : asciiPack2 s = asciiPack s :=
  packGroups_eq (fun _ => compress8x7bit_load64) hs

theorem asciiPackSimd_eq (hs : Ascii s) : asciiPackSimd s = asciiPack s := by
  rw [asciiPackSimd, asciiPack2_eq fun c hc => hs c (mem_of_mem_take hc), ← asciiPack_append,
    take_append_drop]
  rw [length_take_of_le (by omega)]
  omega

theorem asciiTryPack_snd (hs : Ascii s) : (asciiTryPack s).2 = asciiPack s := by
  refine packGroups_eq (fun g _ hg => ?_) hs
  rw [tryPackWord_eq hg (by omega), Nat.zero_add, Nat.mul_zero, pow_zero, Nat.mul_one]

/-- A length is reported exactly for a string of characters. -/
theorem asciiTryPack_fst (s : List UInt8) :
    (asciiTryPack s).1 = if validateAsciiFast s then binpackedLen s.length else 0 := by
  have hvalid := validateAsciiFast_iff s
  by_cases h : Ascii s
  · rw [if_pos (hvalid.mpr h), ← asciiPack_length, ← asciiTryPack_snd h]
    exact if_neg (not_not.mpr (by simpa [validateAsciiFast] using hvalid.mpr h))
  · rw [if_neg (mt hvalid.mp h)]
    exact if_pos (by simpa [validateAsciiFast] using mt hvalid.mp h)

/-- The first seven bytes or more of a packed group hold its characters. -/
theorem simdHalf_asciiPack {z : List UInt8} {n : ℕ} (hg : g.length = 8) (h : Ascii g) (hn : 7 ≤ n) :
    simdHalf ((asciiPack g ++ z).take n) = g := by
  obtain ⟨word, hword, hpack⟩ : ∃ word, word = Nat.ofDigits (2 ^ 7) (g.map toNat) ∧
      asciiPack g = storeBytes word 7 := by
    obtain ⟨c0, c1, c2, c3, c4, c5, c6, c7, rfl⟩ := exists_eq_group hg
    exact ⟨_, rfl,
      by rw [asciiPack_group [] h, storeBytes_ofDigits h, asciiPack_tail (by simp), append_nil]⟩
  have hlen : (storeBytes word 7).length = 7 := by rw [storeBytes, length_map, length_range]
  have hlt : word < 2 ^ 56 := by
    have := Nat.ofDigits_lt_base_pow_length (b := 2 ^ 7) (by omega) h.lt
    rwa [length_map, hg, ← hword, ← pow_mul] at this
  have hload : load64 (storeBytes word 7 ++ z.take (n - 7)) % 2 ^ 56 = word := by
    rw [load64, map_append, Nat.ofDigits_append, length_map, ← load64, load64_storeBytes, hlen]
    omega
  rw [hpack, take_append, hlen, take_of_length_le (by omega), simdHalf,
    expand7x8bit_packed hg h (hload.trans hword), ← hg]
  exact storeBytes_load64 g

theorem simdRounds_asciiPack {a : List UInt8} {rounds : ℕ} (ha : Ascii a)
    (hlen : a.length = 16 * rounds)
    (z : List UInt8) : simdRounds rounds (asciiPack a ++ z) = a := by
  induction rounds generalizing a with
  | zero => rw [eq_nil_of_length_eq_zero (by omega : a.length = 0)]; rfl
  | succ rounds ih =>
    obtain ⟨m, m', a, rfl, hm, hm'⟩ := exists_group (s := a) (g := 1) (by omega)
    rw [Ascii, forall_mem_append, forall_mem_append] at ha
    have hpack : (asciiPack m).length = 7 ∧ (asciiPack m').length = 7 := by
      rw [asciiPack_length, asciiPack_length, hm, hm']
      exact ⟨rfl, rfl⟩
    rw [asciiPack_append (by omega), asciiPack_append (by omega), append_assoc, append_assoc,
      simdRounds, simdHalf_asciiPack hm ha.1 le_rfl, drop_left' hpack.1,
        simdHalf_asciiPack hm' ha.2.1 (by omega),
      show 14 = 7 + 7 from rfl, ← drop_drop, drop_left' hpack.1, drop_left' hpack.2,
      ih ha.2.2 (by simp only [length_append] at hlen; omega), append_assoc]

theorem asciiUnpackSimd_asciiPack (hs : Ascii s) : asciiUnpackSimd (asciiPack s) s.length = s := by
  rw [asciiUnpackSimd]
  split_ifs with hshort
  · exact asciiUnpack_asciiPack 0 hs
  · dsimp only
    obtain ⟨rounds, hrounds⟩ : ∃ rounds, (s.length - 2) / 16 = rounds := ⟨_, rfl⟩
    have hfirst : (s.take (16 * rounds)).length = 16 * rounds := length_take_of_le (by omega)
    have hpack : (asciiPack (s.take (16 * rounds))).length = 14 * rounds := by
      rw [asciiPack_length, hfirst, binpackedLen]
      omega
    have hsplit : asciiPack s = asciiPack (s.take (16 * rounds)) ++
      asciiPack (s.drop (16 * rounds)) := by
      rw [← asciiPack_append (by omega), take_append_drop]
    rw [hrounds, hsplit, drop_left' hpack, ← length_drop,
      simdRounds_asciiPack (fun c hc => hs c (mem_of_mem_take hc)) hfirst,
      asciiUnpack_asciiPack 0 fun c hc => hs c (mem_of_mem_drop hc), take_append_drop]

/-- **The packed form**: every packer writes the same bytes, every reader recovers the string, and
    packing with validation fails exactly for a byte that is no character. -/
theorem packed_form :
    (∀ s, Ascii s →
      (asciiPack s).length = binpackedLen s.length ∧
      asciiPack2 s = asciiPack s ∧
      asciiTryPack s = (binpackedLen s.length, asciiPack s) ∧
      asciiPackSimd s = asciiPack s ∧
      asciiPackSimd2 s = asciiPack s ∧
      asciiUnpack 0 (asciiPack s) s.length = s ∧
      asciiUnpackSimd (asciiPack s) s.length = s ∧
      (∀ idx (hidx : idx < s.length), asciiUnpackByte (asciiPack s) s.length idx = s[idx]) ∧
      (∀ idx < s.length, ∀ val : UInt8, val.toNat < 128 →
        asciiPackByte (asciiPack s) s.length idx val = asciiPack (s.set idx val)) ∧
      ∀ t, Ascii t → t.length = s.length → (comparePacked (asciiPack s) t = true ↔ t = s)) ∧
    (∀ n, asciiLen (binpackedLen n) = n ∨ asciiLen (binpackedLen n) = n + 1) ∧
    ∀ s ≠ [], (asciiTryPack s).1 = 0 ↔ ∃ c ∈ s, 128 ≤ c.toNat := by
  refine ⟨fun s hs => ?_, fun n => ?_, fun s hne => ?_⟩
  · refine ⟨asciiPack_length s, asciiPack2_eq hs, Prod.ext ?_ (asciiTryPack_snd hs),
      asciiPackSimd_eq hs,
      asciiPackSimd2_eq hs, asciiUnpack_asciiPack 0 hs, asciiUnpackSimd_asciiPack hs,
      fun idx hidx => (asciiUnpackByte_asciiPack hs hidx).trans (getD_eq_getElem _ _ hidx),
      fun idx hidx val _ => asciiPackByte_asciiPack hs hidx, fun t ht hlen => ?_⟩
    · rw [asciiTryPack_fst, if_pos ((validateAsciiFast_iff s).mpr hs)]
    · rw [comparePacked_iff ht (by rw [asciiPack_length, hlen])]
      exact ⟨fun h => (asciiPack_inj hs ht hlen.symm h).symm, fun h => h ▸ rfl⟩
  · rw [asciiLen_binpackedLen]
    split_ifs <;> simp
  · have hpos : binpackedLen s.length ≠ 0 := by
      have := length_pos_iff.mpr hne
      rw [binpackedLen]
      omega
    rw [asciiTryPack_fst, ite_eq_right_iff, validateAsciiFast_iff]
    simp [hpos, Ascii]

/-- A string of nineteen characters, for which the vectorised unpacker makes a round. -/
theorem packed_form_nineteen :
    asciiUnpackSimd (asciiPack (replicate 19 97)) 19 = replicate 19 97 :=
  (packed_form.1 (replicate 19 97) fun c hc => by rw [eq_of_mem_replicate hc]; decide).2.2.2.2.2.2.1

end Drakeydb.Compact
