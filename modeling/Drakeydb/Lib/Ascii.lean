import Mathlib.Data.List.Basic
import Mathlib.Data.Nat.Digits.Defs

/-!
# Byte strings of ASCII text

The string functions a command parser is written with: letter case, hexadecimal and decimal numbers.
They act on lists of bytes, which need not be text.
-/

namespace Drakeydb.Lib.Ascii

open List Option

abbrev Bytes := List UInt8

/-- The bytes of a literal. -/
def text (s : String) : Bytes := s.toList.map fun c => UInt8.ofNat c.toNat

/-! ## §1 Letter case -/

def toUpper (c : UInt8) : UInt8 := if 97 ≤ c ∧ c ≤ 122 then c - 32 else c

def toLower (c : UInt8) : UInt8 := if 65 ≤ c ∧ c ≤ 90 then c + 32 else c

def asciiStrToUpper (s : Bytes) : Bytes := s.map toUpper

def asciiStrToLower (s : Bytes) : Bytes := s.map toLower

def equalsIgnoreCase (a b : Bytes) : Bool := asciiStrToLower a = asciiStrToLower b

/-! ## §2 Hexadecimal digits -/

def hexDigit (d : ℕ) : UInt8 := if d < 10 then UInt8.ofNat (48 + d) else UInt8.ofNat (87 + d)

def bytesToHexString (s : Bytes) : Bytes :=
  s.flatMap fun c => [hexDigit (c.toNat / 16), hexDigit (c.toNat % 16)]

/-- The value of a digit, of either case. -/
def hexValue (c : UInt8) : Option ℕ :=
  if 48 ≤ c ∧ c ≤ 57 then some (c.toNat - 48)
  else if 97 ≤ c ∧ c ≤ 102 then some (c.toNat - 87)
  else if 65 ≤ c ∧ c ≤ 70 then some (c.toNat - 55)
  else none

/-- `absl::HexStringToBytes`: pairs of digits only. -/
def hexStringToBytes : Bytes → Option Bytes
  | [] => some []
  | [_] => none
  | a :: b :: rest =>
    match hexValue a, hexValue b, hexStringToBytes rest with
    | some x, some y, some s => some (UInt8.ofNat (16 * x + y) :: s)
    | _, _, _ => none

theorem hexValue_hexDigit : ∀ d < 16, hexValue (hexDigit d) = some d := by decide

/-- What is written is read back. -/
theorem hexStringToBytes_bytesToHexString (s : Bytes) :
    hexStringToBytes (bytesToHexString s) = some s := by
  induction s with
  | nil => rfl
  | cons c s ih =>
    have hlt : c.toNat < 256 := c.toNat_lt
    have hvalue : UInt8.ofNat (16 * (c.toNat / 16) + c.toNat % 16) = c := by
      rw [Nat.div_add_mod, UInt8.ofNat_toNat]
    rw [bytesToHexString, flatMap_cons, ← bytesToHexString]
    simp only [cons_append, nil_append, hexStringToBytes, ih,
      hexValue_hexDigit _ (by omega : c.toNat / 16 < 16),
        hexValue_hexDigit _ (Nat.mod_lt _ (by decide)), hvalue]

theorem hexDigit_ne : ∀ d < 16, hexDigit d ≠ 32 ∧ hexDigit d ≠ 10 := by decide

variable {s : Bytes} {c : UInt8}

theorem ne_of_mem_bytesToHexString (h : c ∈ bytesToHexString s) : c ≠ 32 ∧ c ≠ 10 := by
  obtain ⟨b, -, hc⟩ := mem_flatMap.mp h
  have hlt : b.toNat < 256 := b.toNat_lt
  rcases mem_pair.mp hc with rfl | rfl
  · exact hexDigit_ne _ (by omega)
  · exact hexDigit_ne _ (Nat.mod_lt _ (by decide))

/-! ## §3 Decimal numbers -/

def decimalDigit (d : ℕ) : UInt8 := UInt8.ofNat (48 + d)

/-- A number as `absl::StrCat` writes it. -/
def natToString (n : ℕ) : Bytes :=
  if n = 0 then [48] else ((Nat.digits 10 n).map decimalDigit).reverse

def isSpace (c : UInt8) : Bool := c = 32 ∨ 9 ≤ c ∧ c ≤ 13

/-- Blanks at both ends are left out. -/
def stripAsciiWhitespace (s : Bytes) : Bytes :=
  ((s.dropWhile isSpace).reverse.dropWhile isSpace).reverse

def decimalValue (c : UInt8) : Option ℕ := if 48 ≤ c ∧ c ≤ 57 then some (c.toNat - 48) else none

/-- Digits after those read so far. -/
def readDigits : ℕ → Bytes → Option ℕ
  | acc, [] => some acc
  | acc, c :: s => (decimalValue c).bind fun d => readDigits (10 * acc + d) s

/-- The sign of an unsigned number. -/
def skipPlus : Bytes → Bytes
  | 43 :: s => s
  | s => s

/-- `absl::SimpleAtoi` for `size_t`. -/
def simpleAtoi (s : Bytes) : Option ℕ :=
  let digits := skipPlus (stripAsciiWhitespace s)
  if digits = [] then none
  else (readDigits 0 digits).filter fun n => n < 18446744073709551616

theorem decimalDigit_cases : ∀ d < 10,
    decimalValue (decimalDigit d) = some d ∧ isSpace (decimalDigit d) = false ∧
      decimalDigit d ≠ 43 ∧ decimalDigit d ≠ 32 ∧ decimalDigit d ≠ 10 := by decide

theorem readDigits_append (s t : Bytes) (acc : ℕ) :
    readDigits acc (s ++ t) = (readDigits acc s).bind fun n => readDigits n t := by
  induction s generalizing acc with
  | nil => rfl
  | cons c s ih =>
    rw [cons_append, readDigits, readDigits, bind_assoc]
    exact congrArg _ (funext fun d => ih _)

theorem readDigits_reverse {ds : List ℕ} (h : ∀ d ∈ ds, d < 10) :
    readDigits 0 (ds.map decimalDigit).reverse = some (Nat.ofDigits 10 ds) := by
  induction ds with
  | nil => rfl
  | cons d ds ih =>
    have hd := (decimalDigit_cases d (h d mem_cons_self)).1
    rw [map_cons, reverse_cons, readDigits_append, ih fun e he => h e (mem_cons_of_mem _ he),
      bind_some, readDigits, hd, bind_some, readDigits, Nat.ofDigits_cons, add_comm]

theorem exists_of_mem_natToString {n : ℕ} (h : c ∈ natToString n) :
    ∃ d < 10, c = decimalDigit d := by
  rw [natToString] at h
  split at h
  · exact ⟨0, by decide, mem_singleton.mp h⟩
  · obtain ⟨d, hd, rfl⟩ := mem_map.mp (mem_reverse.mp h)
    exact ⟨d, Nat.digits_lt_base (by decide) hd, rfl⟩

theorem natToString_ne_nil (n : ℕ) : natToString n ≠ [] := by
  rw [natToString]
  split
  · exact cons_ne_nil _ _
  · next hne => simpa [Nat.digits_eq_nil_iff_eq_zero] using hne

theorem readDigits_natToString (n : ℕ) : readDigits 0 (natToString n) = some n := by
  rw [natToString]
  split
  case isTrue hzero => rw [hzero]; rfl
  case isFalse =>
    rw [readDigits_reverse fun d hd => Nat.digits_lt_base (by decide) hd, Nat.ofDigits_digits]

theorem dropWhile_isSpace_eq_self (h : ∀ c ∈ s, isSpace c = false) : s.dropWhile isSpace = s := by
  cases s with
  | nil => rfl
  | cons c s => rw [dropWhile_cons, h c mem_cons_self]; rfl

theorem skipPlus_eq_self (h : ∀ c ∈ s, c ≠ 43) : skipPlus s = s := by
  rw [skipPlus.eq_def]
  split
  · exact absurd rfl (h 43 mem_cons_self)
  · rfl

theorem simpleAtoi_natToString {n : ℕ} (h : n < 18446744073709551616) :
    simpleAtoi (natToString n) = some n := by
  have hspace : ∀ c ∈ natToString n, isSpace c = false := by
    intro c hc
    obtain ⟨d, hd, rfl⟩ := exists_of_mem_natToString hc
    exact (decimalDigit_cases d hd).2.1
  have hplus : ∀ c ∈ natToString n, c ≠ 43 := by
    intro c hc
    obtain ⟨d, hd, rfl⟩ := exists_of_mem_natToString hc
    exact (decimalDigit_cases d hd).2.2.1
  have hstrip : stripAsciiWhitespace (natToString n) = natToString n := by
    simp [stripAsciiWhitespace, dropWhile_isSpace_eq_self hspace,
      dropWhile_isSpace_eq_self fun c hc => hspace c (mem_reverse.mp hc)]
  simp only [simpleAtoi, hstrip, skipPlus_eq_self hplus, if_neg (natToString_ne_nil n),
    readDigits_natToString]
  exact filter_some_pos (decide_eq_true h)

end Drakeydb.Lib.Ascii
