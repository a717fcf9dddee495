import Drakeydb.Lib.SortedMap

/-!
# Words, synonyms and characters

How a text is cut into words and what is stored for a word: `SplitWithEscapes`, `ToLower` and
`TokenizeWords` of `core/search/indices.cc`, and `Synonyms` of `core/search/synonyms.cc`. Each word
that is not a stop word is stored in lower case, next to its stem, if that is another word, and to
the marker of its synonym group: the group's id behind a blank. Case mapping and stemming come from
other libraries; of the former a few facts are used, of the latter none.

`Utf8CodepointLen` cuts a string into characters. A lead byte that is not followed by the bytes it
announces counts as a character of its own, as does any byte that is out of place, so every string
has characters; a string in UTF-8 is one whose characters are all proper.
-/

namespace Drakeydb.Search

open Lib List UInt8

abbrev Bytes := List UInt8

instance lawfulBEqBytes : LawfulBEq Bytes := inferInstance

instance linearOrderUInt8 : LinearOrder UInt8 where
  le_refl := fun _ => UInt8.le_refl _
  le_trans := fun _ _ _ h h' => UInt8.le_trans h h'
  le_antisymm := fun _ _ h h' => UInt8.le_antisymm h h'
  le_total := fun _ _ => UInt8.le_total _ _
  lt_iff_le_not_ge := fun a b => by
    rw [UInt8.not_le]
    exact ⟨fun h => ⟨UInt8.le_of_lt h, h⟩, fun h => h.2⟩
  toDecidableLE := inferInstance

/-! ## §1 Splitting -/

def blank : UInt8 := 32

def backslash : UInt8 := 92

/-- `kTextSepTable`: blanks and punctuation. -/
def isSeparator (c : UInt8) : Bool :=
  [32, 9, 10, 13, 11, 12, 44, 46, 60, 62, 123, 125, 91, 93, 34, 39, 58, 59, 33, 64, 35, 36, 37,
    94, 38, 42, 40, 41, 45, 43, 61, 126, 63, 47, 124, 96].contains c

/-- `Utf8CodepointLen` at the beginning of a string. -/
def utf8CodepointLen (s : Bytes) : ℕ :=
  match s with
  | [] => 1
  | lead :: rest =>
    let len :=
      if lead &&& 0xE0 = 0xC0 then 2 else if lead &&& 0xF0 = 0xE0 then 3
        else if lead &&& 0xF8 = 0xF0 then 4 else 1
    if len = 1 then 1
    else if s.length < len then 1
    else if (rest.take (len - 1)).all fun c => decide (c &&& 0xC0 = 0x80) then len else 1

/-- A word that is not empty is emitted. -/
def emitWord (word : Bytes) : List Bytes := if word = [] then [] else [word]

/-- The loop without escapes; `word` is what has been read since the last separator. -/
def splitPlain (word : Bytes) : Bytes → List Bytes
  | [] => emitWord word
  | c :: text =>
    if isSeparator c then emitWord word ++ splitPlain [] text else splitPlain (word ++ [c]) text

/-- The loop with escapes: a backslash glues the next character to the word. -/
def splitEscaped : ℕ → Bytes → Bytes → List Bytes
  | 0, word, _ => emitWord word
  | _ + 1, word, [] => emitWord word
  | fuel + 1, word, c :: text =>
    if c = backslash then
      if text = [] then splitEscaped fuel word text
      else
        splitEscaped fuel (word ++ text.take (utf8CodepointLen text))
          (text.drop (utf8CodepointLen text))
    else if isSeparator c then emitWord word ++ splitEscaped fuel [] text
    else splitEscaped fuel (word ++ [c]) text

def splitWithEscapes (text : Bytes) : List Bytes :=
  if backslash ∈ text then splitEscaped text.length [] text else splitPlain [] text

/-! ## §2 Lower case -/

/-- `AsciiStrToLower`, byte by byte. -/
def asciiLower (c : UInt8) : UInt8 := if 65 ≤ c ∧ c ≤ 90 then c + 32 else c

def isAllAscii (word : Bytes) : Bool := word.all fun c => decide (c < 128)

/-- `una::cases::to_lowercase_utf8`, and what is known about it: on ASCII strings it does what is
expected, what is in lower case stays so, and a blank at the beginning stays a blank and comes from
nothing else. -/
structure CaseMapping where
  lower : Bytes → Bytes
  ascii : ∀ word, isAllAscii word = true → lower word = word.map asciiLower
  idem : ∀ word, lower (lower word) = lower word
  blank_cons : ∀ word, lower (blank :: word) = blank :: lower word
  head_blank : ∀ word, (lower word).head? = some blank → word.head? = some blank

def CaseMapping.toLower (cm : CaseMapping) (word : Bytes) : Bytes :=
  if isAllAscii word then word.map asciiLower else cm.lower word

/-- Queries and documents are brought to lower case in the same way. -/
theorem CaseMapping.toLower_eq (cm : CaseMapping) (word : Bytes) :
    cm.toLower word = cm.lower word := by
  rw [toLower]
  split
  case isTrue h => exact (cm.ascii word h).symm
  case isFalse => rfl

theorem asciiLower_idem (c : UInt8) : asciiLower (asciiLower c) = asciiLower c := by
  by_cases h : 65 ≤ c ∧ c ≤ 90
  case pos =>
    have hlower : asciiLower c = c + 32 := if_pos h
    rw [hlower]
    refine if_neg fun h' => ?_
    rw [le_iff_toNat_le, le_iff_toNat_le] at h h'
    rw [UInt8.toNat_add] at h'
    simp only [reduceToNat] at h h'
    omega
  case neg =>
    have hsame : asciiLower c = c := if_neg h
    rw [hsame, hsame]

theorem eq_blank_of_asciiLower {c : UInt8} (h : asciiLower c = blank) : c = blank := by
  rw [asciiLower] at h
  split at h
  case isTrue hupper =>
    have hnat := congrArg toNat h
    rw [le_iff_toNat_le, le_iff_toNat_le] at hupper
    rw [UInt8.toNat_add, blank] at hnat
    simp only [reduceToNat] at hupper hnat
    omega
  case isFalse => exact h

theorem asciiCase_idem (word : Bytes) :
    (word.map asciiLower).map asciiLower = word.map asciiLower := by
  rw [map_map]
  exact map_congr_left fun c _ => asciiLower_idem c

theorem asciiCase_head_blank (word : Bytes) (h : (word.map asciiLower).head? = some blank) :
    word.head? = some blank := by
  cases word with
  | nil => cases h
  | cons c word => exact congrArg some (eq_blank_of_asciiLower (Option.some.inj h))

/-- The case mapping that knows ASCII only. -/
def asciiCase : CaseMapping where
  lower := List.map asciiLower
  ascii := fun _ _ => rfl
  idem := asciiCase_idem
  blank_cons := fun _ => rfl
  head_blank := asciiCase_head_blank

/-! ## §3 Synonyms -/

/-- `Synonyms`: the groups, in the order in which the hash map is visited. -/
structure Synonyms where
  groups : List (Bytes × List Bytes)
  nodup : (groups.map Prod.fst).Nodup

/-- The marker of a group: a blank before its id. -/
def groupToken (id : Bytes) : Bytes := blank :: id

namespace Synonyms

def getGroupToken (cm : CaseMapping) (synonyms : Synonyms) (term : Bytes) : Option Bytes :=
  (synonyms.groups.find? fun g => g.2.contains (cm.lower term)).map fun g => groupToken g.1

def none : Synonyms := ⟨[], List.nodup_nil⟩

end Synonyms

/-! ## §4 Tokens -/

structure TermInfo where
  freq : ℕ
  positions : List ℕ
  deriving DecidableEq

/-- The hash map of the tokens of a document. -/
abbrev Tokens := SortedMap Bytes TermInfo

/-- What `TokenizeWords` reads. -/
structure Tokenizer where
  cm : CaseMapping
  stopWords : List Bytes
  stemmer : Option (Bytes → Bytes)

/-- `Stemmer::Stem`. -/
def stemWord (stem : Bytes → Bytes) (token : Bytes) : Bytes := if token = [] then [] else stem token

/-- The lambda `emit`. -/
def emitToken (pos : ℕ) (out : Tokens) (key : Bytes) : Tokens :=
  out.alter key fun info =>
    some ⟨(info.elim 0 TermInfo.freq) + 1, (info.elim [] TermInfo.positions) ++ [pos]⟩

namespace Tokenizer

variable (T : Tokenizer) (synonyms : Synonyms)

/-- The stem of a word; without a stemmer, the word itself. -/
def stem (word : Bytes) : Bytes := (T.stemmer.map fun stem => stemWord stem word).getD word

/-- The lower case of a word, if it is kept: a blank at the beginning is reserved for the markers of
groups, and stop words are left out. -/
def keep (word : Bytes) : Option Bytes :=
  let lower := T.cm.lower word
  if lower = [] ∨ lower.head? = some blank then none
  else if T.stopWords.contains lower then none
  else some lower

/-- What is stored for a word in lower case, in the order in which it is emitted. -/
def wordTokens (lower : Bytes) : List Bytes :=
  (synonyms.getGroupToken T.cm lower).toList ++
    ((if T.stem lower ≠ lower then [T.stem lower] else []) ++ [lower])

/-- The lambda for each word. -/
def tokenizeWord (state : ℕ × Tokens) (word : Bytes) : ℕ × Tokens :=
  match T.keep word with
  | none => state
  | some lower =>
    (state.1 + 1, (T.wordTokens synonyms lower).foldl (emitToken (state.1 + 1)) state.2)

def tokenizeWords (state : ℕ × Tokens) (text : Bytes) : ℕ × Tokens :=
  (splitWithEscapes text).foldl (T.tokenizeWord synonyms) state

/-- The tokens of all values of a field. -/
def tokenize (texts : List Bytes) : Tokens := (texts.foldl (T.tokenizeWords synonyms) (0, .empty)).2

variable {T synonyms} (pos : ℕ) (out : Tokens)

theorem isSome_emitToken (key token : Bytes) :
    ((emitToken pos out key).find? token).isSome = true ↔ token = key ∨
      (out.find? token).isSome = true := by
  rw [emitToken, SortedMap.find?_alter]
  split
  case isTrue heq => simp [heq]
  case isFalse hne => simp [hne]

theorem isSome_foldl_emitToken (keys : List Bytes) (token : Bytes) :
    ((keys.foldl (emitToken pos) out).find? token).isSome = true ↔
      token ∈ keys ∨ (out.find? token).isSome = true := by
  induction keys generalizing out with
  | nil => simp
  | cons key keys ih =>
    rw [foldl_cons, ih, isSome_emitToken, mem_cons]
    tauto

theorem isSome_tokenizeWord (state : ℕ × Tokens) (word token : Bytes) :
    ((T.tokenizeWord synonyms state word).2.find? token).isSome = true ↔
      (∃ lower, T.keep word = some lower ∧ token ∈ T.wordTokens synonyms lower) ∨
        (state.2.find? token).isSome = true := by
  rw [tokenizeWord]
  cases hkeep : T.keep word with
  | none => simp
  | some lower =>
    rw [isSome_foldl_emitToken]
    simp

theorem isSome_foldl_tokenizeWord (words : List Bytes) (state : ℕ × Tokens) (token : Bytes) :
    ((words.foldl (T.tokenizeWord synonyms) state).2.find? token).isSome = true ↔
      (∃ word ∈ words, ∃ lower, T.keep word = some lower ∧ token ∈ T.wordTokens synonyms lower) ∨
        (state.2.find? token).isSome = true := by
  induction words generalizing state with
  | nil => simp
  | cons word words ih =>
    rw [foldl_cons, ih, isSome_tokenizeWord, exists_mem_cons_iff]
    exact or_left_comm.trans or_assoc.symm

def words (texts : List Bytes) : List Bytes := texts.flatMap splitWithEscapes

theorem foldl_tokenizeWords (texts : List Bytes) (state : ℕ × Tokens) :
    texts.foldl (T.tokenizeWords synonyms) state =
      (words texts).foldl (T.tokenizeWord synonyms) state := by
  induction texts generalizing state with
  | nil => rfl
  | cons text texts ih =>
    have hwords : words (text :: texts) = splitWithEscapes text ++ words texts := flatMap_cons
    rw [foldl_cons, ih, hwords, foldl_append]
    rfl

/-- **The tokens of a document** are those of its words. -/
theorem mem_tokenize {texts : List Bytes} {token : Bytes} :
    ((T.tokenize synonyms texts).find? token).isSome = true ↔
      ∃ word ∈ words texts, ∃ lower, T.keep word = some lower ∧
        token ∈ T.wordTokens synonyms lower := by
  rw [tokenize, foldl_tokenizeWords, isSome_foldl_tokenizeWord]
  simp

end Tokenizer

/-! ## §5 Bytes -/

/-- The length that a lead byte announces. -/
def leadLen (lead : UInt8) : ℕ :=
  if lead &&& 0xE0 = 0xC0 then 2 else if lead &&& 0xF0 = 0xE0 then 3
    else if lead &&& 0xF8 = 0xF0 then 4 else 1

/-- A byte in the middle of a character. -/
def isContinuation (c : UInt8) : Bool := decide (c &&& 0xC0 = 0x80)

theorem forall_uint8 {P : UInt8 → Prop} (h : ∀ n < 256, P (UInt8.ofNat n)) (c : UInt8) : P c := by
  have hc := h c.toNat c.toNat_lt
  rwa [UInt8.ofNat_toNat] at hc

theorem leadLen_of_ascii (c : UInt8) : c < 128 → leadLen c = 1 := by
  revert c
  exact forall_uint8 (by decide +kernel)

theorem not_ascii_of_isContinuation (c : UInt8) : isContinuation c = true → ¬ c < 128 := by
  revert c
  exact forall_uint8 (by decide +kernel)

theorem leadLen_pos (c : UInt8) : 0 < leadLen c := by
  rw [leadLen]
  split_ifs <;> decide

theorem utf8CodepointLen_cons (lead : UInt8) (rest : Bytes) :
    utf8CodepointLen (lead :: rest) =
      if leadLen lead = 1 then 1
      else if (lead :: rest).length < leadLen lead then 1
      else if (rest.take (leadLen lead - 1)).all isContinuation then leadLen lead else 1 := rfl

theorem utf8CodepointLen_pos (text : Bytes) : 0 < utf8CodepointLen text := by
  cases text with
  | nil => exact Nat.one_pos
  | cons lead rest =>
    rw [utf8CodepointLen_cons]
    have := leadLen_pos lead
    split_ifs <;> omega

/-! ## §6 Characters -/

/-- A proper character: an ASCII byte, or a lead byte and what it announces. -/
def IsChar (c : Bytes) : Prop :=
  match c with
  | [] => False
  | [b] => b < 128
  | lead :: rest => leadLen lead = rest.length + 1 ∧ rest.all isContinuation = true

instance : DecidablePred IsChar
  | [] => isFalse not_false
  | [b] => inferInstanceAs (Decidable (b < 128))
  | lead :: b :: rest =>
    inferInstanceAs
      (Decidable (leadLen lead = (b :: rest).length + 1 ∧ (b :: rest).all isContinuation = true))

theorem IsChar.tail {c : UInt8} {rest : Bytes} (h : IsChar (c :: rest)) :
    ∀ b ∈ rest, ¬ b < 128 := by
  cases rest with
  | nil => exact forall_mem_nil _
  | cons d rest => exact fun b hb => not_ascii_of_isContinuation b (all_eq_true.mp h.2 b hb)

theorem IsChar.head {c : UInt8} {rest : Bytes} (h : IsChar (c :: rest)) (hc : c < 128) :
    rest = [] := by
  cases rest with
  | nil => rfl
  | cons d rest =>
    have hlead := leadLen_of_ascii c hc
    rw [h.1] at hlead
    exact absurd hlead (by rw [length_cons]; omega)

variable {c : Bytes}

theorem IsChar.ne_nil (h : IsChar c) : c ≠ [] := by
  rintro rfl
  exact h

/-- **A proper character is recognized**, whatever follows it. -/
theorem utf8CodepointLen_append (h : IsChar c) (rest : Bytes) :
    utf8CodepointLen (c ++ rest) = c.length := by
  match c, h with
  | [b], h =>
    rw [singleton_append, utf8CodepointLen_cons, if_pos (leadLen_of_ascii b h)]
    rfl
  | lead :: b :: tail, ⟨hlen, hall⟩ =>
    have htake : ((b :: tail) ++ rest).take (leadLen lead - 1) = b :: tail := by
      rw [hlen, Nat.add_sub_cancel]
      exact take_left
    rw [cons_append, utf8CodepointLen_cons, htake, if_pos hall, if_neg, if_neg]
    · exact hlen
    · rw [hlen, length_cons, length_append]
      omega
    · rw [hlen, length_cons]
      omega

/-- The characters of a string, with fuel for as many. -/
def splitChars : ℕ → Bytes → List Bytes
  | 0, _ => []
  | fuel + 1, text =>
    if text = [] then []
    else text.take (utf8CodepointLen text) :: splitChars fuel (text.drop (utf8CodepointLen text))

def chars (text : Bytes) : List Bytes := splitChars text.length text

theorem splitChars_eq_chars {fuel : ℕ} {text : Bytes} (h : text.length ≤ fuel) :
    splitChars fuel text = chars text := by
  induction fuel using Nat.strong_induction_on generalizing text with
  | h fuel ih =>
    cases text with
    | nil => cases fuel <;> rfl
    | cons c text =>
      obtain ⟨fuel, rfl⟩ : ∃ n, fuel = n + 1 := ⟨fuel - 1, by rw [length_cons] at h; omega⟩
      have hpos := utf8CodepointLen_pos (c :: text)
      have hlen : ((c :: text).drop (utf8CodepointLen (c :: text))).length ≤ text.length := by
        rw [length_drop, length_cons]
        omega
      rw [length_cons] at h
      rw [chars, length_cons, splitChars, splitChars, if_neg (cons_ne_nil _ _),
        if_neg (cons_ne_nil _ _), ih fuel (Nat.lt_succ_self _) (by omega),
          ih text.length (by omega) hlen]

@[simp] theorem chars_nil : chars [] = [] := rfl

theorem chars_eq_cons {text : Bytes} (h : text ≠ []) :
    chars text = text.take (utf8CodepointLen text) ::
      chars (text.drop (utf8CodepointLen text)) := by
  obtain ⟨n, hn⟩ := Nat.exists_eq_succ_of_ne_zero (length_pos_iff.mpr h).ne'
  have hpos := utf8CodepointLen_pos text
  rw [chars, hn, splitChars, if_neg h, splitChars_eq_chars]
  rw [length_drop]
  omega

theorem chars_append (h : IsChar c) (rest : Bytes) : chars (c ++ rest) = c :: chars rest := by
  rw [chars_eq_cons (append_ne_nil_of_left_ne_nil h.ne_nil rest), utf8CodepointLen_append h,
    take_left, drop_left]

variable {cs : List Bytes}

/-- **The characters of a string of proper characters.** -/
theorem chars_flatten (h : ∀ c ∈ cs, IsChar c) : chars cs.flatten = cs := by
  induction cs with
  | nil => rfl
  | cons c cs ih =>
    rw [forall_mem_cons] at h
    rw [flatten_cons, chars_append h.1, ih h.2]

theorem flatten_chars (text : Bytes) : (chars text).flatten = text := by
  induction hn : text.length using Nat.strong_induction_on generalizing text with
  | h n ih =>
    by_cases hnil : text = []
    · rw [hnil]
      rfl
    · have hpos := utf8CodepointLen_pos text
      have hlt : (text.drop (utf8CodepointLen text)).length < n := by
        have := length_pos_iff.mpr hnil
        rw [length_drop]
        omega
      simp [chars_eq_cons hnil, ih _ hlt _ rfl]

/-- A string in UTF-8. -/
def IsUtf8 (text : Bytes) : Prop := ∀ c ∈ chars text, IsChar c

instance : DecidablePred IsUtf8 :=
  fun text => inferInstanceAs (Decidable (∀ c ∈ chars text, IsChar c))

theorem isUtf8_flatten (h : ∀ c ∈ cs, IsChar c) : IsUtf8 cs.flatten := by
  rwa [IsUtf8, chars_flatten h]

/-! ## §7 Lower case -/

/-- What is in UTF-8 stays so in lower case, and nothing is lost. -/
def CaseMapping.KeepsUtf8 (cm : CaseMapping) : Prop :=
  ∀ word, IsUtf8 word → word ≠ [] → IsUtf8 (cm.lower word) ∧ cm.lower word ≠ []

theorem asciiLower_of_not_ascii {c : UInt8} (h : ¬ c < 128) : asciiLower c = c := by
  refine if_neg fun hupper => h ?_
  rw [le_iff_toNat_le, le_iff_toNat_le] at hupper
  rw [lt_iff_toNat_lt]
  simp only [reduceToNat] at hupper ⊢
  omega

theorem asciiLower_ascii (c : UInt8) : c < 128 → asciiLower c < 128 := by
  revert c
  exact forall_uint8 (by decide +kernel)

theorem IsChar.map_asciiLower (h : IsChar c) : IsChar (c.map asciiLower) := by
  match c, h with
  | [b], h => exact asciiLower_ascii b h
  | lead :: b :: tail, h =>
    -- no byte of a longer character is ASCII
    have hlead : ¬ lead < 128 := fun hascii => cons_ne_nil b tail (h.head hascii)
    have hall : ∀ b' ∈ lead :: b :: tail, ¬ b' < 128 := forall_mem_cons.mpr ⟨hlead, h.tail⟩
    have hsame : (lead :: b :: tail).map asciiLower = (lead :: b :: tail).map id :=
      map_congr_left fun b' hb' => asciiLower_of_not_ascii (hall b' hb')
    rw [hsame, map_id]
    exact h

theorem keepsUtf8_asciiCase : asciiCase.KeepsUtf8 := by
  intro word hword hne
  have hmap : word.map asciiLower = ((chars word).map (map asciiLower)).flatten := by
    rw [← map_flatten, flatten_chars]
  refine ⟨?_, fun hnil => hne (map_eq_nil_iff.mp hnil)⟩
  change IsUtf8 (word.map asciiLower)
  rw [hmap]
  refine isUtf8_flatten fun c hc => ?_
  obtain ⟨d, hd, rfl⟩ := mem_map.mp hc
  exact (hword d hd).map_asciiLower

end Drakeydb.Search
