import Drakeydb.Lib.Glob
import Drakeydb.Search.Text

/-!
# Wildcard patterns

`GlobMatch` of `core/search/indices.cc`, which goes through a word byte by byte and goes back to the
last `*` when it is stuck, and `GlobLiteralPrefix` and `GlobLongestLiteralSegment`, which tell what
a word that matches must begin with and must contain. A pattern in UTF-8 stands for a pattern of
characters, and the matcher works on characters although it compares bytes: it never goes on from
the middle of one.
-/

namespace Drakeydb.Search

open Lib Lib.Glob List Option

/-! ## §1 The code -/

/-- `*` -/
def starByte : UInt8 := 42

/-- `?` -/
def anyByte : UInt8 := 63

def globLiteralPrefix : Bytes → Bytes
  | [] => []
  | [c] => if c = starByte ∨ c = anyByte then [] else [c]
  | c :: d :: pat =>
    if c = starByte ∨ c = anyByte then []
    else if c = backslash then d :: globLiteralPrefix pat
    else c :: globLiteralPrefix (d :: pat)

/-- The lambda `flush`. -/
def flushSegment (best cur : Bytes) : Bytes := if best.length < cur.length then cur else best

/-- The loop of `GlobLongestLiteralSegment`. -/
def segmentLoop (best cur : Bytes) : Bytes → Bytes
  | [] => flushSegment best cur
  | [c] =>
    if c = starByte ∨ c = anyByte then flushSegment (flushSegment best cur) []
    else flushSegment best (cur ++ [c])
  | c :: d :: pat =>
    if c = starByte ∨ c = anyByte then segmentLoop (flushSegment best cur) [] (d :: pat)
    else if c = backslash then segmentLoop best (cur ++ [d]) pat
    else segmentLoop best (cur ++ [c]) (d :: pat)

def globLongestLiteralSegment (pat : Bytes) : Bytes := segmentLoop [] [] pat

/-- The variables of `GlobMatch`: what is left of the text and of the pattern, and the same for the
last `*`. -/
structure GlobState where
  back : Option (Bytes × Bytes)
  text : Bytes
  pat : Bytes

/-- The literal byte at the beginning of a pattern, and the pattern after it. -/
def globLiteral (pc : UInt8) : Bytes → UInt8 × Bytes
  | [] => (pc, [])
  | d :: pat => if pc = backslash then (d, pat) else (pc, d :: pat)

/-- The upper half of the loop's body: text and pattern agree. -/
def globAdvance (s : GlobState) : Option GlobState :=
  match s.pat with
  | [] => none
  | pc :: pat =>
    if pc = starByte then some ⟨some (pat, s.text), s.text, pat⟩
    else if pc = anyByte then some ⟨s.back, s.text.drop (utf8CodepointLen s.text), pat⟩
    else if s.text.head? = some (globLiteral pc pat).1 then some ⟨s.back, s.text.tail,
      (globLiteral pc pat).2⟩
    else none

/-- The lower half: the last `*` takes one character more. -/
def globRetry (s : GlobState) : Option GlobState :=
  s.back.map fun b =>
    ⟨some (b.1, b.2.drop (utf8CodepointLen b.2)), b.2.drop (utf8CodepointLen b.2), b.1⟩

/-- The loop. -/
def globLoop : ℕ → GlobState → Bool
  | 0, _ => false
  | fuel + 1, s =>
    if s.text = [] then (s.pat.dropWhile fun c => decide (c = starByte)).isEmpty
    else
      match (globAdvance s).or (globRetry s) with
      | none => false
      | some s => globLoop fuel s

/-- `GlobMatch`. There are at most as many rounds as are computed first. -/
def globMatch (text pat : Bytes) : Bool :=
  globLoop ((text.length + 1) * (text.length + pat.length + 1) + (text.length + pat.length) + 1)
    ⟨none, text, pat⟩

/-! ## §2 Patterns of characters -/

/-- The pattern that some characters stand for: `*`, `?`, and characters that may follow a
backslash. -/
def globTokens : List Bytes → List (Glob Bytes)
  | [] => []
  | [c] => if c = [starByte] then [.star] else if c = [anyByte] then [.any] else [.lit c]
  | c :: d :: cs =>
    if c = [starByte] then .star :: globTokens (d :: cs)
    else if c = [anyByte] then .any :: globTokens (d :: cs)
    else if c = [backslash] then .lit d :: globTokens cs
    else .lit c :: globTokens (d :: cs)

/-- Neither `*` nor `?`. -/
def Plain (c : UInt8) : Prop := c ≠ starByte ∧ c ≠ anyByte

variable {cs : List Bytes}

/-- How the first characters are read: one by one, but for a backslash and what follows. -/
theorem globTokens_cases (hcs : ∀ c ∈ cs, IsChar c) : (cs = [] ∧ globTokens cs = []) ∨
    (∃ cs', cs = [starByte] :: cs' ∧ globTokens cs = .star :: globTokens cs') ∨
    (∃ cs', cs = [anyByte] :: cs' ∧ globTokens cs = .any :: globTokens cs') ∨
    ∃ pc pat y rest cs', cs.flatten = pc :: pat ∧ Plain pc ∧
      globLiteral pc pat = (y, rest ++ cs'.flatten) ∧
      IsChar (y :: rest) ∧ (∀ c ∈ cs', IsChar c) ∧ cs'.length < cs.length ∧
      globTokens cs = .lit (y :: rest) :: globTokens cs' := by
  -- the first byte of a character that is not `*` or `?` alone
  have hplain : ∀ {pc : UInt8} {rest : Bytes}, IsChar (pc :: rest) → pc :: rest ≠ [starByte] →
      pc :: rest ≠ [anyByte] → Plain pc := by
    intro pc rest hchar hstar hany
    constructor
    · rintro rfl
      exact hstar (by rw [hchar.head (by decide)])
    · rintro rfl
      exact hany (by rw [hchar.head (by decide)])
  match cs, hcs with
  | [], _ => exact .inl ⟨rfl, rfl⟩
  | [c], hcs =>
    rw [globTokens]
    split_ifs with hstar hany
    · exact .inr (.inl ⟨[], by rw [hstar], rfl⟩)
    · exact .inr (.inr (.inl ⟨[], by rw [hany], rfl⟩))
    · have hchar := hcs c mem_cons_self
      obtain ⟨pc, rest, rfl⟩ := exists_cons_of_ne_nil hchar.ne_nil
      refine .inr
        (.inr (.inr ⟨pc, rest, pc, rest, [], by simp, hplain hchar hstar hany, ?_, hchar, by simp,
        Nat.one_pos, rfl⟩))
      cases rest with
      | nil => rfl
      | cons d rest =>
        have hne : pc ≠ backslash := by
          rintro rfl
          exact cons_ne_nil d rest (hchar.head (by decide))
        rw [globLiteral, if_neg hne]
        simp
  | c :: d :: cs, hcs =>
    rw [forall_mem_cons, forall_mem_cons] at hcs
    obtain ⟨hchar, hchar', hcs⟩ := hcs
    rw [globTokens]
    split_ifs with hstar hany hslash
    · exact .inr (.inl ⟨d :: cs, by rw [hstar], rfl⟩)
    · exact .inr (.inr (.inl ⟨d :: cs, by rw [hany], rfl⟩))
    · obtain ⟨y, rest, rfl⟩ := exists_cons_of_ne_nil hchar'.ne_nil
      refine .inr (.inr (.inr ⟨backslash, (y :: rest) ++ cs.flatten, y, rest, cs, by simp [hslash],
        ⟨by decide, by decide⟩, ?_, hchar', hcs, Nat.lt_add_of_pos_right (Nat.succ_pos 1), rfl⟩))
      rw [cons_append, globLiteral, if_pos rfl]
    · obtain ⟨pc, rest, rfl⟩ := exists_cons_of_ne_nil hchar.ne_nil
      refine .inr (.inr (.inr ⟨pc, rest ++ (d :: cs).flatten, pc, rest, d :: cs, by simp,
        hplain hchar hstar hany, ?_, hchar, forall_mem_cons.mpr ⟨hchar', hcs⟩, by simp, rfl⟩))
      have hne : pc ≠ backslash := by
        rintro rfl
        exact hslash (by rw [hchar.head (by decide)])
      cases hrest : rest ++ (d :: cs).flatten with
      | nil => rfl
      | cons e rest' => rw [globLiteral, if_neg hne]

theorem plain_of_not_ascii {c : UInt8} (h : ¬ c < 128) : Plain c := by
  constructor
  · rintro rfl
    exact h (by decide)
  · rintro rfl
    exact h (by decide)

theorem globLiteral_of_not_ascii {c : UInt8} (h : ¬ c < 128) (pat : Bytes) :
    globLiteral c pat = (c, pat) := by
  cases pat with
  | nil => rfl
  | cons d pat =>
    refine if_neg ?_
    rintro rfl
    exact h (by decide)

/-! ## §3 Literals of a pattern -/

variable {pc : UInt8}

theorem globLiteralPrefix_plain (h : Plain pc) (pat : Bytes) :
    globLiteralPrefix (pc :: pat) = (globLiteral pc pat).1 ::
      globLiteralPrefix (globLiteral pc pat).2 := by
  have hno : ¬ (pc = starByte ∨ pc = anyByte) := not_or.mpr h
  cases pat with
  | nil => rw [globLiteralPrefix, if_neg hno, globLiteral, globLiteralPrefix]
  | cons d pat =>
    rw [globLiteralPrefix, if_neg hno, globLiteral]
    split <;> rfl

theorem segmentLoop_plain (h : Plain pc) (pat best cur : Bytes) : segmentLoop best cur (pc :: pat) =
      segmentLoop best (cur ++ [(globLiteral pc pat).1]) (globLiteral pc pat).2 := by
  have hno : ¬ (pc = starByte ∨ pc = anyByte) := not_or.mpr h
  cases pat with
  | nil => rw [segmentLoop, if_neg hno, globLiteral, segmentLoop]
  | cons d pat =>
    rw [segmentLoop, if_neg hno, globLiteral]
    split <;> rfl

theorem segmentLoop_wild (h : pc = starByte ∨ pc = anyByte) (pat best cur : Bytes) :
    segmentLoop best cur (pc :: pat) = segmentLoop (flushSegment best cur) [] pat := by
  cases pat with
  | nil => rw [segmentLoop, segmentLoop, if_pos h]
  | cons d pat => rw [segmentLoop, if_pos h]

theorem globLiteralPrefix_wild (h : pc = starByte ∨ pc = anyByte) (pat : Bytes) :
    globLiteralPrefix (pc :: pat) = [] := by
  cases pat with
  | nil | cons d pat => rw [globLiteralPrefix, if_pos h]

theorem globLiteralPrefix_append {rest : Bytes} (h : ∀ b ∈ rest, ¬ b < 128) (pat : Bytes) :
    globLiteralPrefix (rest ++ pat) = rest ++ globLiteralPrefix pat := by
  induction rest with
  | nil => rfl
  | cons b rest ih =>
    rw [forall_mem_cons] at h
    rw [cons_append, globLiteralPrefix_plain (plain_of_not_ascii h.1),
      globLiteral_of_not_ascii h.1, ih h.2]
    rfl

theorem segmentLoop_append {rest : Bytes} (h : ∀ b ∈ rest, ¬ b < 128) (pat best cur : Bytes) :
    segmentLoop best cur (rest ++ pat) = segmentLoop best (cur ++ rest) pat := by
  induction rest generalizing cur with
  | nil => rw [append_nil, nil_append]
  | cons b rest ih =>
    rw [forall_mem_cons] at h
    rw [cons_append, segmentLoop_plain (plain_of_not_ascii h.1),
      globLiteral_of_not_ascii h.1, ih h.2, append_assoc, singleton_append]

variable {text : List Bytes}

/-- **Words that match begin with the literals** before the first `*` or `?`. -/
theorem globLiteralPrefix_isPrefix (hcs : ∀ c ∈ cs, IsChar c)
    (h : Matches (globTokens cs) text) : globLiteralPrefix cs.flatten <+: text.flatten := by
  induction hn : cs.length using Nat.strong_induction_on generalizing cs text with
  | h n ih =>
    subst hn
    obtain ⟨rfl, -⟩ | ⟨cs', rfl, -⟩ | ⟨cs', rfl, -⟩ |
        ⟨pc, pat, y, rest, cs', hpat, hplain, hlit, hchar, hcs', hlt, htok⟩ :=
      globTokens_cases hcs
    · exact nil_prefix
    · rw [flatten_cons, singleton_append, globLiteralPrefix_wild (.inl rfl)]
      exact nil_prefix
    · rw [flatten_cons, singleton_append, globLiteralPrefix_wild (.inr rfl)]
      exact nil_prefix
    · rw [htok] at h
      cases text with
      | nil => exact h.elim
      | cons d text =>
        obtain ⟨rfl, hrest⟩ := h
        rw [hpat, globLiteralPrefix_plain hplain, hlit, globLiteralPrefix_append hchar.tail,
          flatten_cons, cons_append, prefix_cons_inj, prefix_append_right_inj]
        exact ih cs'.length hlt hcs' hrest rfl

theorem flushSegment_isInfix {best cur word : Bytes} (hbest : best <:+: word)
    (hcur : cur <:+: word) :
    flushSegment best cur <:+: word := by
  rw [flushSegment]
  split
  case isTrue => exact hcur
  case isFalse => exact hbest

/-- The loop, when some text has been read that contains the best segment and ends with the current
one. -/
theorem segmentLoop_isInfix (hcs : ∀ c ∈ cs, IsChar c)
    (h : Matches (globTokens cs) text) {best cur before : Bytes} (hbest : best <:+: before)
    (hcur : cur <:+ before) :
    segmentLoop best cur cs.flatten <:+: before ++ text.flatten := by
  induction hn : cs.length using Nat.strong_induction_on generalizing cs text best cur before with
  | h n ih =>
    subst hn
    have hflush : ∀ more, flushSegment best cur <:+: before ++ more := fun more =>
      (flushSegment_isInfix hbest hcur.isInfix).trans (prefix_append before more).isInfix
    obtain ⟨rfl, -⟩ | ⟨cs', rfl, htok⟩ | ⟨cs', rfl, htok⟩ |
        ⟨pc, pat, y, rest, cs', hpat, hplain, hlit, hchar, hcs', hlt, htok⟩ := globTokens_cases hcs
    · exact hflush _
    · -- a star takes some characters, and a new segment begins after them
      rw [htok] at h
      obtain ⟨k, hk, hrest⟩ := h
      have hsplit : before ++ text.flatten = (before ++ (text.take k).flatten) ++
        (text.drop k).flatten := by
        rw [append_assoc, ← flatten_append, take_append_drop]
      rw [hsplit, flatten_cons, singleton_append, segmentLoop_wild (.inl rfl)]
      exact ih cs'.length (Nat.lt_succ_self _)
        (fun c hc => hcs c (mem_cons_of_mem _ hc)) hrest (hflush _)
        nil_suffix rfl
    · rw [htok] at h
      cases text with
      | nil => exact h.elim
      | cons d text =>
        rw [flatten_cons, flatten_cons, singleton_append, segmentLoop_wild (.inr rfl),
          ← append_assoc]
        exact ih cs'.length (Nat.lt_succ_self _)
          (fun c hc => hcs c (mem_cons_of_mem _ hc)) h (hflush _)
          nil_suffix rfl
    · rw [htok] at h
      cases text with
      | nil => exact h.elim
      | cons d text =>
        obtain ⟨rfl, hrest⟩ := h
        rw [hpat, segmentLoop_plain hplain, hlit, segmentLoop_append hchar.tail, flatten_cons,
          ← append_assoc, append_assoc cur, singleton_append]
        refine ih cs'.length hlt hcs' hrest (hbest.trans (prefix_append _ _).isInfix) ?_ rfl
        obtain ⟨front, rfl⟩ := hcur
        exact ⟨front, (append_assoc _ _ _).symm⟩

/-- **Words that match contain the longest literal segment.** -/
theorem globLongestLiteralSegment_isInfix (hcs : ∀ c ∈ cs, IsChar c)
    (h : Matches (globTokens cs) text) : globLongestLiteralSegment cs.flatten <:+: text.flatten :=
  segmentLoop_isInfix hcs h (infix_refl []) nil_suffix

/-! ## §4 The number of rounds -/

/-- There is enough room for what is left, now and after going back. -/
structure GlobState.Room (s : GlobState) (n : ℕ) : Prop where
  here : s.text.length + s.pat.length ≤ n
  behind : ∀ b ∈ s.back, s.text.length ≤ b.2.length
  back : ∀ b ∈ s.back, b.2.length + b.1.length ≤ n

/-- Going back costs as much as `n + 1` bytes, and can be done once for each byte that `*` may still
take. -/
def GlobState.work (s : GlobState) (n : ℕ) : ℕ :=
  (s.back.elim (s.text.length + 1) fun b => b.2.length) * (n + 1) + (s.text.length + s.pat.length)

theorem globLiteral_length (pc : UInt8) (pat : Bytes) :
    (globLiteral pc pat).2.length ≤ pat.length := by
  cases pat with
  | nil => exact Nat.le_refl _
  | cons d pat =>
    rw [globLiteral]
    split
    case isTrue => exact Nat.le_succ _
    case isFalse => exact Nat.le_refl _

variable {s : GlobState}

theorem work_lt_of_read {n : ℕ} {text pat : Bytes} (hroom : s.Room n)
    (htext : text.length < s.text.length) (hpat : pat.length ≤ s.pat.length) :
    GlobState.Room ⟨s.back, text, pat⟩ n ∧ GlobState.work ⟨s.back, text, pat⟩ n < s.work n := by
  refine ⟨⟨?_, fun b hb => ?_, hroom.back⟩, ?_⟩
  · exact (Nat.add_le_add htext.le hpat).trans hroom.here
  · exact htext.le.trans (hroom.behind b hb)
  · refine Nat.add_lt_add_of_le_of_lt (Nat.mul_le_mul_right _ ?_)
      (Nat.add_lt_add_of_lt_of_le htext hpat)
    cases s.back with
    | none => exact Nat.succ_le_succ htext.le
    | some b => exact Nat.le_refl _

variable {s' : GlobState}

theorem globAdvance_work {n : ℕ} (htext : s.text ≠ []) (hroom : s.Room n)
    (h : globAdvance s = some s') :
    s'.Room n ∧ s'.work n < s.work n := by
  have hpos := length_pos_iff.mpr htext
  rw [globAdvance] at h
  cases hpat : s.pat with
  | nil =>
    rw [hpat] at h
    cases h
  | cons pc pat =>
    have hlen : s.pat.length = pat.length + 1 := by simp [hpat]
    have hhere := hroom.here
    rw [hpat] at h
    dsimp only at h
    split_ifs at h with hstar hany hlit
    · -- the text from here on is not longer than what the last `*` had
      cases h
      refine ⟨⟨?_, fun b hb => ?_, fun b hb => ?_⟩, ?_⟩
      · exact (Nat.add_le_add_left (by rw [hlen]; exact Nat.le_succ _) _).trans hhere
      · cases hb
        exact Nat.le_refl _
      · cases hb
        dsimp only
        omega
      · refine Nat.add_lt_add_of_le_of_lt (Nat.mul_le_mul_right _ ?_) ?_
        · cases hback : s.back with
          | none => exact Nat.le_succ _
          | some b => exact hroom.behind b hback
        · change s.text.length + pat.length < s.text.length + s.pat.length
          omega
    · cases h
      refine work_lt_of_read hroom ?_ (by rw [hlen]; exact Nat.le_succ _)
      have := utf8CodepointLen_pos s.text
      rw [length_drop]
      omega
    · cases h
      refine work_lt_of_read hroom ?_ ?_
      · rw [length_tail]
        omega
      · exact (globLiteral_length pc pat).trans (by rw [hlen]; exact Nat.le_succ _)

theorem globRetry_work {n : ℕ} (htext : s.text ≠ []) (hroom : s.Room n)
    (h : globRetry s = some s') :
    s'.Room n ∧ s'.work n < s.work n := by
  have hpos := length_pos_iff.mpr htext
  obtain ⟨b, hback, rfl⟩ := Option.map_eq_some_iff.mp h
  have hbehind := hroom.behind b hback
  have hsum := hroom.back b hback
  have hcp := utf8CodepointLen_pos b.2
  have hlen : (b.2.drop (utf8CodepointLen b.2)).length + 1 ≤ b.2.length := by
    rw [length_drop]
    omega
  refine ⟨⟨?_, fun b' hb' => ?_, fun b' hb' => ?_⟩, ?_⟩
  · dsimp only
    omega
  · cases hb'
    exact Nat.le_refl _
  · cases hb'
    dsimp only
    omega
  · rw [GlobState.work, GlobState.work, hback]
    dsimp only [Option.elim]
    have hmul := Nat.mul_le_mul_right (n + 1) hlen
    rw [Nat.succ_mul] at hmul
    omega

/-! ## §5 The matcher -/

/-- What the last `*` keeps, as characters. -/
abbrev BackChars := Option (List Bytes × Bytes)

/-- The same as a pattern and a text of characters. -/
def BackChars.view (back : BackChars) : Back Bytes := back.map fun b => (globTokens b.1, chars b.2)

/-- The state of the matcher, when some characters are left of the pattern before the last `*` is
gone back to. -/
structure GlobState.Shows (s : GlobState) (back : BackChars) : Prop where
  back_eq : s.back = back.map fun b => (b.1.flatten, b.2)
  proper : ∀ b ∈ back, ∀ c ∈ b.1, IsChar c

/-- What the loop computes at a boundary of characters. -/
def DecidesAt (fuel n : ℕ) : Prop :=
  ∀ (s : GlobState) (back : BackChars) (cs : List Bytes), s.Shows back → s.Room n →
    s.work n < fuel →
    s.pat = cs.flatten → (∀ c ∈ cs, IsChar c) → Aligned back.view (globTokens cs) (chars s.text) →
    (globLoop fuel s = true ↔ Accepts back.view (globTokens cs) (chars s.text))

/-- What it computes within a literal character: `before` has been read of it, and `y` comes
next. -/
def DecidesWithin (fuel n : ℕ) : Prop :=
  ∀ (s : GlobState) (back : BackChars) (cs : List Bytes) (before : Bytes) (y : UInt8) (rest : Bytes)
    (pc : UInt8)
    (pat : Bytes), s.Shows back → s.Room n → s.work n < fuel →
    s.pat = pc :: pat → Plain pc → globLiteral pc pat = (y, rest ++ cs.flatten) →
    IsChar (before ++ y :: rest) → (∀ c ∈ cs, IsChar c) → (∀ b ∈ rest, ¬ b < 128) →
    Aligned back.view (.lit (before ++ y :: rest) :: globTokens cs) (chars (before ++ s.text)) →
    (globLoop fuel s = true ↔
      Accepts back.view (.lit (before ++ y :: rest) :: globTokens cs) (chars (before ++ s.text)))

theorem globLoop_succ {fuel : ℕ} (htext : s.text ≠ []) :
    globLoop (fuel + 1) s = ((globAdvance s).or (globRetry s)).elim false (globLoop fuel) := by
  rw [globLoop, if_neg htext]
  cases (globAdvance s).or (globRetry s) <;> rfl

theorem globLoop_of_nil {fuel : ℕ} (htext : s.text = []) :
    globLoop (fuel + 1) s = (s.pat.dropWhile fun c => decide (c = starByte)).isEmpty := by
  rw [globLoop, if_pos htext]

variable {fuel n : ℕ}

/-- After a mismatch the matcher goes back to the last `*`, or gives up. -/
theorem DecidesAt.retry (ih : DecidesAt fuel n) {back : BackChars} (hs : s.Shows back)
    (hroom : s.Room n) (hwork : s.work n < fuel + 1) (htext : s.text ≠ [])
    (hstuck : globAdvance s = none) {pat : List (Glob Bytes)} (hno : ¬ Matches pat text) :
    globLoop (fuel + 1) s = true ↔ Accepts back.view pat text := by
  rw [globLoop_succ htext, hstuck, none_or]
  cases back with
  | none =>
    have hretry : globRetry s = none := by rw [globRetry, hs.back_eq]; rfl
    rw [hretry]
    exact iff_of_false Bool.false_ne_true fun h => hno (accepts_none_iff.mp h)
  | some b =>
    have hback : s.back = some (b.1.flatten, b.2) := hs.back_eq
    have hretry : globRetry s = some ⟨some (b.1.flatten, b.2.drop (utf8CodepointLen b.2)),
        b.2.drop (utf8CodepointLen b.2), b.1.flatten⟩ := by rw [globRetry, hback]; rfl
    obtain ⟨hroom', hwork'⟩ := globRetry_work htext hroom hretry
    have hne : b.2 ≠ [] := by
      rintro hnil
      have hlen := hroom.behind _ hback
      rw [hnil] at hlen
      exact htext (length_eq_zero_iff.mp (Nat.le_zero.mp hlen))
    have hview : BackChars.view (some b) = some (globTokens b.1, b.2.take (utf8CodepointLen b.2) ::
        chars (b.2.drop (utf8CodepointLen b.2))) := by
      rw [← chars_eq_cons hne]
      rfl
    rw [hretry, hview, accepts_back hno]
    exact ih _ (some (b.1, b.2.drop (utf8CodepointLen b.2))) b.1
      ⟨rfl, fun b' hb' => by cases hb'; exact hs.proper b rfl⟩
      hroom' (by omega) rfl (hs.proper b rfl) aligned_self

theorem decidesWithin_succ (ihAt : DecidesAt fuel n) (ihWithin : DecidesWithin fuel n) :
    DecidesWithin (fuel + 1) n := by
  intro s back cs before y rest pc pat hs hroom hwork hpat hplain hlit hchar hcs hrest haligned
  have hbytes : (chars (before ++ s.text)).flatten = before ++ s.text := flatten_chars _
  by_cases htext : s.text = []
  · -- the text ends within the character, which is too long to occur in it
    have hlong : ¬ Accepts back.view (.lit (before ++ y :: rest) :: globTokens cs)
      (chars (before ++ s.text)) := by
      intro haccept
      have hmem := mem_of_accepts_lit haligned haccept
      have hlen := (sublist_flatten_of_mem hmem).length_le
      rw [hbytes, htext, append_nil, length_append, length_cons] at hlen
      omega
    rw [globLoop_of_nil htext, hpat, dropWhile_cons_of_neg (by simpa using hplain.1)]
    exact iff_of_false Bool.false_ne_true hlong
  · obtain ⟨x, text, htext'⟩ := exists_cons_of_ne_nil htext
    have hadvance : globAdvance s = if x = y then some ⟨s.back, text, rest ++ cs.flatten⟩
      else none := by
      rw [globAdvance, hpat]
      dsimp only
      rw [if_neg hplain.1, if_neg hplain.2, hlit, htext']
      simp only [head?_cons, some.injEq, tail_cons]
    by_cases hxy : x = y
    · subst hxy
      rw [if_pos rfl] at hadvance
      obtain ⟨hroom', hwork'⟩ := globAdvance_work htext hroom hadvance
      rw [globLoop_succ htext, hadvance, some_or, elim_some]
      cases rest with
      | nil =>
        -- the character is complete
        have hsplit : chars (before ++ s.text) = (before ++ [x]) :: chars text := by
          rw [htext', ← chars_append hchar, append_assoc, singleton_append]
        rw [hsplit] at haligned ⊢
        rw [accepts_lit]
        exact ihAt _ back cs ⟨hs.back_eq, hs.proper⟩ hroom' (by omega) rfl hcs
          (haligned.tail (by simp))
      | cons z rest =>
        rw [forall_mem_cons] at hrest
        have hmove : before ++ s.text = (before ++ [x]) ++ text := by simp [htext']
        rw [append_cons, hmove] at haligned ⊢
        rw [append_cons] at hchar
        exact ihWithin _ back cs (before ++ [x]) z rest z (rest ++ cs.flatten)
          ⟨hs.back_eq, hs.proper⟩ hroom'
          (by omega) rfl (plain_of_not_ascii hrest.1)
            (globLiteral_of_not_ascii hrest.1 _) hchar hcs hrest.2 haligned
    · rw [if_neg hxy] at hadvance
      refine ihAt.retry hs hroom hwork htext hadvance ?_
      -- the first character of the text would be the literal, and go on with `y`
      intro hmatch
      cases hchars : chars (before ++ s.text) with
      | nil =>
        rw [hchars] at hmatch
        exact hmatch
      | cons d text' =>
        rw [hchars] at hmatch hbytes
        rw [flatten_cons, ← hmatch.1, htext', append_assoc] at hbytes
        exact hxy (cons.inj (append_cancel_left hbytes)).1.symm

theorem forall_eq_star_iff (hcs : ∀ c ∈ cs, IsChar c) :
    (∀ c ∈ cs.flatten, c = starByte) ↔ ∀ t ∈ globTokens cs, t = .star := by
  induction hn : cs.length using Nat.strong_induction_on generalizing cs with
  | h n ih =>
    subst hn
    obtain ⟨rfl, -⟩ | ⟨cs', rfl, htok⟩ | ⟨cs', rfl, htok⟩ |
        ⟨pc, pat, y, rest, cs', hpat, hplain, -, -, -, -, htok⟩ := globTokens_cases hcs
    · simp [globTokens]
    · rw [htok, flatten_cons, singleton_append, forall_mem_cons, forall_mem_cons,
        ih cs'.length (Nat.lt_succ_self _) (fun c hc => hcs c (mem_cons_of_mem _ hc)) rfl]
      simp
    · rw [htok]
      refine iff_of_false (fun h => ?_) fun h => ?_
      · exact absurd (h anyByte (by simp)) (by decide)
      · cases h _ mem_cons_self
    · rw [htok, hpat]
      refine iff_of_false (fun h => ?_) fun h => ?_
      · exact hplain.1 (h pc mem_cons_self)
      · cases h _ mem_cons_self

theorem decidesAt_succ (ihAt : DecidesAt fuel n) (hwithin : DecidesWithin (fuel + 1) n) :
    DecidesAt (fuel + 1) n := by
  intro s back cs hs hroom hwork hpat hcs haligned
  by_cases htext : s.text = []
  · rw [htext, chars_nil] at haligned ⊢
    rw [globLoop_of_nil htext, accepts_nil haligned, matches_nil_iff,
      ← forall_eq_star_iff hcs, hpat, List.isEmpty_iff, List.dropWhile_eq_nil_iff]
    simp
  have hchars := chars_eq_cons htext
  obtain ⟨rfl, htok⟩ | ⟨cs', rfl, htok⟩ | ⟨cs', rfl, htok⟩ |
      ⟨pc, pat, y, rest, cs', hflat, hplain, hlit, hchar, hcs', -, htok⟩ := globTokens_cases hcs
  · -- the pattern is at its end and the text is not
    have hadvance : globAdvance s = none := by rw [globAdvance, hpat]; rfl
    refine ihAt.retry hs hroom hwork htext hadvance ?_
    rw [htok, hchars]
    exact cons_ne_nil _ _
  · have hadvance : globAdvance s = some ⟨some (cs'.flatten, s.text), s.text, cs'.flatten⟩ := by
      rw [globAdvance, hpat]
      exact if_pos rfl
    obtain ⟨hroom', hwork'⟩ := globAdvance_work htext hroom hadvance
    have hcs' : ∀ c ∈ cs', IsChar c := fun c hc => hcs c (mem_cons_of_mem _ hc)
    rw [htok] at haligned ⊢
    rw [accepts_star haligned, globLoop_succ htext, hadvance, some_or, elim_some]
    exact ihAt _ (some (cs', s.text)) cs' ⟨rfl, fun b hb => by cases hb; exact hcs'⟩ hroom'
      (by omega) rfl hcs'
      aligned_self
  · have hadvance :
      globAdvance s = some ⟨s.back, s.text.drop (utf8CodepointLen s.text), cs'.flatten⟩ := by
      rw [globAdvance, hpat]
      rfl
    obtain ⟨hroom', hwork'⟩ := globAdvance_work htext hroom hadvance
    rw [htok, hchars] at haligned ⊢
    rw [accepts_any, globLoop_succ htext, hadvance, some_or, elim_some]
    exact ihAt _ back cs' ⟨hs.back_eq, hs.proper⟩ hroom' (by omega) rfl
      (fun c hc => hcs c (mem_cons_of_mem _ hc)) (haligned.tail (by simp))
  · rw [htok] at haligned ⊢
    exact hwithin s back cs' [] y rest pc pat hs hroom hwork
      (hpat.trans hflat) hplain hlit hchar hcs' hchar.tail
      haligned

theorem decides (fuel n : ℕ) : DecidesAt fuel n ∧ DecidesWithin fuel n := by
  induction fuel with
  | zero =>
    exact ⟨fun _ _ _ _ _ hwork => absurd hwork (Nat.not_lt_zero _),
      fun _ _ _ _ _ _ _ _ _ _ hwork => absurd hwork (Nat.not_lt_zero _)⟩
  | succ fuel ih =>
    have hwithin := decidesWithin_succ ih.1 ih.2
    exact ⟨decidesAt_succ ih.1 hwithin, hwithin⟩

/-- **`GlobMatch` decides** whether the characters of a word match a pattern of characters. -/
theorem globMatch_iff {pat : Bytes} (hpat : IsUtf8 pat) (text : Bytes) :
    globMatch text pat = true ↔ Matches (globTokens (chars pat)) (chars text) := by
  have hshows : GlobState.Shows ⟨none, text, pat⟩ none := ⟨rfl, fun b hb => by cases hb⟩
  have hroom : GlobState.Room ⟨none, text, pat⟩ (text.length + pat.length) :=
    ⟨Nat.le_refl _, (fun b hb => by cases hb), fun b hb => by cases hb⟩
  have hloop := (decides _ _).1 _ none (chars pat) hshows hroom (Nat.lt_succ_self _)
    (flatten_chars pat).symm hpat
    aligned_none
  exact hloop.trans accepts_none_iff

/-- In `a*b?`, `*` takes `xb` and `?` takes a character of two bytes. -/
example : globMatch [97, 120, 98, 98, 195, 169] [97, 42, 98, 63] = true := by decide +kernel

end Drakeydb.Search
