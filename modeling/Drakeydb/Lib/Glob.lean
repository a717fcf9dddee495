import Mathlib.Data.List.Basic

/-!
# Glob patterns

Patterns over an arbitrary alphabet: single letters, `any` for one letter, and `star` for any
sequence of letters. Next to what it means to match, the rules of the matcher that never goes back
further than to the last star: it keeps the pattern after that star and the text up to which the
star has been extended, and forgets the stars before. That nothing is lost by this is
`accepts_star`.
-/

namespace Drakeydb.Lib

open List

inductive Glob (α : Type*) where
  | star
  | any
  | lit (c : α)
  deriving DecidableEq

namespace Glob

variable {α : Type*}

def Matches : List (Glob α) → List α → Prop
  | [], text => text = []
  | .star :: pat, text => ∃ k, k ≤ text.length ∧ Matches pat (text.drop k)
  | .any :: _, [] => False
  | .any :: pat, _ :: text => Matches pat text
  | .lit _ :: _, [] => False
  | .lit c :: pat, d :: text => c = d ∧ Matches pat text

instance decidableMatches [DecidableEq α] :
    ∀ (pat : List (Glob α)) (text : List α), Decidable (Matches pat text)
  | [], text => decidable_of_iff (text.isEmpty = true) List.isEmpty_iff
  | .star :: pat, text =>
    have : DecidablePred fun k => Matches pat (text.drop k) :=
      fun k => decidableMatches pat (text.drop k)
    decidable_of_iff (∃ k, k < text.length + 1 ∧ Matches pat (text.drop k))
      (exists_congr fun _ => and_congr_left fun _ => Nat.lt_succ_iff)
  | .any :: _, [] => isFalse not_false
  | .any :: pat, _ :: text => decidableMatches pat text
  | .lit _ :: _, [] => isFalse not_false
  | .lit c :: pat, d :: text =>
    have := decidableMatches pat text
    inferInstanceAs (Decidable (c = d ∧ Matches pat text))

variable {pat pre : List (Glob α)} {text : List α}

/-! ## §1 Facts about matching -/

theorem matches_nil_iff : Matches pat [] ↔ ∀ t ∈ pat, t = star := by
  induction pat with
  | nil => simp [Matches]
  | cons t pat ih =>
    cases t with
    | star => simp [Matches, ih]
    | any => simp [Matches]
    | lit c => simp [Matches]

theorem matches_star_of_drop {k : ℕ} (hk : k ≤ text.length)
    (h : Matches (.star :: pat) (text.drop k)) :
    Matches (.star :: pat) text := by
  obtain ⟨j, hj, hmatch⟩ := h
  rw [length_drop] at hj
  rw [drop_drop] at hmatch
  exact ⟨k + j, by omega, hmatch⟩

theorem matches_append (hpre : .star ∉ pre) (h : Matches (pre ++ pat) text) :
    pre.length ≤ text.length ∧ Matches pat (text.drop pre.length) := by
  induction pre generalizing text with
  | nil => exact ⟨Nat.zero_le _, h⟩
  | cons t pre ih =>
    rw [mem_cons, not_or] at hpre
    obtain ⟨hhead, htail⟩ := hpre
    cases text with
    | nil =>
      -- only stars match the empty text
      exact absurd (matches_nil_iff.mp h t mem_cons_self).symm hhead
    | cons d text =>
      have hrest : Matches (pre ++ pat) text := by
        cases t with
        | star => exact absurd rfl hhead
        | any => exact h
        | lit c => exact h.2
      obtain ⟨hle, hmatch⟩ := ih htail hrest
      exact ⟨Nat.succ_le_succ hle, hmatch⟩

/-! ## §2 Matching with one way back -/

/-- The pattern after the last star, and the text up to which that star has been extended. -/
abbrev Back (α : Type*) := Option (List (Glob α) × List α)

/-- The text matches, or will do when the last star takes more. -/
def Accepts (back : Back α) (pat : List (Glob α)) (text : List α) : Prop :=
  Matches pat text ∨ ∃ b ∈ back, ∃ k, 0 < k ∧ k ≤ b.2.length ∧ Matches b.1 (b.2.drop k)

/-- What has been read of the pattern since the last star has no star and is as long as what has
been read of the text. -/
def Aligned (back : Back α) (pat : List (Glob α)) (text : List α) : Prop :=
  ∀ b ∈ back, ∃ pre, .star ∉ pre ∧ b.1 = pre ++ pat ∧ pre.length ≤ b.2.length ∧
    text = b.2.drop pre.length

variable {back : Back α}

theorem aligned_none : Aligned none pat text := fun _ h => by cases h

theorem aligned_self : Aligned (some (pat, text)) pat text := fun b hb => by
  cases hb
  exact ⟨[], not_mem_nil, rfl, Nat.zero_le _, rfl⟩

/-- If the last star can take more, what is left of the pattern matches further on. -/
theorem Aligned.matches_drop (h : Aligned back pat text) {b : List (Glob α) × List α}
    (hb : b ∈ back) {k : ℕ}
    (hk : k ≤ b.2.length) (hmatch : Matches b.1 (b.2.drop k)) : k ≤ text.length ∧ Matches pat
    (text.drop k) := by
  obtain ⟨pre, hpre, hpat, hle, rfl⟩ := h b hb
  rw [hpat] at hmatch
  obtain ⟨hroom, hrest⟩ := matches_append hpre hmatch
  rw [length_drop] at hroom ⊢
  rw [drop_drop, Nat.add_comm] at hrest
  rw [drop_drop]
  exact ⟨by omega, hrest⟩

variable {c : α}

theorem Aligned.tail {t : Glob α} (ht : t ≠ .star) (h : Aligned back (t :: pat) (c :: text)) :
    Aligned back pat text := by
  intro b hb
  obtain ⟨pre, hpre, hpat, hle, htext⟩ := h b hb
  have hlt : pre.length < b.2.length := by
    have hlen := congrArg length htext
    rw [length_cons, length_drop] at hlen
    omega
  refine ⟨pre ++ [t], ?_, ?_, ?_, ?_⟩
  · simp [hpre, ht.symm]
  · simp [hpat]
  · rw [length_append]
    exact hlt
  · have htail := congrArg (drop 1) htext
    simpa using htail

/-- **A star is reached**: the stars before it are no longer needed. -/
theorem accepts_star (h : Aligned back (.star :: pat) text) :
    Accepts back (.star :: pat) text ↔ Accepts (some (pat, text)) pat text := by
  have hnew : Accepts (some (pat, text)) pat text ↔ Matches (.star :: pat) text := by
    constructor
    · rintro (hmatch | ⟨b, hb, k, -, hk, hmatch⟩)
      · exact ⟨0, Nat.zero_le _, hmatch⟩
      · cases hb
        exact ⟨k, hk, hmatch⟩
    · rintro ⟨k, hk, hmatch⟩
      rcases Nat.eq_zero_or_pos k with rfl | hpos
      · exact .inl hmatch
      · exact .inr ⟨_, rfl, k, hpos, hk, hmatch⟩
  rw [hnew]
  constructor
  · rintro (hmatch | ⟨b, hb, k, -, hk, hmatch⟩)
    · exact hmatch
    · obtain ⟨hroom, hrest⟩ := h.matches_drop hb hk hmatch
      exact matches_star_of_drop hroom hrest
  · exact .inl

theorem accepts_any : Accepts back (.any :: pat) (c :: text) ↔ Accepts back pat text := Iff.rfl

theorem accepts_lit : Accepts back (.lit c :: pat) (c :: text) ↔ Accepts back pat text := by
  rw [Accepts, Accepts, Matches]
  simp

/-- **A mismatch**: the last star takes one letter more. -/
theorem accepts_back {sp : List (Glob α)} {st : List α} (hno : ¬ Matches pat text) :
    Accepts (some (sp, c :: st)) pat text ↔ Accepts (some (sp, st)) sp st := by
  constructor
  · rintro (hmatch | ⟨b, hb, k, hpos, hk, hmatch⟩)
    · exact absurd hmatch hno
    · cases hb
      obtain ⟨k, rfl⟩ := Nat.exists_eq_succ_of_ne_zero (Nat.ne_of_gt hpos)
      rcases Nat.eq_zero_or_pos k with rfl | hpos'
      · exact .inl hmatch
      · exact .inr ⟨_, rfl, k, hpos', Nat.le_of_succ_le_succ hk, hmatch⟩
  · rintro (hmatch | ⟨b, hb, k, hpos, hk, hmatch⟩)
    · exact .inr ⟨_, rfl, 1, Nat.one_pos, Nat.succ_le_succ (Nat.zero_le _), hmatch⟩
    · cases hb
      exact .inr ⟨_, rfl, k + 1, Nat.succ_pos k, Nat.succ_le_succ hk, hmatch⟩

theorem accepts_none_iff : Accepts none pat text ↔ Matches pat text :=
  or_iff_left fun ⟨_, hb, _⟩ => by cases hb

/-- **The text is at its end**: the last star has nothing more to take. -/
theorem accepts_nil (h : Aligned back pat []) : Accepts back pat [] ↔ Matches pat [] := by
  refine or_iff_left ?_
  rintro ⟨b, hb, k, hpos, hk, hmatch⟩
  exact Nat.ne_of_gt hpos (Nat.le_zero.mp (h.matches_drop hb hk hmatch).1)

theorem mem_of_accepts_lit (h : Aligned back (.lit c :: pat) text)
    (haccept : Accepts back (.lit c :: pat) text) : c ∈ text := by
  have hmem : ∀ {text : List α}, Matches (.lit c :: pat) text → c ∈ text := by
    intro text hmatch
    cases text with
    | nil => exact hmatch.elim
    | cons d text => exact hmatch.1 ▸ mem_cons_self
  rcases haccept with hmatch | ⟨b, hb, k, -, hk, hmatch⟩
  · exact hmem hmatch
  · exact mem_of_mem_drop (hmem (h.matches_drop hb hk hmatch).2)

end Glob

end Drakeydb.Lib
