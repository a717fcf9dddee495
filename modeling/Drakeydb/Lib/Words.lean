import Mathlib.Data.List.Basic

/-!
# Words between separators

A list of symbols is split at a separator, and the empty parts are left out. A writer ends each word
with the separator; a reader that splits finds the words again if no word is empty or has the
separator in it.
-/

namespace Drakeydb.Lib

open List

variable {α : Type} {sep : α}

/-- Words, each followed by the separator. -/
def terminated (sep : α) (ws : List (List α)) : List α := ws.flatMap fun word => word ++ [sep]

theorem terminated_cons (sep : α) (word : List α) (ws : List (List α)) :
    terminated sep (word :: ws) = word ++ sep :: terminated sep ws := by
  rw [terminated, flatMap_cons, append_assoc, singleton_append, ← terminated]

theorem terminated_append (sep : α) (ws ws' : List (List α)) :
    terminated sep (ws ++ ws') = terminated sep ws ++ terminated sep ws' :=
  flatMap_append

variable {ws : List (List α)}

theorem dropLast_terminated_append (h : ws ≠ []) :
    (terminated sep ws).dropLast ++ [sep] = terminated sep ws := by
  obtain ⟨init, last, rfl⟩ : ∃ init last, ws = init ++ [last] :=
    ⟨ws.dropLast, ws.getLast h, (dropLast_append_getLast h).symm⟩
  have hlast : terminated sep (init ++ [last]) = (terminated sep init ++ last) ++ [sep] := by
    rw [terminated_append, append_assoc]
    exact congrArg _ (append_nil _)
  simp [hlast]

variable [DecidableEq α]

/-- The parts between separators that are not empty. -/
def words (sep : α) (s : List α) : List (List α) := (s.splitOn sep).filter fun word => word ≠ []

/-- A word that can be found again. -/
def IsWord (sep : α) (word : List α) : Prop := word ≠ [] ∧ sep ∉ word

theorem words_append_cons (sep : α) (s t : List α) :
    words sep (s ++ sep :: t) = words sep s ++ words sep t := by
  rw [words, splitOn_append_cons_self, filter_append, ← words, ← words]

variable {word : List α}

theorem IsWord.words_eq (h : IsWord sep word) : words sep word = [word] := by
  rw [words, splitOn_eq_singleton h.2, filter_cons_of_pos (by simpa using h.1), filter_nil]

theorem IsWord.words_append (h : IsWord sep word) (t : List α) :
    words sep (word ++ sep :: t) = word :: words sep t := by
  simp [words_append_cons, h.words_eq]

/-- **Words.** What is written is read back. -/
theorem words_terminated_append (h : ∀ word ∈ ws, IsWord sep word) (t : List α) :
    words sep (terminated sep ws ++ t) = ws ++ words sep t := by
  induction ws with
  | nil => rfl
  | cons word ws ih =>
    rw [terminated_cons, append_assoc, cons_append, (h word mem_cons_self).words_append,
      ih fun w hw => h w (mem_cons_of_mem _ hw), cons_append]

/-- **Lines.** What is written is read back, with an empty line at the end. -/
theorem splitOn_terminated (h : ∀ word ∈ ws, sep ∉ word) :
    (terminated sep ws).splitOn sep = ws ++ [[]] := by
  induction ws with
  | nil => rfl
  | cons word ws ih =>
    rw [terminated_cons, splitOn_append_cons_self, splitOn_eq_singleton (h word mem_cons_self),
      ih fun w hw => h w (mem_cons_of_mem _ hw), singleton_append, cons_append]

/-- A word is found after the words that were joined before it, which may be none. -/
theorem words_dropLast_terminated_append (h : ∀ word ∈ ws, IsWord sep word)
    (t : List α) : words sep ((terminated sep ws).dropLast ++ sep :: t) = ws ++ words sep t := by
  by_cases hws : ws = []
  · subst hws
    exact words_append_cons sep [] t
  · rw [append_cons, dropLast_terminated_append hws, words_terminated_append h]

theorem eq_or_mem_of_mem (sep : α) (s : List α) {c : α} (h : c ∈ s) :
    c = sep ∨ ∃ word ∈ words sep s, c ∈ word := by
  have hparts : ∀ s : List α, c ∈ s → c = sep ∨ ∃ word ∈ s.splitOn sep, c ∈ word := by
    intro s hs
    induction s with
    | nil => exact absurd hs not_mem_nil
    | cons x xs ih =>
      have hcons : (x :: xs).splitOn sep =
          if (x == sep) = true then [] :: xs.splitOn sep
            else (xs.splitOn sep).modifyHead (cons x) :=
        splitOnP_cons_eq_if_modifyHead x xs
      obtain ⟨first, rest, hsplit⟩ := exists_cons_of_ne_nil (splitOnP_ne_nil (· == sep) xs)
      have hsplit : xs.splitOn sep = first :: rest := hsplit
      rw [hcons]
      split
      case isTrue hsep =>
        rcases mem_cons.mp hs with rfl | hmem
        · exact Or.inl (eq_of_beq hsep)
        · rcases ih hmem with heq | ⟨word, hword, hc⟩
          · exact Or.inl heq
          · exact Or.inr ⟨word, mem_cons_of_mem _ hword, hc⟩
      case isFalse hsep =>
        rw [hsplit, modifyHead_cons]
        rw [hsplit] at ih
        rcases mem_cons.mp hs with rfl | hmem
        · exact Or.inr ⟨_, mem_cons_self, mem_cons_self⟩
        · rcases ih hmem with heq | ⟨word, hword, hc⟩
          · exact Or.inl heq
          · rcases mem_cons.mp hword with rfl | hword
            · exact Or.inr ⟨_, mem_cons_self, mem_cons_of_mem _ hc⟩
            · exact Or.inr ⟨word, mem_cons_of_mem _ hword, hc⟩
  rcases hparts s h with heq | ⟨word, hword, hc⟩
  · exact Or.inl heq
  · exact Or.inr ⟨word, mem_filter.mpr ⟨hword, by simpa using ne_nil_of_mem hc⟩, hc⟩

end Drakeydb.Lib
