import Mathlib.Data.List.Basic

/-!
# Depth-First Stack Machines

A machine keeps a stack of items. In each round it asks the top item for its next move: to emit some
output and go on, to push a child above itself, or to be popped, with some last output. `Emits`
says, item by item, what an item and everything it pushes will emit; it is independent of the stack
below.
-/

namespace Drakeydb.Lib.DepthFirst

variable {ι ω : Type*}

/-- What an item does when it is its turn. -/
inductive Move (ι ω : Type*) where
  | pop (out : List ω)
  | emit (out : List ω) (item : ι)
  | push (child item : ι)

variable (move : ι → Move ι ω)

/-- The loop; `none` if the rounds do not suffice. -/
def loop : ℕ → List ι → List ω → Option (List ω)
  | _, [], out => some out
  | 0, _ :: _, _ => none
  | fuel + 1, item :: stack, out =>
    match move item with
    | .pop new => loop fuel stack (out ++ new)
    | .emit new item' => loop fuel (item' :: stack) (out ++ new)
    | .push child item' => loop fuel (child :: item' :: stack) out

/-- What an item emits, with all it pushes, until it is popped. -/
inductive Emits : ι → List ω → Prop where
  | pop {item : ι} {new : List ω} (h : move item = .pop new) : Emits item new
  | emit {item item' : ι} {new rest : List ω} (h : move item = .emit new item')
    (hrest : Emits item' rest) : Emits item (new ++ rest)
  | push {item item' child : ι} {below rest : List ω} (h : move item = .push child item')
    (hchild : Emits child below) (hrest : Emits item' rest) : Emits item (below ++ rest)

variable {move} {new : List ω} {item : ι}

/-- **The machine emits what its items emit**, one item of the stack after the other. -/
theorem loop_of_emits (h : Emits move item new) :
    ∃ rounds, ∀ fuel stack out,
      loop move (fuel + rounds) (item :: stack) out = loop move fuel stack (out ++ new) := by
  induction h with
  | pop h =>
    refine ⟨1, fun fuel stack out => ?_⟩
    rw [loop, h]
  | emit h hrest ih =>
    obtain ⟨rounds, ih⟩ := ih
    refine ⟨rounds + 1, fun fuel stack out => ?_⟩
    rw [← Nat.add_assoc, loop, h]
    simp only [ih, List.append_assoc]
  | push h hchild hrest ihchild ihrest =>
    obtain ⟨rounds, ihchild⟩ := ihchild
    obtain ⟨rounds', ihrest⟩ := ihrest
    refine ⟨rounds' + rounds + 1, fun fuel stack out => ?_⟩
    rw [← Nat.add_assoc, loop, h]
    simp only [← Nat.add_assoc, ihchild, ihrest, List.append_assoc]

/-- **From one item the machine stops**, with its output. -/
theorem loop_eq_of_emits (h : Emits move item new) :
    ∃ rounds, ∀ fuel, rounds ≤ fuel → loop move fuel [item] [] = some new := by
  obtain ⟨rounds, hloop⟩ := loop_of_emits h
  refine ⟨rounds, fun fuel hle => ?_⟩
  obtain ⟨rest, rfl⟩ := Nat.exists_eq_add_of_le' hle
  rw [hloop, List.nil_append]
  cases rest <;> rfl

end Drakeydb.Lib.DepthFirst
