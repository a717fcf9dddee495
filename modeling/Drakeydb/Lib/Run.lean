import Mathlib.Data.List.Basic

/-!
# Runs of a Partial Step Function

A machine is a step function `step : σ → ε → Option σ`, where `none` is an abort. A run feeds it a
list of events. `RunAll P` says that every event of the run satisfies `P` in the state it meets.
-/

namespace Drakeydb.Lib

open List Option

variable {σ ε α : Type*} (step : σ → ε → Option σ)

/-- Feed the events one after another. -/
def run (s : σ) (es : List ε) : Option σ := es.foldlM step s

/-- Every event satisfies `P` in the state it meets. -/
def RunAll (P : σ → ε → Prop) (s : σ) : List ε → Prop
  | [] => True
  | e :: es => P s e ∧ ∀ s' ∈ step s e, RunAll P s' es

instance decidableRunAll (P : σ → ε → Prop) [∀ s e, Decidable (P s e)] :
    (s : σ) → (es : List ε) → Decidable (RunAll step P s es)
  | _, [] => isTrue trivial
  | s, e :: es =>
    have : DecidablePred fun s' => RunAll step P s' es := fun s' => decidableRunAll P s' es
    inferInstanceAs (Decidable (P s e ∧ ∀ s' ∈ step s e, RunAll step P s' es))

variable {step} {s s' : σ}

theorem run_cons_of_eq_some {e : ε} (es : List ε) (h : step s e = some s') :
    run step s (e :: es) = run step s' es := by
  simp only [run, foldlM_cons, h, bind_eq_bind, bind_some]

variable {P : σ → ε → Prop} {es : List ε}

theorem runAll_of_forall (h : ∀ s e, P s e) (s : σ) (es : List ε) : RunAll step P s es := by
  induction es generalizing s with
  | nil => trivial
  | cons e es ih => exact ⟨h s e, fun s' _ => ih s'⟩

/-- **Simulation along a run**: if every event of the run keeps the relation to an abstract state,
    the run does not abort and ends related to the abstract run. -/
theorem run_simulates {R : σ → α → Prop} {f : α → ε → α}
    (hstep : ∀ s a e, R s a → P s e → ∃ s', step s e = some s' ∧ R s' (f a e)) {a : α} (hR : R s a)
    (hrun : RunAll step P s es) :
    ∃ s', run step s es = some s' ∧ R s' (es.foldl f a) := by
  induction es generalizing s a with
  | nil => exact ⟨s, rfl, hR⟩
  | cons e es ih =>
    obtain ⟨hP, hrest⟩ := hrun
    obtain ⟨s1, hs1, hR1⟩ := hstep s a e hR hP
    obtain ⟨s', hs', hR'⟩ := ih hR1 (hrest s1 hs1)
    exact ⟨s', (run_cons_of_eq_some es hs1).trans hs', hR'⟩

variable {Inv : σ → Prop}

/-- **Invariant along a run.** -/
theorem run_inv
    (hstep : ∀ s e, Inv s → P s e → ∃ s', step s e = some s' ∧ Inv s') (hinv : Inv s)
    (hrun : RunAll step P s es) :
    ∃ s', run step s es = some s' ∧ Inv s' :=
  run_simulates (R := fun s (_ : Unit) => Inv s) (f := fun a _ => a) (a := ())
    (fun s _ e hs hP => hstep s e hs hP) hinv hrun

/-- An invariant of the steps that do not abort, along a run that did not. -/
theorem inv_of_run (hstep : ∀ s e s', Inv s → step s e = some s' → Inv s') (hinv : Inv s)
    (hrun : run step s es = some s') : Inv s' := by
  induction es generalizing s with
  | nil => exact some.inj hrun ▸ hinv
  | cons e es ih =>
    obtain ⟨s1, hs1, hrest⟩ := bind_eq_some_iff.mp hrun
    exact ih (hstep s e s1 hinv hs1) hrest

theorem run_concat (s : σ) (es : List ε) (e : ε) :
    run step s (es ++ [e]) = (run step s es).bind fun s' => step s' e := by
  simp [run]

/-- **Invariant of the history**: the invariant relates the state to the events so far. -/
theorem inv_of_history {Inv : List ε → σ → Prop}
    (hstep : ∀ es s1 e s2, run step s es = some s1 → Inv es s1 → P s1 e → step s1 e = some s2 →
      Inv (es ++ [e]) s2)
    (hinv : Inv [] s) (hall : RunAll step P s es) (hrun : run step s es = some s') : Inv es s' := by
  -- generalise to a run that continues a history
  suffices h : ∀ (post pre : List ε) (s1 : σ), run step s pre = some s1 → Inv pre s1 →
      RunAll step P s1 post → run step s1 post = some s' → Inv (pre ++ post) s' from
    h es [] s rfl hinv hall hrun
  intro post
  induction post with
  | nil =>
    intro pre s1 _ hpre _ hrun
    rw [append_nil]
    exact some.inj hrun ▸ hpre
  | cons e post ih =>
    intro pre s1 hpre hinv1 hall hrun
    obtain ⟨s2, hs2, hrest⟩ := bind_eq_some_iff.mp hrun
    have hconcat : run step s (pre ++ [e]) = some s2 := by
      rw [run_concat, hpre]
      exact hs2
    have hnext := ih (pre ++ [e]) s2 hconcat (hstep pre s1 e s2 hpre hinv1 hall.1 hs2)
      (hall.2 s2 hs2) hrest
    rwa [append_assoc] at hnext

/-- **An invariant in all states of a run**: if a step keeps it exactly if it meets a condition, the
invariant holds after every part of the run if and only if all steps meet the condition. -/
theorem inv_everywhere_iff {f : σ → ε → σ} (hstep : ∀ s e, Inv s → (Inv (f s e) ↔ P s e))
    (hinv : Inv s) :
    (∀ before, before <+: es → Inv (before.foldl f s)) ↔ RunAll
    (fun s e => some (f s e)) P s es := by
  induction es generalizing s with
  | nil => exact iff_of_true (fun before h => prefix_nil.mp h ▸ hinv) trivial
  | cons e es ih =>
    constructor
    · intro h
      have hnext : Inv (f s e) := h [e] (prefix_append [e] es)
      refine ⟨(hstep s e hinv).mp hnext, ?_⟩
      rintro _ ⟨⟩
      exact (ih hnext).mp fun before hbefore => h (e :: before) ((prefix_cons_inj e).mpr hbefore)
    · rintro ⟨hP, hrest⟩ before hbefore
      rcases prefix_cons_iff.mp hbefore with rfl | ⟨t, rfl, ht⟩
      · exact hinv
      · exact (ih ((hstep s e hinv).mpr hP)).mpr (hrest _ rfl) t ht

end Drakeydb.Lib
