import Mathlib.Data.List.Perm.Basic

/-!
# Queues that run side by side

Every shard of a state has a queue of actions, and each action reads and writes its own shard only.
In whatever order the queues take turns, the outcome is that of running the actions one after the
other as they came in.
-/

namespace Drakeydb.Lib.Interleaving

open List Function

variable {S σ ω α ρ : Type*}

/-- An action that depends on what shard `s` sees of the state, and that no other shard notices. -/
structure Local (view : S → σ → ω) (s : S) (f : σ → σ × ρ) : Prop where
  reads : ∀ d d', view s d = view s d' → view s (f d).1 = view s (f d').1 ∧ (f d).2 = (f d').2
  writes : ∀ d t, t ≠ s → view t (f d).1 = view t d

/-- One after the other. -/
def exec (run : α → σ → σ × ρ) : List α → σ → σ × List ρ
  | [], d => (d, [])
  | a :: as, d => ((exec run as (run a d).1).1, (run a d).2 :: (exec run as (run a d).1).2)

theorem exec_append (run : α → σ → σ × ρ) (as bs : List α) (d : σ) :
    exec run (as ++ bs) d =
      ((exec run bs (exec run as d).1).1,
        (exec run as d).2 ++ (exec run bs (exec run as d).1).2) := by
  induction as generalizing d with
  | nil => rfl
  | cons a as ih => simp [exec, ih]

/-- The actions of one shard. -/
def queue [DecidableEq S] (l : List (S × α)) (s : S) : List α :=
  (l.filter fun x => x.1 = s).map Prod.snd

/-- The replies of the queues, in the order of arrival. -/
def collect [DecidableEq S] : List S → (S → List ρ) → List ρ
  | [], _ => []
  | s :: order, replies => match replies s with
    | [] => []
    | r :: rest => r :: collect order (Function.update replies s rest)

/-- The queues take turns in any order, until all of them are empty: the states before and after,
the replies of each queue, and the actions in the order in which they ran. -/
inductive Hop [DecidableEq S] (run : α → σ → σ × ρ) : (S → List α) → σ → σ → (S → List ρ) →
    List α → Prop where
  | done {q : S → List α} (d : σ) (h : ∀ s, q s = []) : Hop run q d d (fun _ => []) []
  | turn {q : S → List α} {d d' : σ} {replies : S → List ρ} {ran : List α} (s : S) (a : α)
    (rest : List α)
      (hs : q s = a :: rest) (h : Hop run (Function.update q s rest) (run a d).1 d' replies ran) :
      Hop run q d d' (Function.update replies s ((run a d).2 :: replies s)) (a :: ran)

variable {view : S → σ → ω} {run : α → σ → σ × ρ} {d d' : σ}

theorem exec_congr {s : S} {as : List α} (hlocal : ∀ a ∈ as, Local view s (run a))
    (h : view s d = view s d') :
    view s (exec run as d).1 = view s (exec run as d').1 ∧
      (exec run as d).2 = (exec run as d').2 := by
  induction as generalizing d d' with
  | nil => exact ⟨h, rfl⟩
  | cons a as ih =>
    obtain ⟨ha, has⟩ := forall_mem_cons.mp hlocal
    obtain ⟨hview, hreply⟩ := ha.reads d d' h
    simp only [exec, hreply, cons.injEq, true_and]
    exact ih has hview

variable [DecidableEq S]

theorem queue_cons (x : S × α) (l : List (S × α)) :
    queue (x :: l) = Function.update (queue l) x.1 (x.2 :: queue l x.1) := by
  funext s
  by_cases h : x.1 = s
  · subst h
    simp [queue]
  · simp [queue, h, update_of_ne (Ne.symm h)]

variable {replies : S → List ρ} {ran : List α} {q : S → List α}

theorem Hop.view_eq (h : Hop run q d d' replies ran)
    (hlocal : ∀ s, ∀ a ∈ q s, Local view s (run a)) (t : S) :
    view t d' = view t (exec run (q t) d).1 ∧ replies t = (exec run (q t) d).2 := by
  induction h with
  | done d h => simp [h, exec]
  | @turn q d d' replies ran s a rest hs _ ih =>
    have ha : Local view s (run a) := hlocal s a (hs ▸ mem_cons_self)
    have hrest : ∀ u, ∀ b ∈ update q s rest u, Local view u (run b) := by
      intro u b hb
      by_cases hu : u = s
      · subst hu
        rw [update_self] at hb
        exact hlocal u b (hs ▸ mem_cons_of_mem _ hb)
      · rw [update_of_ne hu] at hb
        exact hlocal u b hb
    have hih := ih hrest
    by_cases ht : t = s
    · subst ht
      simp [hs, exec, hih]
    · have hsame := exec_congr (hlocal t) (ha.writes d t ht)
      simp [update_of_ne ht, hih, hsame]

variable {l : List (S × α)}

/-- Running the actions in the order of arrival looks to each shard like running its queue. -/
theorem exec_queue (hlocal : ∀ x ∈ l, Local view x.1 (run x.2)) (d : σ) :
    (∀ s, view s (exec run (l.map Prod.snd) d).1 = view s (exec run (queue l s) d).1) ∧
      collect (l.map Prod.fst) (fun s => (exec run (queue l s) d).2) =
        (exec run (l.map Prod.snd) d).2 := by
  induction l generalizing d with
  | nil => exact ⟨fun _ => rfl, rfl⟩
  | cons x l ih =>
    obtain ⟨hx, hl⟩ := forall_mem_cons.mp hlocal
    obtain ⟨hview, hreplies⟩ := ih hl (run x.2 d).1
    -- the other queues do not notice the first action
    have hother : ∀ s, s ≠ x.1 →
      view s (exec run (queue l s) (run x.2 d).1).1 = view s (exec run (queue l s) d).1 ∧
        (exec run (queue l s) (run x.2 d).1).2 = (exec run (queue l s) d).2 := by
      refine fun s hs => exec_congr (fun a ha => ?_) (hx.writes d s hs)
      obtain ⟨y, hy, rfl⟩ := mem_map.mp ha
      obtain ⟨hmem, rfl⟩ : y ∈ l ∧ y.1 = s := by simpa using hy
      exact hl y hmem
    constructor
    · intro s
      rw [queue_cons]
      by_cases hs : s = x.1
      · subst hs
        simpa [exec] using hview x.1
      · simpa [exec, update_of_ne hs, hother s hs] using hview s
    · simp only [map_cons, collect, queue_cons, update_self, exec, cons.injEq, true_and]
      rw [← hreplies]
      congr 1
      funext s
      by_cases hs : s = x.1
      · subst hs
        simp
      · rw [update_of_ne hs, update_of_ne hs, (hother s hs).2]

theorem Hop.perm (h : Hop run q d d' replies ran) (hq : q = queue l) :
    ran.Perm (l.map Prod.snd) := by
  induction h generalizing l with
  | done d h =>
    subst hq
    cases l with
    | nil => exact .nil
    | cons x l => simpa [queue] using h x.1
  | @turn q d d' replies ran s a rest hs _ ih =>
    subst hq
    obtain ⟨y, ys, hfilter, rfl, rfl⟩ := map_eq_cons_iff.mp hs
    obtain ⟨l1, l2, rfl, hbefore, hy, rfl⟩ := filter_eq_cons_iff.mp hfilter
    obtain rfl : y.1 = s := by simpa using hy
    have hrest : update (queue (l1 ++ y :: l2)) y.1 ((l2.filter fun x => x.1 = y.1).map Prod.snd) =
        queue (l1 ++ l2) := by
      have hnone : (l1.filter fun x => x.1 = y.1) = [] := filter_eq_nil_iff.mpr hbefore
      funext t
      by_cases ht : t = y.1
      · subst ht
        simp [queue, hnone]
      · simp [queue, update_of_ne ht, Ne.symm ht]
    simpa using ((ih hrest).cons y.2).trans (by simpa using perm_middle.symm)

theorem exists_hop (run : α → σ → σ × ρ) (l : List (S × α)) (d : σ) :
    ∃ d' replies ran, Hop run (queue l) d d' replies ran := by
  induction l generalizing d with
  | nil => exact ⟨d, _, _, .done d fun _ => rfl⟩
  | cons x l ih =>
    obtain ⟨d', replies, ran, h⟩ := ih (run x.2 d).1
    refine ⟨d', _, _, .turn x.1 x.2 (queue l x.1) (by simp [queue_cons])
      (?_ : Hop run _ _ _ replies ran)⟩
    rwa [queue_cons, update_idem, update_eq_self]

/-- **Every interleaving of the queues is the sequential execution,** where the shards together see
the whole state. -/
theorem Hop.eq_exec (hview : ∀ d d', (∀ s, view s d = view s d') → d = d')
    (hlocal : ∀ x ∈ l, Local view x.1 (run x.2)) (h : Hop run (queue l) d d' replies ran) :
    (d', collect (l.map Prod.fst) replies) = exec run (l.map Prod.snd) d ∧ ran.Perm
    (l.map Prod.snd) := by
  have hqueue : ∀ s, ∀ a ∈ queue l s, Local view s (run a) := by
    intro s a ha
    obtain ⟨y, hy, rfl⟩ := mem_map.mp ha
    obtain ⟨hmem, rfl⟩ : y ∈ l ∧ y.1 = s := by simpa using hy
    exact hlocal y hmem
  have hshard := h.view_eq hqueue
  obtain ⟨hstate, hreplies⟩ := exec_queue hlocal d
  refine ⟨Prod.ext (hview _ _ fun s => (hshard s).1.trans (hstate s).symm) ?_, h.perm rfl⟩
  rw [show replies = _ from funext fun s => (hshard s).2]
  exact hreplies

end Drakeydb.Lib.Interleaving
