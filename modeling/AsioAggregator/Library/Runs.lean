import Mathlib.Data.List.Induction
import Mathlib.Tactic.Common

/-!
# Runs of a machine driven by events

A machine is a partial step function `step : σ → ε → Option σ`: the events are the choices of the
environment, and a step that is not enabled has no result. A statement about every list of events
is a statement about every interleaving. `EveryState` and `EveryStep` speak about all moments of
one run, and `withHistory` carries a history variable along without changing the machine.
-/

namespace Runs

variable {σ ε η : Type*} {step : σ → ε → Option σ} {s₀ s s' : σ} {events : List ε}

/-- Performs the events in order. -/
def run (step : σ → ε → Option σ) (s : σ) (events : List ε) : Option σ :=
  events.foldlM step s

@[simp] theorem run_nil : run step s [] = some s := rfl

theorem run_cons (e : ε) (es : List ε) :
    run step s (e :: es) = (step s e).bind fun s' => run step s' es := by
  simp only [run, List.foldlM_cons]
  rfl

theorem run_cons_eq_some {e : ε} {es : List ε} :
    run step s (e :: es) = some s' ↔ ∃ t, step s e = some t ∧ run step t es = some s' := by
  rw [run_cons, Option.bind_eq_some_iff]

theorem run_append (es es' : List ε) :
    run step s (es ++ es') = (run step s es).bind fun s' => run step s' es' := by
  simp only [run, List.foldlM_append]
  rfl

theorem run_append_eq_some {es es' : List ε} :
    run step s (es ++ es') = some s' ↔
      ∃ t, run step s es = some t ∧ run step t es' = some s' := by
  rw [run_append, Option.bind_eq_some_iff]

theorem run_concat_eq_some {es : List ε} {e : ε} :
    run step s (es ++ [e]) = some s' ↔ ∃ t, run step s es = some t ∧ step t e = some s' := by
  rw [run_append_eq_some]
  simp only [run_cons, run_nil, Option.bind_fun_some]

/-- A run whose result is computed to satisfy a decidable condition. -/
theorem exists_of_run_any {P : σ → Prop} [DecidablePred P]
    (h : (run step s events).any (fun t => P t) = true) :
    ∃ t, run step s events = some t ∧ P t := by
  obtain ⟨t, ht, hP⟩ := (Option.any_eq_true _ _).mp h
  exact ⟨t, ht, of_decide_eq_true hP⟩

/-- What holds at the start and is kept by every enabled step taken from a reached state holds of
every run, together with the events performed so far. -/
theorem history_invariant {I : List ε → σ → Prop} (h0 : I [] s₀)
    (hstep : ∀ es t e t', run step s₀ es = some t → I es t → step t e = some t' → I (es ++ [e]) t')
    (hrun : run step s₀ events = some s) : I events s := by
  induction events using List.reverseRecOn generalizing s with
  | nil =>
    simp only [run_nil, Option.some.injEq] at hrun
    exact hrun ▸ h0
  | append_singleton es e ih =>
    obtain ⟨t, ht, he⟩ := run_concat_eq_some.mp hrun
    exact hstep es t e s ht (ih ht) he

theorem invariant {I : σ → Prop} (h0 : I s₀)
    (hstep : ∀ t e t', I t → step t e = some t' → I t')
    (hrun : run step s₀ events = some s) : I s :=
  history_invariant (I := fun _ => I) h0 (fun _ t e t' _ hI he => hstep t e t' hI he) hrun

/-- `P` holds in every state that the run passes through, its first one included. -/
def EveryState (step : σ → ε → Option σ) (s₀ : σ) (events : List ε) (P : σ → Prop) : Prop :=
  ∀ pre post s, events = pre ++ post → run step s₀ pre = some s → P s

/-- `P` holds of every step of the run: the state before it, its event and the state after it. -/
def EveryStep (step : σ → ε → Option σ) (s₀ : σ) (events : List ε)
    (P : σ → ε → σ → Prop) : Prop :=
  ∀ pre e post s s', events = pre ++ e :: post → run step s₀ pre = some s →
    step s e = some s' → P s e s'

theorem EveryState.last {P : σ → Prop} (h : EveryState step s₀ events P)
    (hrun : run step s₀ events = some s) : P s :=
  h events [] s (List.append_nil _).symm hrun

/-- A reached state that is computed to be bad refutes the property. -/
theorem not_everyState {P : σ → Prop} {B : σ → Bool} {pre post : List ε}
    (hB : ∀ t, P t → B t = false) (h : (run step s₀ pre).any B = true) :
    ¬ EveryState step s₀ (pre ++ post) P := by
  intro hP
  obtain ⟨t, ht, hbad⟩ := (Option.any_eq_true _ _).mp h
  exact Bool.false_ne_true ((hB t (hP pre post t rfl ht)).symm.trans hbad)

theorem not_everyStep {P : σ → ε → σ → Prop} {B : σ → σ → Bool} {pre post : List ε} {e : ε}
    (hB : ∀ t t', P t e t' → B t t' = false)
    (h : (run step s₀ pre).any (fun t => (step t e).any (B t)) = true) :
    ¬ EveryStep step s₀ (pre ++ e :: post) P := by
  intro hP
  obtain ⟨t, ht, hnext⟩ := (Option.any_eq_true _ _).mp h
  obtain ⟨t', ht', hbad⟩ := (Option.any_eq_true _ _).mp hnext
  exact Bool.false_ne_true ((hB t t' (hP pre e post t t' rfl ht ht')).symm.trans hbad)

theorem EveryStep.mono {P Q : σ → ε → σ → Prop} (h : EveryStep step s₀ events P)
    (hPQ : ∀ pre t e t', run step s₀ pre = some t → step t e = some t' → P t e t' → Q t e t') :
    EveryStep step s₀ events Q :=
  fun p e q t t' he ht hs => hPQ p t e t' ht hs (h p e q t t' he ht hs)

theorem everyState_of_everyStep {I : σ → Prop} {C : σ → ε → σ → Prop} (h0 : I s₀)
    (hstep : ∀ pre t e t', run step s₀ pre = some t → I t → step t e = some t' → C t e t' → I t')
    (hC : EveryStep step s₀ events C) : EveryState step s₀ events I := by
  intro pre post t he ht
  subst he
  induction pre using List.reverseRecOn generalizing t post with
  | nil =>
    simp only [run_nil, Option.some.injEq] at ht
    exact ht ▸ h0
  | append_singleton es e ih =>
    obtain ⟨u, hu, hs⟩ := run_concat_eq_some.mp ht
    have hC' : EveryStep step s₀ (es ++ e :: post) C := by
      rwa [List.append_assoc] at hC
    exact hstep es u e t hu (ih _ _ hu hC') hs (hC' es e post u t rfl hu hs)

/-- Where the condition is also what the invariant needs from each step, the invariant holds along
the run exactly when every step meets the condition. -/
theorem everyState_iff_everyStep {I : σ → Prop} {C : σ → ε → σ → Prop} (h0 : I s₀)
    (hstep : ∀ pre e post t t', events = pre ++ e :: post → run step s₀ pre = some t → I t →
      step t e = some t' → (I t' ↔ C t e t')) :
    EveryState step s₀ events I ↔ EveryStep step s₀ events C := by
  constructor
  · intro hI pre e post t t' he ht hs
    have hbefore : I t := hI pre (e :: post) t he ht
    have hafter : I t' :=
      hI (pre ++ [e]) post t' (by simp [he]) (run_concat_eq_some.mpr ⟨t, ht, hs⟩)
    exact (hstep pre e post t t' he ht hbefore hs).mp hafter
  · intro hC pre post t he ht
    induction pre using List.reverseRecOn generalizing t post with
    | nil =>
      simp only [run_nil, Option.some.injEq] at ht
      exact ht ▸ h0
    | append_singleton es e ih =>
      obtain ⟨u, hu, hs⟩ := run_concat_eq_some.mp ht
      have he' : events = es ++ e :: post := by rw [he, List.append_assoc]; rfl
      exact (hstep es e post u t he' hu (ih _ u he' hu) hs).mpr (hC es e post u t he' hu hs)

/-- A condition on the events alone holds at every step of a run exactly when all events meet it. -/
theorem everyStep_iff_forall_mem {Q : ε → Prop} (hrun : run step s₀ events = some s) :
    EveryStep step s₀ events (fun _ e _ => Q e) ↔ ∀ e ∈ events, Q e := by
  constructor
  · intro h e he
    obtain ⟨pre, post, rfl⟩ := List.append_of_mem he
    obtain ⟨t, ht, hrest⟩ := run_append_eq_some.mp hrun
    obtain ⟨t', hs, -⟩ := run_cons_eq_some.mp hrest
    exact h pre e post t t' rfl ht hs
  · rintro h pre e post t t' rfl - -
    exact h e (by simp)

/-- The machine with a history variable, which `observe` updates at every step. -/
def withHistory (step : σ → ε → Option σ) (observe : η → σ → ε → σ → η) :
    σ × η → ε → Option (σ × η) :=
  fun sh e => (step sh.1 e).map fun s' => (s', observe sh.2 sh.1 e s')

theorem withHistory_eq_some {observe : η → σ → ε → σ → η} {h h' : η} {e : ε} :
    withHistory step observe (s, h) e = some (s', h') ↔
      step s e = some s' ∧ observe h s e s' = h' := by
  simp only [withHistory, Option.map_eq_some_iff, Prod.mk.injEq]
  constructor
  · rintro ⟨t, ht, rfl, rfl⟩
    exact ⟨ht, rfl⟩
  · rintro ⟨ht, rfl⟩
    exact ⟨s', ht, rfl, rfl⟩

theorem run_of_withHistory {observe : η → σ → ε → σ → η} {h h' : η}
    (hrun : run (withHistory step observe) (s₀, h) events = some (s, h')) :
    run step s₀ events = some s := by
  refine history_invariant (I := fun es (p : σ × η) => run step s₀ es = some p.1) rfl ?_ hrun
  rintro es ⟨t, k⟩ e ⟨t', k'⟩ - ht hs
  exact run_concat_eq_some.mpr ⟨t, ht, (withHistory_eq_some.mp hs).1⟩

theorem exists_history (observe : η → σ → ε → σ → η) (h : η) (hrun : run step s₀ events = some s) :
    ∃ h', run (withHistory step observe) (s₀, h) events = some (s, h') := by
  refine history_invariant (I := fun es s => ∃ h', run (withHistory step observe) (s₀, h) es =
    some (s, h')) ⟨h, rfl⟩ ?_ hrun
  rintro es t e t' - ⟨k, hk⟩ hs
  exact ⟨_, run_concat_eq_some.mpr ⟨(t, k), hk, withHistory_eq_some.mpr ⟨hs, rfl⟩⟩⟩

end Runs
