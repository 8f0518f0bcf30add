import AsioAggregator.Library.Runs

/-!
# Simulations that skip events

A second machine follows a first one through a relation between their states and may leave out
events of the first one. Every run of the first machine is then followed by a run of the second one
over a sublist of the events, which keeps all events that must not be left out.
-/

namespace Runs

variable {σ τ ε : Type*} {step : σ → ε → Option σ} {step' : τ → ε → Option τ}
variable {s₀ s : σ} {t₀ : τ} {events : List ε}

/-- The second machine follows each step through `R`: it skips the event, or performs it. -/
structure Follows (step : σ → ε → Option σ) (step' : τ → ε → Option τ) (R : σ → τ → Prop)
    (essential allowed : ε → Bool) : Prop where
  step : ∀ {s t e s'}, R s t → step s e = some s' →
    essential e = false ∧ R s' t ∨
      allowed e = true ∧ ∃ t', step' t e = some t' ∧ R s' t'

theorem Follows.exists_run {R : σ → τ → Prop} {essential allowed : ε → Bool}
    (h : Follows step step' R essential allowed) (h0 : R s₀ t₀)
    (hrun : run step s₀ events = some s) :
    ∃ kept t, kept.Sublist events ∧ (∀ e ∈ kept, allowed e = true) ∧
      kept.filter essential = events.filter essential ∧ run step' t₀ kept = some t ∧ R s t := by
  refine history_invariant (I := fun events s => ∃ kept t, kept.Sublist events ∧
    (∀ e ∈ kept, allowed e = true) ∧ kept.filter essential = events.filter essential ∧
      run step' t₀ kept = some t ∧ R s t) ⟨[], t₀, .slnil, by simp, rfl, rfl, h0⟩ ?_ hrun
  rintro es u e u' - ⟨kept, t, hsub, hallowed, hfilter, hkept, hR⟩ hs
  rcases h.step hR hs with ⟨hskip, hR'⟩ | ⟨hallow, t', ht', hR'⟩
  · refine ⟨kept, t, hsub.trans (List.sublist_append_left es [e]), hallowed, ?_, hkept, hR'⟩
    simp [hfilter, hskip]
  · refine ⟨kept ++ [e], t', hsub.append (.refl [e]), ?_, ?_, ?_, hR'⟩
    · intro e' he'
      rcases List.mem_append.mp he' with he' | he'
      · exact hallowed e' he'
      · exact List.mem_singleton.mp he' ▸ hallow
    · rw [List.filter_append, List.filter_append, hfilter]
    · exact run_concat_eq_some.mpr ⟨t, hkept, ht'⟩

end Runs
