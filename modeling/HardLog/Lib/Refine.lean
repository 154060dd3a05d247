import HardLog.Lib.Runs

/-! # One system refined by another

A relation `R` between the states of two systems is a simulation if each step of the first is matched
by a run of the second, of any length, that leads to related states again (`Simulation`). Whole runs
are then matched by whole runs (`Simulation.reach`), and what is invariant in the second holds, through
`R`, of every state that the first reaches (`Simulation.inv`). -/

namespace HardLog.Lib.Refine

open HardLog.Lib.Runs

variable {σ τ α β : Type*} {step : σ → α → Option σ} {step' : τ → β → Option τ}
  {C : σ → α → Prop} {C' : τ → β → Prop} {R : σ → τ → Prop}

/-- Each step of the first system that meets `C` is matched by a run of the second whose steps meet
`C'`. -/
def Simulation (step : σ → α → Option σ) (C : σ → α → Prop) (step' : τ → β → Option τ)
    (C' : τ → β → Prop) (R : σ → τ → Prop) : Prop :=
  ∀ s a s' t, R s t → C s a → step s a = some s' → ∃ t', Reach step' C' t t' ∧ R s' t'

/-- Nothing happens in the second system. -/
theorem stays {s' : σ} {t : τ} (h : R s' t) : ∃ t', Reach step' C' t t' ∧ R s' t' :=
  ⟨t, Reach.refl t, h⟩

/-- One step of the second system. -/
theorem steps {s' : σ} {t t' : τ} {b : β} (hC : C' t b) (hs : step' t b = some t') (h : R s' t') :
    ∃ t', Reach step' C' t t' ∧ R s' t' :=
  ⟨t', (Reach.refl t).snoc hC hs, h⟩

/-- **Runs are matched by runs.** -/
theorem Simulation.reach (h : Simulation step C step' C' R) {s s' : σ} {t : τ} (h0 : R s t)
    (hr : Reach step C s s') : ∃ t', Reach step' C' t t' ∧ R s' t' := by
  induction hr with
  | refl => exact stays h0
  | tail _ hstep ih =>
    obtain ⟨a, hC, hs⟩ := hstep
    obtain ⟨t1, hr1, h1⟩ := ih
    obtain ⟨t2, hr2, h2⟩ := h _ a _ t1 h1 hC hs
    exact ⟨t2, hr1.trans hr2, h2⟩

/-- **Invariants carry over**: what every step of the second system keeps holds of a partner of every
state the first reaches. -/
theorem Simulation.inv (h : Simulation step C step' C' R) {I : τ → Prop}
    (hI : ∀ t b t', I t → C' t b → step' t b = some t' → I t') {s s' : σ} {t : τ} (h0 : R s t)
    (ht : I t) (hr : Reach step C s s') : ∃ t', R s' t' ∧ I t' := by
  obtain ⟨t', hr', h'⟩ := h.reach h0 hr
  exact ⟨t', h', hr'.inv hI ht⟩

end HardLog.Lib.Refine
