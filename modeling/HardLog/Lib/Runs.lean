import Mathlib.Data.Nat.Notation
import Mathlib.Logic.Relation

/-! # Runs of a step function

A system is a function `step : σ → α → Option σ` from a state and an action to the next state, if
the action is enabled. `Reach step C s s'` is a run from `s` to `s'` whose steps all meet the
condition `C` on the state before the step and the action. A schedule is a list of actions; it is
followed up to its first action that is not enabled. `Always` says that a property holds in every
state a schedule visits, `EachStep` that a condition holds at every step it makes, and
`always_iff_eachStep` turns the one into the other; `countSteps` counts the steps of a kind. -/

namespace HardLog.Lib.Runs

variable {σ α : Type*} (step : σ → α → Option σ)

/-- A step by some action that meets `C`. -/
def StepIn (C : σ → α → Prop) (s s' : σ) : Prop := ∃ a, C s a ∧ step s a = some s'

/-- A run from `s` to `s'` whose steps all meet `C`. -/
def Reach (C : σ → α → Prop) (s s' : σ) : Prop := Relation.ReflTransGen (StepIn step C) s s'

/-- The state a schedule ends in, if all its actions are enabled. -/
def runFrom : σ → List α → Option σ
  | s, [] => some s
  | s, a :: as => (step s a).bind fun s' => runFrom s' as

/-- `P` holds in every state the schedule visits. -/
def Always (P : σ → Prop) : σ → List α → Prop
  | s, [] => P s
  | s, a :: as => P s ∧ ∀ s', step s a = some s' → Always P s' as

/-- `C` holds at every step the schedule makes. -/
def EachStep (C : σ → α → Prop) : σ → List α → Prop
  | _, [] => True
  | s, a :: as => ∀ s', step s a = some s' → C s a ∧ EachStep C s' as

/-- How many of the steps the schedule makes meet `b`. -/
def countSteps (b : σ → α → Bool) : σ → List α → ℕ
  | _, [] => 0
  | s, a :: as =>
    match step s a with
    | none => 0
    | some s' => (if b s a then 1 else 0) + countSteps b s' as

variable {step} {C : σ → α → Prop} {s s' s'' : σ}

/-! ### Reachable states -/

@[refl] theorem Reach.refl (s : σ) : Reach step C s s := Relation.ReflTransGen.refl

theorem Reach.trans (h : Reach step C s s') (h' : Reach step C s' s'') : Reach step C s s'' :=
  Relation.ReflTransGen.trans h h'

theorem Reach.snoc {a : α} (h : Reach step C s s') (hC : C s' a) (hs : step s' a = some s'') :
    Reach step C s s'' :=
  Relation.ReflTransGen.tail h ⟨a, hC, hs⟩

/-- **Invariants**: what every step keeps holds in every state a run reaches. -/
theorem Reach.inv {I : σ → Prop} (hI : ∀ s a s', I s → C s a → step s a = some s' → I s')
    (h : Reach step C s s') (h0 : I s) : I s' := by
  induction h with
  | refl => exact h0
  | tail _ hstep ih =>
    obtain ⟨a, hC, hs⟩ := hstep
    exact hI _ a _ ih hC hs

/-- What every step from a state with the invariant `I` relates, a run relates. -/
theorem Reach.rel {I : σ → Prop} {R : σ → σ → Prop} (hrefl : ∀ s, R s s)
    (htrans : ∀ a b c, R a b → R b c → R a c)
    (hI : ∀ s a s', I s → C s a → step s a = some s' → I s')
    (hR : ∀ s a s', I s → C s a → step s a = some s' → R s s')
    (h : Reach step C s s') (h0 : I s) : R s s' := by
  suffices I s' ∧ R s s' from this.2
  induction h with
  | refl => exact ⟨h0, hrefl _⟩
  | tail _ hstep ih =>
    obtain ⟨a, hC, hs⟩ := hstep
    exact ⟨hI _ a _ ih.1 hC hs, htrans _ _ _ ih.2 (hR _ a _ ih.1 hC hs)⟩

theorem Reach.mono {C' : σ → α → Prop} (hC : ∀ s a, C s a → C' s a) (h : Reach step C s s') :
    Reach step C' s s' := by
  induction h with
  | refl => exact Reach.refl _
  | tail _ hstep ih =>
    obtain ⟨a, ha, hs⟩ := hstep
    exact ih.snoc (hC _ a ha) hs

/-! ### Schedules -/

theorem runFrom_append (as bs : List α) (s : σ) :
    runFrom step s (as ++ bs) = (runFrom step s as).bind fun s' => runFrom step s' bs := by
  induction as generalizing s with
  | nil => rfl
  | cons a as ih =>
    simp only [List.cons_append, runFrom]
    cases step s a with
    | none => rfl
    | some s1 => simpa using ih s1

theorem EachStep.of_forall_mem {as : List α} (h : ∀ s, ∀ a ∈ as, C s a) (s : σ) :
    EachStep step C s as := by
  induction as generalizing s with
  | nil => trivial
  | cons a as ih =>
    have hrest : ∀ s, ∀ b ∈ as, C s b := fun s b hb => h s b (List.mem_cons_of_mem a hb)
    exact fun s1 _ => ⟨h s a List.mem_cons_self, ih hrest s1⟩

theorem EachStep.of_forall (h : ∀ s a, C s a) (as : List α) (s : σ) : EachStep step C s as :=
  EachStep.of_forall_mem (fun s a _ => h s a) s

theorem EachStep.cons {a : α} {as : List α} (hC : C s a) (hs : step s a = some s')
    (h : EachStep step C s' as) : EachStep step C s (a :: as) := by
  intro s1 h1
  obtain rfl := Option.some.inj (hs.symm.trans h1)
  exact ⟨hC, h⟩

theorem Always.cons {P : σ → Prop} {a : α} {as : List α} (hP : P s) (hs : step s a = some s')
    (h : Always step P s' as) : Always step P s (a :: as) := by
  refine ⟨hP, fun s1 h1 => ?_⟩
  obtain rfl := Option.some.inj (hs.symm.trans h1)
  exact h

theorem EachStep.append {as bs : List α} (h : EachStep step C s as)
    (hr : runFrom step s as = some s') (h' : EachStep step C s' bs) :
    EachStep step C s (as ++ bs) := by
  induction as generalizing s with
  | nil =>
    obtain rfl := Option.some.inj hr
    exact h'
  | cons a as ih =>
    simp only [runFrom, Option.bind_eq_some_iff] at hr
    obtain ⟨s1, h1, hr⟩ := hr
    intro s2 h2
    obtain rfl := Option.some.inj (h1.symm.trans h2)
    obtain ⟨hC, hrest⟩ := h s1 h1
    exact ⟨hC, ih hrest hr⟩

/-- Along a given schedule the condition can be evaluated if it can at each step. -/
instance EachStep.decidable [∀ s a, Decidable (C s a)] :
    (s : σ) → (as : List α) → Decidable (EachStep step C s as)
  | _, [] => isTrue trivial
  | s, a :: as =>
    match hs : step s a with
    | none => isTrue fun s1 h1 => absurd (hs.symm.trans h1) (by simp)
    | some s1 =>
      have := EachStep.decidable s1 as
      decidable_of_iff (C s a ∧ EachStep step C s1 as)
        ⟨fun h => EachStep.cons h.1 hs h.2, fun h => h s1 hs⟩

theorem Reach.of_runFrom {as : List α} (h : runFrom step s as = some s')
    (hC : EachStep step C s as) : Reach step C s s' := by
  induction as generalizing s with
  | nil =>
    obtain rfl := Option.some.inj h
    exact Reach.refl _
  | cons a as ih =>
    simp only [runFrom, Option.bind_eq_some_iff] at h
    obtain ⟨s1, h1, h⟩ := h
    obtain ⟨hCa, hrest⟩ := hC s1 h1
    exact ((Reach.refl s).snoc hCa h1).trans (ih h hrest)

/-- The state that a schedule ends in, or `s` again if it does not run. -/
def stateAfter (step : σ → α → Option σ) (s : σ) (as : List α) : σ := (runFrom step s as).getD s

theorem stateAfter_eq {as : List α} (h : runFrom step s as = some s') :
    stateAfter step s as = s' := by rw [stateAfter, h, Option.getD_some]

theorem Reach.stateAfter {as : List α} (h : (runFrom step s as).isSome = true)
    (hC : EachStep step C s as) : Reach step C s (stateAfter step s as) := by
  obtain ⟨s', hs⟩ := Option.isSome_iff_exists.mp h
  rw [stateAfter_eq hs]
  exact Reach.of_runFrom hs hC

/-- **From steps to runs.** If, from the states with `I`, a step that meets `D` leads to a state with
`P` exactly when it meets `C`, then along a schedule whose steps all meet `D`, `P` holds in every
state exactly when all steps meet `C`. -/
theorem always_iff_eachStep_of {I P : σ → Prop} {D : σ → α → Prop}
    (hI : ∀ s a s', I s → D s a → step s a = some s' → P s' → I s')
    (hP : ∀ s a s', I s → D s a → step s a = some s' → (P s' ↔ C s a))
    {as : List α} (hD : EachStep step D s as) (h0 : I s) (hP0 : P s) :
    Always step P s as ↔ EachStep step C s as := by
  induction as generalizing s with
  | nil => exact ⟨fun _ => trivial, fun _ => hP0⟩
  | cons a as ih =>
    simp only [Always, EachStep]
    constructor
    · rintro ⟨-, h⟩ s1 h1
      obtain ⟨hDa, hDrest⟩ := hD s1 h1
      have hP1 : P s1 := by
        cases as with
        | nil => exact h s1 h1
        | cons b bs => exact (h s1 h1).1
      exact ⟨(hP s a s1 h0 hDa h1).mp hP1,
        (ih hDrest (hI s a s1 h0 hDa h1 hP1) hP1).mp (h s1 h1)⟩
    · intro h
      refine ⟨hP0, fun s1 h1 => ?_⟩
      obtain ⟨hDa, hDrest⟩ := hD s1 h1
      obtain ⟨hC, hrest⟩ := h s1 h1
      have hP1 := (hP s a s1 h0 hDa h1).mpr hC
      exact (ih hDrest (hI s a s1 h0 hDa h1 hP1) hP1).mpr hrest

/-- The same for all schedules. -/
theorem always_iff_eachStep {I P : σ → Prop}
    (hI : ∀ s a s', I s → step s a = some s' → P s' → I s')
    (hP : ∀ s a s', I s → step s a = some s' → (P s' ↔ C s a))
    (as : List α) (h0 : I s) (hP0 : P s) : Always step P s as ↔ EachStep step C s as :=
  always_iff_eachStep_of (D := fun _ _ => True) (fun s a s' h _ => hI s a s' h)
    (fun s a s' h _ => hP s a s' h) (EachStep.of_forall (fun _ _ => trivial) as s) h0 hP0

theorem Always.head {P : σ → Prop} {as : List α} (h : Always step P s as) : P s := by
  cases as with
  | nil => exact h
  | cons a as => exact h.1

theorem Always.eachStep {P : σ → Prop} {as : List α} (h : Always step P s as) :
    EachStep step (fun s _ => P s) s as := by
  induction as generalizing s with
  | nil => trivial
  | cons a as ih => exact fun s1 h1 => ⟨h.1, ih (h.2 s1 h1)⟩

theorem EachStep.and {D : σ → α → Prop} {as : List α} (h : EachStep step C s as)
    (h' : EachStep step D s as) : EachStep step (fun s a => C s a ∧ D s a) s as := by
  induction as generalizing s with
  | nil => trivial
  | cons a as ih =>
    intro s1 h1
    obtain ⟨hC, hrest⟩ := h s1 h1
    obtain ⟨hD, hrest'⟩ := h' s1 h1
    exact ⟨⟨hC, hD⟩, ih hrest hrest'⟩

/-- **Counting steps**: if, from the states with `P`, a step that meets `b` lowers `φ` and no step
raises it, a schedule that stays in these states makes at most `φ` such steps. -/
theorem countSteps_le {P : σ → Prop} {b : σ → α → Bool} {φ : σ → ℕ}
    (h : ∀ s a s', P s → step s a = some s' → (if b s a then 1 else 0) + φ s' ≤ φ s)
    {as : List α} (hP : Always step P s as) : countSteps step b s as ≤ φ s := by
  induction as generalizing s with
  | nil => exact Nat.zero_le _
  | cons a as ih =>
    rw [countSteps]
    cases hs : step s a with
    | none => exact Nat.zero_le _
    | some s1 => exact Nat.le_trans (Nat.add_le_add_left (ih (hP.2 s1 hs)) _) (h s a s1 hP.1 hs)

/-- **Ranks**: if, from the states with `I`, a step by an action with `b` lowers `φ` unless it is 0,
and no step raises it, a run lowers it by as many such actions as it has. -/
theorem rank_le_of_run {I : σ → Prop} {b : α → Bool} {φ : σ → ℕ}
    (hI : ∀ s a s', I s → C s a → step s a = some s' → I s')
    (h : ∀ s a s', I s → C s a → step s a = some s' → φ s' ≤ φ s - if b a then 1 else 0)
    {as : List α} (h0 : I s) (hr : runFrom step s as = some s') (hC : EachStep step C s as) :
    φ s' ≤ φ s - as.countP b := by
  induction as generalizing s with
  | nil =>
    obtain rfl := Option.some.inj hr
    exact Nat.le_refl _
  | cons a as ih =>
    simp only [runFrom, Option.bind_eq_some_iff] at hr
    obtain ⟨s1, h1, hr⟩ := hr
    obtain ⟨hCa, hrest⟩ := hC s1 h1
    have hfirst := h s a s1 h0 hCa h1
    have hmore := ih (hI s a s1 h0 hCa h1) hr hrest
    rw [List.countP_cons]
    omega

theorem Always.append {P : σ → Prop} {as bs : List α} (h : Always step P s (as ++ bs))
    (hr : runFrom step s as = some s') : Always step P s' bs := by
  induction as generalizing s with
  | nil =>
    obtain rfl := Option.some.inj hr
    exact h
  | cons a as ih =>
    simp only [runFrom, Option.bind_eq_some_iff] at hr
    obtain ⟨s1, h1, hr⟩ := hr
    exact ih (h.2 s1 h1) hr

end HardLog.Lib.Runs
