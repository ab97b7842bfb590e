import Mathlib.Data.List.Basic

/-! Runs of a step function under an explicit schedule. Every source of
nondeterminism is an action, so a schedule determines the run and a finite run
can be evaluated; what holds on all runs is proved once from what one step keeps. -/
namespace Astlog.Foundation

variable {σ τ α β : Type*}

/-- Perform the actions in order. A disabled action makes the schedule impossible. -/
def run (step : σ → α → Option σ) : σ → List α → Option σ
  | s, [] => some s
  | s, a::as =>
    match step s a with
    | none => none
    | some t => run step t as

@[simp] theorem run_nil (step : σ → α → Option σ) (s : σ) : run step s [] = some s := rfl

lemma run_cons (step : σ → α → Option σ) (s : σ) (a : α) (as : List α) :
    run step s (a::as) = (step s a).bind fun t => run step t as := by
  cases h : step s a <;> simp [run, h]

theorem run_cons_eq_some {step : σ → α → Option σ} {s u : σ} {a : α} {as : List α} :
    run step s (a::as) = some u ↔ ∃ t, step s a = some t ∧ run step t as = some u := by
  rw [run_cons, Option.bind_eq_some_iff]

lemma run_append (step : σ → α → Option σ) (s : σ) (as bs : List α) :
    run step s (as ++ bs) = (run step s as).bind fun t => run step t bs := by
  induction as generalizing s with
  | nil => rfl
  | cons a as ih =>
    rw [List.cons_append, run_cons, run_cons]
    cases step s a with
    | none => rfl
    | some t => exact ih t

theorem run_append_eq_some {step : σ → α → Option σ} {s u : σ} {as bs : List α} :
    run step s (as ++ bs) = some u ↔ ∃ t, run step s as = some t ∧ run step t bs = some u := by
  rw [run_append, Option.bind_eq_some_iff]

/-- What every enabled step keeps, every run keeps. -/
theorem run_invariant {step : σ → α → Option σ} {I : σ → Prop}
    (hstep : ∀ s a t, I s → step s a = some t → I t) {s t : σ} {as : List α}
    (h : run step s as = some t) (hs : I s) : I t := by
  induction as generalizing s with
  | nil =>
    cases h
    exact hs
  | cons a as ih =>
    obtain ⟨u, ha, hu⟩ := run_cons_eq_some.mp h
    exact ih hu (hstep s a u hs ha)

/-- The machine whose steps are only those taken in a state that meets the condition. -/
def restrict (ok : σ → α → Bool) (step : σ → α → Option σ) (s : σ) (a : α) : Option σ :=
  if ok s a then step s a else none

theorem restrict_eq_some {ok : σ → α → Bool} {step : σ → α → Option σ} {s t : σ} {a : α} :
    restrict ok step s a = some t ↔ ok s a = true ∧ step s a = some t := by
  unfold restrict
  split <;> simp_all

/-- A run whose steps all meet a condition is in particular a run. -/
theorem run_of_restrict {ok : σ → α → Bool} {step : σ → α → Option σ} {s t : σ} {as : List α}
    (h : run (restrict ok step) s as = some t) : run step s as = some t := by
  induction as generalizing s with
  | nil => exact h
  | cons a as ih =>
    obtain ⟨u, ha, hu⟩ := run_cons_eq_some.mp h
    exact run_cons_eq_some.mpr ⟨u, (restrict_eq_some.mp ha).2, ih hu⟩

/-- A run either meets the condition all along, or breaks it at some step. If breaking it
leaves a mark that no later step removes, the mark is there at the end. -/
theorem run_restrict_or {ok : σ → α → Bool} {step : σ → α → Option σ} {I Mark : σ → Prop}
    (hstep : ∀ s a t, I s → restrict ok step s a = some t → I t)
    (hbreak : ∀ s a t, I s → ok s a = false → step s a = some t → Mark t)
    (hmark : ∀ s a t, Mark s → step s a = some t → Mark t) {s t : σ} {as : List α}
    (h : run step s as = some t) (hs : I s) : run (restrict ok step) s as = some t ∨ Mark t := by
  induction as generalizing s with
  | nil => exact .inl h
  | cons a as ih =>
    obtain ⟨u, ha, hu⟩ := run_cons_eq_some.mp h
    cases hok : ok s a with
    | false => exact .inr (run_invariant hmark hu (hbreak s a u hs hok ha))
    | true =>
      have hr : restrict ok step s a = some u := restrict_eq_some.mpr ⟨hok, ha⟩
      refine (ih hu (hstep s a u hs hr)).imp_left fun hrest => ?_
      exact run_cons_eq_some.mpr ⟨u, hr, hrest⟩

/-- Forward simulation: if every concrete step is matched by a run of the abstract
machine between related states, then so is every concrete run. -/
theorem run_simulation {step : σ → α → Option σ} {step' : τ → β → Option τ} {R : σ → τ → Prop}
    (hsim : ∀ s a t s', R s s' → step s a = some t →
      ∃ bs t', run step' s' bs = some t' ∧ R t t')
    {s t : σ} {as : List α} {s' : τ} (h : run step s as = some t) (hs : R s s') :
    ∃ bs t', run step' s' bs = some t' ∧ R t t' := by
  induction as generalizing s s' with
  | nil =>
    cases h
    exact ⟨[], s', rfl, hs⟩
  | cons a as ih =>
    obtain ⟨u, ha, hu⟩ := run_cons_eq_some.mp h
    obtain ⟨bs, u', hb, hR⟩ := hsim s a u s' hs ha
    obtain ⟨cs, t', hc, ht⟩ := ih hu hR
    exact ⟨bs ++ cs, t', run_append_eq_some.mpr ⟨u', hb, hc⟩, ht⟩

end Astlog.Foundation
