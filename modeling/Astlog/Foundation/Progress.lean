import Astlog.Foundation.Schedule

/-! Machines that come to rest. Where every step uses up some of a measure, no run is longer
than the measure, and every run can be continued to a state with no step left. -/
namespace Astlog.Foundation

variable {σ α : Type*} {step : σ → α → Option σ} {I : σ → Prop} {μ : σ → ℕ}

/-- No action is enabled. -/
def Stuck (step : σ → α → Option σ) (s : σ) : Prop := ∀ a, step s a = none

/-- A run pays for each of its steps. -/
theorem run_length_le (hstep : ∀ s a t, I s → step s a = some t → I t ∧ μ t < μ s) {s t : σ}
    {as : List α} (h : run step s as = some t) (hs : I s) : as.length+μ t ≤ μ s := by
  induction as generalizing s with
  | nil =>
    cases h
    simp
  | cons a as ih =>
    obtain ⟨u,ha,hu⟩ := run_cons_eq_some.mp h
    obtain ⟨hI,hlt⟩ := hstep s a u hs ha
    have hrest := ih hu hI
    rw [List.length_cons]
    omega

theorem exists_run_stuck (hstep : ∀ s a t, I s → step s a = some t → I t ∧ μ t < μ s) {s : σ}
    (hs : I s) : ∃ as t, run step s as = some t ∧ Stuck step t := by
  induction hn : μ s using Nat.strongRecOn generalizing s with
  | ind n ih =>
    subst hn
    by_cases hstuck : Stuck step s
    · exact ⟨[],s,rfl,hstuck⟩
    · simp only [Stuck, not_forall] at hstuck
      obtain ⟨a,ha⟩ := hstuck
      obtain ⟨t,ht⟩ := Option.ne_none_iff_exists'.mp ha
      obtain ⟨hI,hlt⟩ := hstep s a t hs ht
      obtain ⟨as,u,hu,hend⟩ := ih (μ t) hlt hI rfl
      exact ⟨a::as,u,run_cons_eq_some.mpr ⟨t,ht,hu⟩,hend⟩

/-- With the steps restricted, an action that the condition allows is not enabled either. -/
theorem Stuck.eq_none {ok : σ → α → Bool} {s : σ} (h : Stuck (restrict ok step) s) {a : α}
    (hok : ok s a = true) : step s a = none := by
  have ha := h a
  rwa [restrict, if_pos hok] at ha

end Astlog.Foundation
