import Mathlib.Data.List.Chain

/-! A component that answers a sequence of calls. Two components that answer each call
alike from related states answer every sequence alike. -/
namespace Astlog.Foundation

variable {σ τ γ ρ ε : Type*}

/-- The state after a sequence of calls. -/
def afterCalls (call : σ → γ → σ × ρ) (s : σ) : List γ → σ
  | [] => s
  | c::cs => afterCalls call (call s c).1 cs

/-- The answers to a sequence of calls. -/
def answers (call : σ → γ → σ × ρ) (s : σ) : List γ → List ρ
  | [] => []
  | c::cs => (call s c).2::answers call (call s c).1 cs

/-- What a sequence of calls emits, where one call emits what `events` says. -/
def emitted (call : σ → γ → σ × ρ) (events : σ → γ → List ε) (s : σ) : List γ → List ε
  | [] => []
  | c::cs => events s c ++ emitted call events (call s c).1 cs

section
variable {call : σ → γ → σ × ρ}

/-- Related states stay related and give the same answers. -/
theorem answers_eq_of_simulation {call' : τ → γ → τ × ρ} {R : σ → τ → Prop}
    (hcall : ∀ s t c, R s t → R (call s c).1 (call' t c).1 ∧ (call s c).2 = (call' t c).2)
    {s : σ} {t : τ} (h : R s t) (cs : List γ) :
    R (afterCalls call s cs) (afterCalls call' t cs) ∧ answers call s cs = answers call' t cs := by
  induction cs generalizing s t with
  | nil => exact ⟨h,rfl⟩
  | cons c cs ih =>
    obtain ⟨hR,heq⟩ := hcall s t c h
    obtain ⟨hafter,hanswers⟩ := ih hR
    exact ⟨hafter,List.cons_eq_cons.mpr ⟨heq,hanswers⟩⟩

/-- A condition on each call can be taken out of the one along the sequence. -/
theorem head_and_isChain_iff {R : γ → γ → Prop} {Q : γ → Prop} (cs : List γ) :
    ((∀ c ∈ cs.head?, Q c) ∧ cs.IsChain fun a b => R a b ∧ Q b) ↔
      (∀ c ∈ cs, Q c) ∧ cs.IsChain R := by
  induction cs with
  | nil => simp
  | cons c cs ih =>
    have hcs := ih
    simp only [List.isChain_cons, List.head?_cons, Option.mem_some_iff, forall_eq', List.mem_cons,
      forall_eq_or_imp, forall_and] at hcs ⊢
    tauto

/-- A component that only remembers something of its last call. If a call is answered
right exactly when `ok` holds between what is remembered and the call, then a sequence of
calls is answered right exactly when `ok` holds along it. -/
theorem answers_eq_map_iff {κ : Type*} (memo : γ → κ) {right : γ → ρ} (ok : κ → γ → Prop)
    {P : γ → Prop} {I : κ → σ → Prop}
    (hcall : ∀ k s c, P c → I k s → ((call s c).2 = right c ↔ ok k c))
    (hnext : ∀ k s c, P c → I k s → (call s c).2 = right c → I (memo c) (call s c).1)
    {k : κ} {s : σ} (h : I k s) {cs : List γ} (hcs : ∀ c ∈ cs, P c) :
    answers call s cs = cs.map right ↔
      (∀ c ∈ cs.head?, ok k c) ∧ cs.IsChain fun a b => ok (memo a) b := by
  induction cs generalizing k s with
  | nil => exact iff_of_true rfl ⟨by simp,List.IsChain.nil⟩
  | cons c cs ih =>
    have hc := hcs c List.mem_cons_self
    have hhead : (∀ d ∈ (c::cs).head?, ok k d) ↔ ok k c := by simp
    rw [answers, List.map_cons, List.cons_eq_cons, List.isChain_cons, hhead, ← hcall k s c hc h]
    refine and_congr_right fun hright => ?_
    exact ih (hnext k s c hc h hright) fun d hd => hcs d (List.mem_cons_of_mem _ hd)

end
end Astlog.Foundation
