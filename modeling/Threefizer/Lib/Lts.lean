/-
# Transition systems given by a step function

A system is a partial step function `step : σ → α → Option σ`: in state `s`
the action `a` either leads to one state or cannot be taken. `Reach step ok s₀`
holds of the states that runs from `s₀` reach when every step taken meets the
condition `ok` on the state before it and the action.

* `Reach.invariant`: what holds at the start and is kept by every allowed
  step holds of every reached state.
* `Reach.last_change`: what a run has changed was changed by a last step.
* `Reach.of_run`: a list of actions that runs through is such a run.
* `run_count`: a measure that no step raises and the actions of one kind lower
  bounds how many of them a run has.
* `leads`: a measure that some action decreases, as long as the goal is not
  reached, leads to the goal.
-/
import Mathlib.Data.Nat.Basic
import Mathlib.Tactic.Common

namespace Lts

variable {σ α : Type*} (step : σ → α → Option σ)

/-- The states reached from `s₀` by steps that meet `ok`. -/
inductive Reach (ok : σ → α → Prop) (s₀ : σ) : σ → Prop
  | refl : Reach ok s₀ s₀
  | next {s s' : σ} {a : α} : Reach ok s₀ s → ok s a → step s a = some s' → Reach ok s₀ s'

/-- The states any run reaches. -/
abbrev Reachable (s₀ : σ) : σ → Prop := Reach step (fun _ _ => True) s₀

/-- The state after the actions `as`, if each of them can be taken and meets `ok`. -/
def run (ok : σ → α → Prop) [∀ s a, Decidable (ok s a)] : σ → List α → Option σ
  | s, [] => some s
  | s, a :: as => if ok s a then (step s a).bind fun s' => run ok s' as else none

variable {step}

theorem Reach.mono {ok ok' : σ → α → Prop} (hok : ∀ s a, ok s a → ok' s a) {s₀ s : σ}
    (h : Reach step ok s₀ s) : Reach step ok' s₀ s := by
  induction h with
  | refl => exact .refl
  | next _ ha hs ih => exact .next ih (hok _ _ ha) hs

theorem Reach.reachable {ok : σ → α → Prop} {s₀ s : σ} (h : Reach step ok s₀ s) :
    Reachable step s₀ s := h.mono fun _ _ _ => trivial

theorem Reach.trans {ok : σ → α → Prop} {s₀ s₁ s₂ : σ} (h : Reach step ok s₀ s₁)
    (h' : Reach step ok s₁ s₂) : Reach step ok s₀ s₂ := by
  induction h' with
  | refl => exact h
  | next _ ha hs ih => exact .next ih ha hs

/-- The invariant rule. -/
theorem Reach.invariant {ok : σ → α → Prop} {I : σ → Prop} {s₀ : σ} (h0 : I s₀)
    (hstep : ∀ s a s', I s → ok s a → step s a = some s' → I s') {s : σ}
    (h : Reach step ok s₀ s) : I s := by
  induction h with
  | refl => exact h0
  | next _ ha hs ih => exact hstep _ _ _ ih ha hs

/-- The invariant rule on top of a known invariant `J`. -/
theorem Reach.invariant' {ok : σ → α → Prop} {I J : σ → Prop} {s₀ : σ}
    (hJ : ∀ s, Reach step ok s₀ s → J s) (h0 : I s₀)
    (hstep : ∀ s a s', J s → I s → ok s a → step s a = some s' → I s') {s : σ}
    (h : Reach step ok s₀ s) : I s := by
  induction h with
  | refl => exact h0
  | next hr ha hs ih => exact hstep _ _ _ (hJ _ hr) ih ha hs

/-- What is different at the end was changed by a step, and by a last one. -/
theorem Reach.last_change {β : Type*} (f : σ → β) {ok : σ → α → Prop} {s₀ s : σ} (h : Reach step ok s₀ s) :
    f s = f s₀ ∨ ∃ s₁ a s₂, Reach step ok s₀ s₁ ∧ step s₁ a = some s₂ ∧ Reach step ok s₂ s ∧
      f s₁ ≠ f s₂ ∧ f s₂ = f s := by
  induction h with
  | refl => exact Or.inl rfl
  | @next s s' a hr ha hs ih =>
    by_cases hf : f s = f s'
    · rw [← hf]
      refine ih.imp_right ?_
      rintro ⟨s₁, b, s₂, hr₁, hs₁, hr₂, hne, heq⟩
      exact ⟨s₁, b, s₂, hr₁, hs₁, .next hr₂ ha hs, hne, heq⟩
    · exact Or.inr ⟨s, a, s', hr, hs, .refl, hf, rfl⟩

section Run

variable {ok : σ → α → Prop} [∀ s a, Decidable (ok s a)]

/-- A list of actions that runs through is a run. -/
theorem Reach.of_run {s : σ} : ∀ {as : List α} {s₀ : σ}, run step ok s₀ as = some s →
    Reach step ok s₀ s
  | [], s₀, h => by cases h; exact .refl
  | a :: as, s₀, h => by
    rw [run] at h
    split at h
    next ha =>
      obtain ⟨s₁, h1, h2⟩ := Option.bind_eq_some_iff.mp h
      exact Reach.trans (.next .refl ha h1) (Reach.of_run h2)
    next => cases h

/-- What a test finds at the end of a list of actions is reached. -/
theorem Reach.of_run_any {p : σ → Bool} {as : List α} {s₀ : σ} (h : (run step ok s₀ as).any p = true) :
    ∃ s, Reach step ok s₀ s ∧ p s = true := by
  obtain ⟨s, hs, hp⟩ := (Option.any_eq_true _ _).mp h
  exact ⟨s, Reach.of_run hs, hp⟩

/-- What tests find at the ends of two lists of actions, one after the other. -/
theorem Reach.of_runs_any {ok' : σ → α → Prop} [∀ s a, Decidable (ok' s a)] {p q : σ → Bool} {as bs : List α} {s₀ : σ}
    (h : (run step ok s₀ as).any (fun s => p s && (run step ok' s bs).any q) = true) :
    ∃ s s', Reach step ok s₀ s ∧ p s = true ∧ Reach step ok' s s' ∧ q s' = true := by
  obtain ⟨s, hs, hpq⟩ := Reach.of_run_any h
  obtain ⟨hp, hq⟩ := (Bool.and_eq_true _ _).mp hpq
  obtain ⟨s', hs', hq⟩ := Reach.of_run_any hq
  exact ⟨s, s', hs, hp, hs', hq⟩

/-- A run has no more actions of the kind `p` than the measure `μ` starts with. -/
theorem run_count {I : σ → Prop} (μ : σ → ℕ) (p : α → Bool)
    (hstep : ∀ s a s', I s → ok s a → step s a = some s' → I s' ∧ μ s' + (if p a then 1 else 0) ≤ μ s) :
    ∀ {as : List α} {s s' : σ}, I s → run step ok s as = some s' → as.countP p + μ s' ≤ μ s
  | [], s, s', _, h => by cases h; simp
  | a :: as, s, s', hI, h => by
    rw [run] at h
    split at h
    next ha =>
      obtain ⟨s₁, h1, h2⟩ := Option.bind_eq_some_iff.mp h
      obtain ⟨hI₁, hle⟩ := hstep s a s₁ hI ha h1
      have ih := run_count μ p hstep hI₁ h2
      rw [List.countP_cons]
      omega
    next => cases h

end Run

/-- While the goal `P` is not reached some action keeps `I` and decreases
`μ`: then `P` is reached, and `I` still holds there. -/
theorem leads {ok : σ → α → Prop} {I P : σ → Prop} (μ : σ → ℕ)
    (hstep : ∀ s, I s → ¬ P s → ∃ a s', ok s a ∧ step s a = some s' ∧ I s' ∧ μ s' < μ s) :
    ∀ (n : ℕ) (s : σ), μ s ≤ n → I s → ∃ s', Reach step ok s s' ∧ I s' ∧ P s'
  | 0, s, hn, hI => by
    by_cases hP : P s
    · exact ⟨s, .refl, hI, hP⟩
    · obtain ⟨a, s', -, -, -, hlt⟩ := hstep s hI hP
      omega
  | n + 1, s, hn, hI => by
    by_cases hP : P s
    · exact ⟨s, .refl, hI, hP⟩
    · obtain ⟨a, s', ha, hs, hI', hlt⟩ := hstep s hI hP
      obtain ⟨t, ht, hIt, hPt⟩ := leads μ hstep n s' (by omega) hI'
      exact ⟨t, Reach.trans (.next .refl ha hs) ht, hIt, hPt⟩

end Lts
