/-
# A shared error word

Several threads share a word that is empty until one of them fails. A thread
that fails is from then on about to set the word to its code (`pending`), and
a later step of it sets the word, whatever it holds by then. So a second
failure replaces the code of the first.

`Lawful` says that nothing else happens to the word. A step is `Orderly` if it
fails with no other code than those that are set or about to be set. Along
orderly steps there is one code at most (`Agree`): the word keeps the first
one it gets (`Lawful.error_kept`), and gets no other than that of the first
thread that failed (`Lawful.error_of_failed`).
-/
import Mathlib.Data.Fintype.Defs
import Threefizer.Lib.Lts

namespace Lts

variable {σ α τ ε : Type*}

/-- The word and how the threads `τ` set it: whose step an action is, what the
word holds, what a thread is about to set it to, and the code an action fails
with. -/
structure ErrorWord (σ α τ ε : Type*) where
  thread : α → τ
  error : σ → Option ε
  pending : σ → τ → Option ε
  failure : σ → α → Option ε

namespace ErrorWord

variable (W : ErrorWord σ α τ ε)

/-- A code that is set, or that some thread is about to set. -/
def Names (s : σ) (c : ε) : Prop := W.error s = some c ∨ ∃ t, W.pending s t = some c

/-- There is one code at most. -/
def Agree (s : σ) : Prop := ∀ c d, W.Names s c → W.Names s d → c = d

/-- The action fails with no code but the one there is. -/
def Orderly (s : σ) (a : α) : Prop :=
  ∀ c ∈ W.failure s a, (∀ d ∈ W.error s, d = c) ∧ ∀ t, ∀ d ∈ W.pending s t, d = c

instance [DecidableEq ε] [Fintype τ] (s : σ) (a : α) : Decidable (W.Orderly s a) := by
  unfold Orderly; infer_instance

/-- The word is only set by a thread that is about to, and only a failure
makes a thread be about to, in the states where `I` holds. -/
structure Lawful (step : σ → α → Option σ) (I : σ → Prop) : Prop where
  sets : ∀ {s s' a}, I s → step s a = some s' →
    W.error s' = (W.pending s (W.thread a)).or (W.error s)
  others : ∀ {s s' a t}, step s a = some s' → t ≠ W.thread a → W.pending s' t = W.pending s t
  enters : ∀ {s s' a c}, I s → step s a = some s' →
    W.pending s' (W.thread a) = some c → W.failure s a = some c

variable {W} {step : σ → α → Option σ} {I : σ → Prop} {s s' : σ} {a : α} {c : ε}

theorem Orderly.eq_of_names {d : ε} (h : W.Orderly s a) (hc : W.failure s a = some c) (hd : W.Names s d) :
    d = c := by
  obtain ⟨herr, hpend⟩ := h c hc
  rcases hd with hd | ⟨t, hd⟩
  · exact herr d hd
  · exact hpend t d hd

/-- A code there is after a step was there before it, or the step failed with it. -/
theorem Lawful.names_before (hL : W.Lawful step I) (hI : I s) (hstep : step s a = some s')
    (hc : W.Names s' c) : W.Names s c ∨ W.failure s a = some c := by
  rcases hc with hc | ⟨t, hc⟩
  · rw [hL.sets hI hstep] at hc
    rcases Option.or_eq_some_iff.mp hc with hc | ⟨-, hc⟩
    · exact Or.inl (Or.inr ⟨_, hc⟩)
    · exact Or.inl (Or.inl hc)
  · by_cases ht : t = W.thread a
    · subst ht
      exact Or.inr (hL.enters hI hstep hc)
    · rw [hL.others hstep ht] at hc
      exact Or.inl (Or.inr ⟨t, hc⟩)

theorem Agree.of_step (hL : W.Lawful step I) (hI : I s) (hok : W.Orderly s a) (hstep : step s a = some s')
    (hA : W.Agree s) : W.Agree s' := by
  intro c d hc hd
  rcases hL.names_before hI hstep hc with hc | hc
  · rcases hL.names_before hI hstep hd with hd | hd
    · exact hA c d hc hd
    · exact hok.eq_of_names hd hc
  · rcases hL.names_before hI hstep hd with hd | hd
    · exact (hok.eq_of_names hc hd).symm
    · exact Option.some.inj (hc.symm.trans hd)

/-- The one code there is stays. -/
theorem Lawful.names_step (hL : W.Lawful step I) (hI : I s) (hstep : step s a = some s') (hA : W.Agree s)
    (hc : W.Names s c) : W.Names s' c := by
  cases hp : W.pending s (W.thread a) with
  | some d =>
    -- the step sets the word, to the code there is
    obtain rfl : d = c := hA d c (Or.inr ⟨_, hp⟩) hc
    exact Or.inl (by rw [hL.sets hI hstep, hp]; rfl)
  | none =>
    rcases hc with hc | ⟨t, hc⟩
    · exact Or.inl (by rw [hL.sets hI hstep, hp]; exact hc)
    · have ht : t ≠ W.thread a := by
        rintro rfl
        exact Option.some_ne_none _ (hc.symm.trans hp)
      exact Or.inr ⟨t, (hL.others hstep ht).trans hc⟩

theorem Lawful.error_step (hL : W.Lawful step I) (hI : I s) (hstep : step s a = some s') (hA : W.Agree s)
    (hc : W.error s = some c) : W.error s' = some c := by
  rw [hL.sets hI hstep]
  cases hp : W.pending s (W.thread a) with
  | none => exact hc
  | some d => exact congrArg some (hA d c (Or.inr ⟨_, hp⟩) (Or.inl hc))

section Run

variable {s₀ : σ}

/-- A code that no step fails with is never set. -/
theorem Lawful.not_names (hL : W.Lawful step I) (hI : ∀ s, Reachable step s₀ s → I s)
    (hfail : ∀ s a, W.failure s a ≠ some c) (h0 : ¬ W.Names s₀ c) (h : Reachable step s₀ s) : ¬ W.Names s c :=
  h.invariant' hI h0 fun s a _ hI hnot _ hstep hname =>
    (hL.names_before hI hstep hname).elim hnot (hfail s a)

theorem Lawful.agree (hL : W.Lawful step I) (hI : ∀ s, Reachable step s₀ s → I s) (h0 : W.Agree s₀)
    (h : Reach step W.Orderly s₀ s) : W.Agree s :=
  h.invariant' (fun _ hs => hI _ hs.reachable) h0 fun _ _ _ hI hA hok hstep => hA.of_step hL hI hok hstep

/-- In every run of orderly steps the word keeps the code it has got. -/
theorem Lawful.error_kept (hL : W.Lawful step I) (hI : ∀ s, Reachable step s₀ s → I s) (h0 : W.Agree s₀)
    (h : Reach step W.Orderly s₀ s) (hc : W.error s = some c) (h' : Reach step W.Orderly s s') :
    W.error s' = some c := by
  induction h' with
  | refl => exact hc
  | next hr _ hstep ih =>
    have hs := h.trans hr
    exact hL.error_step (hI _ hs.reachable) hstep (hL.agree hI h0 hs) ih

/-- In every run of orderly steps the word gets no code but that of the first failure. -/
theorem Lawful.error_of_failed (hL : W.Lawful step I) (hI : ∀ s, Reachable step s₀ s → I s) (h0 : W.Agree s₀)
    (h : Reach step W.Orderly s₀ s) (hc : W.Names s c) (h' : Reach step W.Orderly s s') {e : ε}
    (he : W.error s' = some e) : e = c := by
  have hname : W.Names s' c := by
    clear he
    induction h' with
    | refl => exact hc
    | next hr _ hstep ih =>
      have hs := h.trans hr
      exact hL.names_step (hI _ hs.reachable) hstep (hL.agree hI h0 hs) ih
  exact hL.agree hI h0 (h.trans h') e c (Or.inl he) hname

end Run

end ErrorWord

end Lts
