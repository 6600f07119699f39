/-
# Rounds of turns

A scheduler is fair if every party that has not come to its end gets a turn
again and again. A `Round` is a run in which each of them gets one, and
`Rounds k` is `k` such runs one after the other; between two of its turns a
party may be overtaken any number of times.

`Driven` is what leads to a goal under every fair scheduler: a measure that no
step raises, and short of the goal a party that drives. Its next turn lowers the
measure whenever it comes, since the others leave it driving until then. So the
goal is reached once there were more rounds than the measure says
(`Driven.rounds`), and there are schedules of any number of rounds if a party
that drives can be given a turn (`Driven.exists_rounds`).
-/
import Threefizer.Lib.Lts

namespace Lts

variable {σ α ι : Type*} (step : σ → α → Option σ) (ok : σ → α → Prop) (who : α → ι)

/-- A run with its actions. -/
inductive Path : σ → List α → σ → Prop
  | nil {s : σ} : Path s [] s
  | cons {s s₁ s' : σ} {a : α} {as : List α} :
      ok s a → step s a = some s₁ → Path s₁ as s' → Path s (a :: as) s'

/-- A run in which every party has a turn, except for those that have ended. -/
def Round (ended : ι → σ → Prop) (s s' : σ) : Prop :=
  ∃ as, Path step ok s as s' ∧ ∀ i, ended i s' ∨ ∃ a ∈ as, who a = i

/-- `k` rounds, one after the other. -/
inductive Rounds (ended : ι → σ → Prop) : ℕ → σ → σ → Prop
  | zero {s : σ} : Rounds ended 0 s s
  | succ {k : ℕ} {s s₁ s' : σ} :
      Round step ok who ended s s₁ → Rounds ended k s₁ s' → Rounds ended (k + 1) s s'

/-- What leads to `goal` under every fair scheduler; `within n s` says that the
measure of `s` is at most `n`. -/
structure Driven (ended : ι → σ → Prop) (goal : σ → Prop) (within : ℕ → σ → Prop) (drives : ι → σ → Prop) :
    Prop where
  final : ∀ s a, goal s → step s a = none
  driven : ∀ n s, within n s → ¬ goal s → ∃ i, drives i s
  awake : ∀ n s i, within n s → drives i s → ¬ ended i s
  stays : ∀ n s a s' i, within n s → ok s a → step s a = some s' → who a ≠ i → drives i s → drives i s'
  lowers : ∀ n s a s', within n s → ok s a → step s a = some s' →
    ∃ m, m ≤ n ∧ within m s' ∧ (drives (who a) s → m < n)

variable {step ok who} {ended : ι → σ → Prop} {goal : σ → Prop} {within : ℕ → σ → Prop} {drives : ι → σ → Prop}
  {s s' : σ} {as : List α} {i : ι} {n k : ℕ}

theorem Path.reach (h : Path step ok s as s') : Reach step ok s s' := by
  induction h with
  | nil => exact .refl
  | cons ha hs _ ih => exact Reach.trans (.next .refl ha hs) ih

theorem Path.append {s₁ : σ} {bs : List α} (h : Path step ok s as s₁) (h' : Path step ok s₁ bs s') :
    Path step ok s (as ++ bs) s' := by
  induction h with
  | nil => exact h'
  | cons ha hs _ ih => exact .cons ha hs (ih h')

theorem Rounds.reach (h : Rounds step ok who ended k s s') : Reach step ok s s' := by
  induction h with
  | zero => exact .refl
  | succ hr _ ih =>
    obtain ⟨as, hp, -⟩ := hr
    exact Reach.trans hp.reach ih

namespace Driven

/-- Along a run the measure is not raised; it is lowered, or a party that drives
has had no turn and still drives. -/
theorem path (hD : Driven step ok who ended goal within drives) (h : Path step ok s as s') :
    ∀ n, within n s → ∃ m, m ≤ n ∧ within m s' ∧
      (drives i s → m < n ∨ (∀ a ∈ as, who a ≠ i) ∧ drives i s') := by
  induction h with
  | nil => exact fun n hn => ⟨n, le_rfl, hn, fun hi => Or.inr ⟨nofun, hi⟩⟩
  | @cons s s₁ s' a as ha hs _ ih =>
    intro n hn
    obtain ⟨m, hmn, hm, hlow⟩ := hD.lowers n s a s₁ hn ha hs
    obtain ⟨l, hlm, hl, hstep⟩ := ih m hm
    refine ⟨l, le_trans hlm hmn, hl, fun hi => ?_⟩
    by_cases hwho : who a = i
    · exact Or.inl (lt_of_le_of_lt hlm (hlow (hwho ▸ hi)))
    · rcases hstep (hD.stays n s a s₁ i hn ha hs hwho hi) with hlt | ⟨hno, hi'⟩
      · exact Or.inl (lt_of_lt_of_le hlt hmn)
      · exact Or.inr ⟨List.forall_mem_cons.mpr ⟨hwho, hno⟩, hi'⟩

/-- Nothing moves at the goal. -/
theorem path_final (hD : Driven step ok who ended goal within drives) (hg : goal s) (h : Path step ok s as s') :
    s' = s := by
  cases h with
  | nil => rfl
  | cons _ hs _ => exact nomatch (hD.final _ _ hg).symm.trans hs

theorem rounds_final (hD : Driven step ok who ended goal within drives) (hg : goal s)
    (h : Rounds step ok who ended k s s') : s' = s := by
  induction h with
  | zero => rfl
  | succ hr _ ih =>
    obtain ⟨as, hp, -⟩ := hr
    obtain rfl := hD.path_final hg hp
    exact ih hg

/-- A round lowers the measure, unless the goal is reached. -/
theorem round (hD : Driven step ok who ended goal within drives) (hn : within n s) (hg : ¬ goal s)
    (h : Round step ok who ended s s') : ∃ m, m < n ∧ within m s' := by
  obtain ⟨as, hp, hturn⟩ := h
  obtain ⟨i, hi⟩ := hD.driven n s hn hg
  obtain ⟨m, -, hm, hlow⟩ := hD.path (i := i) hp n hn
  refine ⟨m, (hlow hi).resolve_right ?_, hm⟩
  rintro ⟨hno, hi'⟩
  rcases hturn i with hend | ⟨a, ha, hwho⟩
  · exact hD.awake m s' i hm hi' hend
  · exact hno a ha hwho

/-- Every schedule of more rounds than the measure says ends at the goal. -/
theorem rounds (hD : Driven step ok who ended goal within drives) (h : Rounds step ok who ended k s s') :
    ∀ n, n < k → within n s → goal s' := by
  induction h with
  | zero => exact fun n hn => absurd hn (Nat.not_lt_zero n)
  | @succ k s s₁ s' hr hrest ih =>
    intro n hk hn
    by_cases hg : goal s
    · obtain ⟨as, hp, -⟩ := hr
      obtain rfl := hD.path_final hg hp
      rw [hD.rounds_final hg hrest]
      exact hg
    · obtain ⟨m, hm, hm'⟩ := hD.round hn hg hr
      exact ih m (by omega) hm'

/-- If short of the goal a party that drives can be given a turn, the goal can be reached. -/
theorem reaches (hD : Driven step ok who ended goal within drives)
    (hturn : ∀ n s, within n s → ¬ goal s →
      ∃ i as s', drives i s ∧ Path step ok s as s' ∧ ∃ a ∈ as, who a = i) :
    ∀ n s, within n s → ∃ as s', Path step ok s as s' ∧ goal s' := by
  intro n
  induction n using Nat.strong_induction_on with
  | _ n ih =>
    intro s hn
    by_cases hg : goal s
    · exact ⟨[], s, .nil, hg⟩
    · obtain ⟨i, as, s₁, hi, hp, a, ha, hwho⟩ := hturn n s hn hg
      obtain ⟨m, -, hm, hlow⟩ := hD.path (i := i) hp n hn
      have hlt : m < n := (hlow hi).resolve_right fun h => h.1 a ha hwho
      obtain ⟨bs, s', hp', hg'⟩ := ih m hlt s₁ hm
      exact ⟨as ++ bs, s', hp.append hp', hg'⟩

/-- So there is a schedule of any number of rounds, if at the goal all have ended. -/
theorem exists_rounds (hD : Driven step ok who ended goal within drives)
    (hturn : ∀ n s, within n s → ¬ goal s →
      ∃ i as s', drives i s ∧ Path step ok s as s' ∧ ∃ a ∈ as, who a = i)
    (hend : ∀ i s, goal s → ended i s) (k : ℕ) (hn : within n s) : ∃ s', Rounds step ok who ended k s s' := by
  cases k with
  | zero => exact ⟨s, .zero⟩
  | succ k =>
    obtain ⟨as, s', hp, hg⟩ := hD.reaches hturn n s hn
    have hidle : Round step ok who ended s' s' := ⟨[], .nil, fun i => Or.inl (hend i s' hg)⟩
    have hrest : ∀ k, Rounds step ok who ended k s' s' := fun k => by
      induction k with
      | zero => exact .zero
      | succ k ih => exact .succ hidle ih
    exact ⟨s', .succ ⟨as, hp, fun i => Or.inl (hend i s' hg)⟩ (hrest k)⟩

end Driven

end Lts
