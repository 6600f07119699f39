/-
# A bounded channel with one producer

The producer looks whether there is room, without the lock, and only then takes
the lock and puts something in. What it is about to put in, once it has found
room, is `put`.

`Lawful` says that nobody else puts anything in: the consumer takes from the
front, and the other threads leave the channel alone. Then room that is there
stays until the producer's next put (`Lawful.room_kept`), so the put goes
through (`Lawful.keepsRoom`). In particular the producer never stands in front
of a full channel with the lock taken (`Lawful.room_of_put`), and the channel
is never left locked (`Lawful.unlocked`).
-/
import Threefizer.Lib.Lts

namespace Lts

variable {σ α τ β : Type*}

/-- A channel of a system: its two ends, its contents from the front on, whether
it was left locked, and what the producer is about to put in. -/
structure Channel (σ α τ β : Type*) where
  thread : α → τ
  producer : τ
  consumer : τ
  capacity : σ → ℕ
  content : σ → List β
  locked : σ → Bool
  put : σ → Option β

namespace Channel

variable (C : Channel σ α τ β)

def HasRoom (s : σ) : Prop := (C.content s).length < C.capacity s

/-- The action does not put anything in. -/
def NoPut (s : σ) (a : α) : Prop := C.thread a = C.producer → C.put s = none

instance [DecidableEq τ] (s : σ) (a : α) : Decidable (C.NoPut s a) := by
  unfold NoPut; infer_instance

/-- The producer alone puts in, after it has found room; the consumer alone takes out. -/
structure Lawful (step : σ → α → Option σ) : Prop where
  capacity : ∀ {s s' a}, step s a = some s' → C.capacity s' = C.capacity s
  idle : ∀ {s s' a}, step s a = some s' → C.thread a = C.producer → C.put s = none →
    C.content s' = C.content s ∧ C.locked s' = C.locked s
  puts : ∀ {s s' a c}, step s a = some s' → C.thread a = C.producer → C.put s = some c → C.HasRoom s →
    C.content s' = C.content s ++ [c] ∧ C.locked s' = C.locked s
  takes : ∀ {s s' a}, step s a = some s' → C.thread a ≠ C.producer → C.locked s' = C.locked s ∧
    (C.content s' = C.content s ∨ C.thread a = C.consumer ∧ C.content s' = (C.content s).tail)
  looks : ∀ {s s' a}, step s a = some s' → C.put s' ≠ none →
    C.HasRoom s' ∨ C.thread a ≠ C.producer ∧ C.put s ≠ none
  free : ∀ {s c}, C.locked s = false → C.put s = some c → C.HasRoom s →
    ∃ a s', C.thread a = C.producer ∧ step s a = some s'

/-- What the producer puts in next, from `s` on, goes through whatever the
others do until then. -/
def KeepsRoom (step : σ → α → Option σ) (s : σ) : Prop :=
  ∀ s₁ c, Reach step C.NoPut s s₁ → C.put s₁ = some c →
    (∃ a s₂, C.thread a = C.producer ∧ step s₁ a = some s₂) ∧
      ∀ a s₂, C.thread a = C.producer → step s₁ a = some s₂ → C.content s₂ = C.content s₁ ++ [c]

variable {C} {step : σ → α → Option σ} {s₀ s s' : σ} {a : α}

/-! ### One step -/

/-- A step that puts nothing in leaves no less room. -/
theorem Lawful.length_le (hL : C.Lawful step) (hstep : step s a = some s') (ha : C.NoPut s a) :
    (C.content s').length ≤ (C.content s).length := by
  by_cases hprod : C.thread a = C.producer
  · rw [(hL.idle hstep hprod (ha hprod)).1]
  · rcases (hL.takes hstep hprod).2 with h | ⟨-, h⟩
    · rw [h]
    · rw [h, List.length_tail]
      exact Nat.sub_le _ _

theorem Lawful.room_step (hL : C.Lawful step) (hstep : step s a = some s') (ha : C.NoPut s a)
    (hroom : C.HasRoom s) : C.HasRoom s' := by
  have hcap := hL.capacity hstep
  have hlen := hL.length_le hstep ha
  unfold HasRoom at hroom ⊢
  omega

theorem Lawful.locked_step (hL : C.Lawful step) (hstep : step s a = some s')
    (hroom : C.put s ≠ none → C.HasRoom s) : C.locked s' = C.locked s := by
  by_cases hprod : C.thread a = C.producer
  · cases hput : C.put s with
    | none => exact (hL.idle hstep hprod hput).2
    | some c =>
      have hput' : C.put s ≠ none := by
        rw [hput]
        exact Option.some_ne_none c
      exact (hL.puts hstep hprod hput (hroom hput')).2
  · exact (hL.takes hstep hprod).1

/-! ### Runs -/

/-- Room that is there stays until the producer's next put. -/
theorem Lawful.room_kept (hL : C.Lawful step) (hroom : C.HasRoom s) (h : Reach step C.NoPut s s') : C.HasRoom s' :=
  h.invariant hroom fun _ _ _ hroom ha hstep => hL.room_step hstep ha hroom

/-- The room a producer has found is still there when it puts something in. -/
theorem Lawful.room_of_put (hL : C.Lawful step) (h0 : C.put s₀ = none) (h : Reachable step s₀ s) :
    C.put s ≠ none → C.HasRoom s := by
  refine h.invariant (I := fun s => C.put s ≠ none → C.HasRoom s) (fun hput => absurd h0 hput) ?_
  intro s a s' hroom _ hstep hput'
  rcases hL.looks hstep hput' with hroom' | ⟨hprod, hput⟩
  · exact hroom'
  · exact hL.room_step hstep (fun h => absurd h hprod) (hroom hput)

theorem Lawful.unlocked (hL : C.Lawful step) (h0 : C.put s₀ = none) (hopen : C.locked s₀ = false)
    (h : Reachable step s₀ s) : C.locked s = false :=
  h.invariant' (fun _ hs => hL.room_of_put h0 hs) hopen fun _ _ _ hroom hlocked _ hstep =>
    (hL.locked_step hstep hroom).trans hlocked

/-- **Looking before locking is safe.** -/
theorem Lawful.keepsRoom (hL : C.Lawful step) (h0 : C.put s₀ = none) (hopen : C.locked s₀ = false)
    (h : Reachable step s₀ s) (hroom : C.HasRoom s) : C.KeepsRoom step s := by
  intro s₁ c h₁ hput
  have hroom₁ := hL.room_kept hroom h₁
  have hlocked₁ := hL.unlocked h0 hopen (h.trans h₁.reachable)
  exact ⟨hL.free hlocked₁ hput hroom₁, fun a s₂ hprod hstep => (hL.puts hstep hprod hput hroom₁).1⟩

end Channel

end Lts
