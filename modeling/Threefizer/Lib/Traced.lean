/-
# Computations that leave a trace

A `Traced` computation is what the first rounds of a program do: the events in
their order, and the result, none if the program has not ended by then. A
program with loops is a family of them, one for each bound on the rounds; what
holds of the events for every bound holds of every event of the program,
whether it ends or not.
-/
import Mathlib.Data.List.Basic
import Mathlib.Tactic.Common

/-- The events so far, and the result if there is one. -/
structure Traced (ε α : Type*) where
  events : List ε
  result : Option α

namespace Traced

variable {ε α β : Type*}

/-- No rounds are left. -/
def stuck : Traced ε α := ⟨[], none⟩

/-- The end, with a result. -/
def done (a : α) : Traced ε α := ⟨[], some a⟩

/-- An event, and then `x`. -/
def emit (e : ε) (x : Traced ε α) : Traced ε α := ⟨e :: x.events, x.result⟩

/-- First `x`, then what follows its result. -/
def bind (x : Traced ε α) (f : α → Traced ε β) : Traced ε β :=
  match x.result with
  | some a => ⟨x.events ++ (f a).events, (f a).result⟩
  | none => ⟨x.events, none⟩

/-- Every event meets `P`. -/
def All (P : ε → Prop) (x : Traced ε α) : Prop := ∀ e ∈ x.events, P e

variable {P : ε → Prop}

theorem all_stuck : All P (stuck : Traced ε α) := fun _ h => by cases h

theorem all_done (a : α) : All P (done a : Traced ε α) := fun _ h => by cases h

@[simp] theorem all_emit {e : ε} {x : Traced ε α} : All P (emit e x) ↔ P e ∧ All P x :=
  List.forall_mem_cons

theorem all_bind {x : Traced ε α} {f : α → Traced ε β} (hx : All P x) (hf : ∀ a, x.result = some a → All P (f a)) :
    All P (x.bind f) := by
  unfold bind
  split
  next a ha => exact fun e he => (List.mem_append.mp he).elim (hx e) (hf a ha e)
  next => exact hx

end Traced
