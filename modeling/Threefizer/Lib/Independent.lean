/-
# Steps of different kinds in any order

A list of steps is done one after the other. Each step has a kind, and steps of
different kinds commute. Two lists with the same steps of every kind in the
same order (`SameKinds`) differ only by exchanges of steps of different kinds:
a step can be moved to the front of what stands before it (`foldl_to_front`),
so both lists lead to the same state (`SameKinds.foldl_eq`).
-/
import Mathlib.Data.List.Basic
import Mathlib.Tactic.Common

namespace Independent

variable {σ α κ : Type*} [DecidableEq κ] (kind : α → κ)

/-- The same steps of every kind, in the same order. -/
def SameKinds (l l' : List α) : Prop := ∀ k, l.filter (fun a => kind a = k) = l'.filter fun a => kind a = k

variable {kind} {l l' : List α}

theorem SameKinds.symm (h : SameKinds kind l l') : SameKinds kind l' l := fun k => (h k).symm

theorem SameKinds.mem (h : SameKinds kind l l') {a : α} (ha : a ∈ l) : a ∈ l' := by
  have hf : a ∈ l.filter fun b => kind b = kind a := List.mem_filter.mpr ⟨ha, by simp⟩
  rw [h (kind a)] at hf
  exact (List.mem_filter.mp hf).1

/-- The first step of one list stands in the other behind steps of other kinds. -/
theorem SameKinds.split {a : α} (h : SameKinds kind (a :: l) l') :
    ∃ u v, l' = u ++ a :: v ∧ (∀ b ∈ u, kind b ≠ kind a) ∧ SameKinds kind l (u ++ v) := by
  have ha : l'.filter (fun b => kind b = kind a) = a :: l.filter fun b => kind b = kind a := by
    rw [← h (kind a), List.filter_cons_of_pos (by simp)]
  obtain ⟨u, v, rfl, hu, -, hv⟩ := List.filter_eq_cons_iff.mp ha
  refine ⟨u, v, rfl, fun b hb => by simpa using hu b hb, fun k => ?_⟩
  by_cases hk : kind a = k
  · subst hk
    have hnone : u.filter (fun b => kind b = kind a) = [] := List.filter_eq_nil_iff.mpr hu
    rw [List.filter_append, hnone, hv, List.nil_append]
  · have hskip := h k
    rwa [List.filter_cons_of_neg (by simpa using hk), List.filter_append, List.filter_cons_of_neg (by simpa using hk),
      ← List.filter_append] at hskip

variable {f : σ → α → σ} (hcomm : ∀ s a b, kind a ≠ kind b → f (f s a) b = f (f s b) a)
include hcomm

omit [DecidableEq κ] in
/-- A step commutes with steps of other kinds. -/
theorem foldl_to_front {a : α} : ∀ {u : List α}, (∀ b ∈ u, kind b ≠ kind a) → ∀ (v : List α) (s : σ),
    (u ++ a :: v).foldl f s = (a :: (u ++ v)).foldl f s
  | [], _, _, _ => rfl
  | b :: u, hu, v, s => by
    have ih := foldl_to_front (u := u) (fun c hc => hu c (List.mem_cons_of_mem _ hc)) v (f s b)
    rw [List.cons_append, List.foldl_cons, ih, List.foldl_cons, hcomm s b a (hu b List.mem_cons_self)]
    rfl

/-- **The order between steps of different kinds makes no difference.** -/
theorem SameKinds.foldl_eq (h : SameKinds kind l l') (s : σ) : l.foldl f s = l'.foldl f s := by
  induction l generalizing l' s with
  | nil =>
    have hnil : l' = [] := List.eq_nil_iff_forall_not_mem.mpr fun a ha => List.not_mem_nil (h.symm.mem ha)
    rw [hnil]
  | cons a l ih =>
    obtain ⟨u, v, rfl, hu, hrest⟩ := h.split
    rw [foldl_to_front hcomm hu, List.foldl_cons, List.foldl_cons]
    exact ih hrest (f s a)

end Independent
