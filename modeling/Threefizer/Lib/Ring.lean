/-
# Circular buffers

A circular buffer of `N` slots keeps a list from a slot `head` on, going round
at the end; the slots it does not need are empty. `Holds slots head xs` says
so slot by slot: the slot `i` places after `head` holds the element `i` of
`xs`, for every `i < N`, so every slot of the buffer is spoken of once.

* `Holds.empty`, `Holds.push`, `Holds.pop`: the buffer without elements, an
  element more at the end, one less at the front.
* `Holds.front`: the slot `head`.
* `Holds.occupied`: which slots are not empty.
-/
import Mathlib.Data.Nat.ModEq
import Mathlib.Data.List.Basic

namespace Ring

variable {α : Type*}

/-- The slots of a buffer of `N` slots, each counted once from `head` on. -/
theorem place_inj {N head i j : ℕ} (hi : i < N) (hj : j < N) (h : (head + i) % N = (head + j) % N) : i = j :=
  Nat.ModEq.eq_of_lt_of_lt (Nat.ModEq.add_left_cancel' head h) hi hj

theorem place_surj {N j : ℕ} (head : ℕ) (hj : j < N) : ∃ i < N, (head + i) % N = j := by
  have hlt : head % N < N := Nat.mod_lt _ (by omega)
  refine ⟨(j + (N - head % N)) % N, Nat.mod_lt _ (by omega), ?_⟩
  calc (head + (j + (N - head % N)) % N) % N = (head % N + (j + (N - head % N))) % N := by
        rw [Nat.add_mod_mod, Nat.mod_add_mod]
    _ = (j + N) % N := by congr 1; omega
    _ = j := by rw [Nat.add_mod_right, Nat.mod_eq_of_lt hj]

/-- The slots hold `xs` from `head` on, and nothing else. -/
structure Holds (slots : List (Option α)) (head : ℕ) (xs : List α) : Prop where
  bound : xs.length ≤ slots.length
  slot : ∀ i < slots.length, slots[(head + i) % slots.length]? = some xs[i]?

variable {slots : List (Option α)} {head : ℕ} {xs : List α}

theorem Holds.empty (N head : ℕ) : Holds (List.replicate N (none : Option α)) head [] where
  bound := Nat.zero_le _
  slot := fun i hi => by
    rw [List.length_replicate] at hi
    rw [List.length_replicate, List.getElem?_replicate, if_pos (Nat.mod_lt _ (by omega))]
    rfl

/-- The head counts round the buffer. -/
theorem Holds.mod (h : Holds slots head xs) : Holds slots (head % slots.length) xs where
  bound := h.bound
  slot := fun i hi => by rw [Nat.mod_add_mod]; exact h.slot i hi

/-- The slot `head` holds the first element. -/
theorem Holds.front (h : Holds slots head xs) (hlt : head < slots.length) : slots[head]? = some xs.head? := by
  have h0 := h.slot 0 (by omega)
  rwa [Nat.add_zero, Nat.mod_eq_of_lt hlt, ← List.head?_eq_getElem?] at h0

/-- One element more goes into the slot after the last. -/
theorem Holds.push (h : Holds slots head xs) (hroom : xs.length < slots.length) (x : α) :
    Holds (slots.set ((head + xs.length) % slots.length) (some x)) head (xs ++ [x]) where
  bound := by rw [List.length_set, List.length_append]; exact hroom
  slot := fun i hi => by
    rw [List.length_set] at hi ⊢
    by_cases hx : i = xs.length
    · rw [hx, List.getElem?_set_self (Nat.mod_lt _ (by omega)), List.getElem?_concat_length]
    · have hne : (head + xs.length) % slots.length ≠ (head + i) % slots.length :=
        fun he => hx (place_inj hroom hi he).symm
      rw [List.getElem?_set_ne hne, h.slot i hi]
      rcases lt_or_gt_of_ne hx with hlt | hgt
      · rw [List.getElem?_append_left hlt]
      · rw [List.getElem?_eq_none hgt.le, List.getElem?_eq_none (by rw [List.length_append]; exact hgt)]

/-- The first element is taken out and its slot emptied. -/
theorem Holds.pop {x : α} (h : Holds slots head (x :: xs)) :
    Holds (slots.set (head % slots.length) none) (head + 1) xs where
  bound := by rw [List.length_set]; exact (Nat.le_succ _).trans h.bound
  slot := fun i hi => by
    have hb : xs.length + 1 ≤ slots.length := h.bound
    rw [List.length_set] at hi ⊢
    rw [Nat.add_assoc, Nat.add_comm 1 i]
    by_cases hlast : i + 1 = slots.length
    · -- the slot that has just been emptied
      have hplace : (head + (i + 1)) % slots.length = head % slots.length := by
        rw [hlast, Nat.add_mod_right]
      rw [hplace, List.getElem?_set_self (Nat.mod_lt _ (by omega)), List.getElem?_eq_none (by omega)]
    · have hlt : i + 1 < slots.length := by omega
      have hne : (head + 0) % slots.length ≠ (head + (i + 1)) % slots.length := fun he =>
        absurd (place_inj (by omega) hlt he) (by omega)
      rw [Nat.add_zero] at hne
      rw [List.getElem?_set_ne hne, h.slot _ hlt, List.getElem?_cons_succ]

/-- The slots that are not empty are the first `xs.length` from `head` on. -/
theorem Holds.occupied (h : Holds slots head xs) {j : ℕ} (hj : j < slots.length) :
    (∃ x, slots[j]? = some (some x)) ↔ ∃ i < xs.length, j = (head + i) % slots.length := by
  obtain ⟨i, hi, rfl⟩ := place_surj head hj
  rw [h.slot i hi]
  constructor
  · rintro ⟨x, hx⟩
    obtain ⟨hlt, -⟩ := List.getElem?_eq_some_iff.mp (Option.some.inj hx)
    exact ⟨i, hlt, rfl⟩
  · rintro ⟨k, hk, he⟩
    cases place_inj hi (hk.trans_le h.bound) he
    exact ⟨xs[i], by rw [List.getElem?_eq_getElem hk]⟩

end Ring
