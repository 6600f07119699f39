/-
# Memory in blocks, with every access checked

A memory is a partial map from addresses to cells; an address is a block and
an offset in it. To read or write a cell that is not allocated gives none. So
a program that runs through has touched allocated cells only.

`At m p xs` says that `xs` is stored from `p` on, `Room` that so many cells
are allocated, `Only R` that nothing outside of `R` has changed. `fill` writes
one cell after the other, with a value that may be read from the memory just
before; copying and mixing in place are instances. `fill_at` says what it
leaves, `fill_shape` that it allocates nothing, `fill_none` when it fails.
-/
import Mathlib.Data.Set.Lattice
import Mathlib.Logic.Function.Basic
import Mathlib.Order.CompletePartialOrder
import Mathlib.Tactic.Common

namespace Heap

variable {β α σ : Type*}

/-! ### Loops that may fail -/

/-- The rounds `0` to `n - 1` of a loop. -/
def loop (body : ℕ → σ → Option σ) : ℕ → σ → Option σ
  | 0, s => some s
  | n + 1, s => (loop body n s).bind (body n)

/-- The loop rule. -/
theorem loop_invariant {f : ℕ → σ → Option σ} (I : ℕ → σ → Prop) {s : σ} (h0 : I 0 s) :
    ∀ n, (∀ i s', i < n → I i s' → ∃ s'', f i s' = some s'' ∧ I (i + 1) s'') →
      ∃ s', loop f n s = some s' ∧ I n s'
  | 0, _ => ⟨s, rfl, h0⟩
  | n + 1, hstep => by
    obtain ⟨s', hs', hI⟩ := loop_invariant I h0 n fun i s' hi => hstep i s' (by omega)
    obtain ⟨s'', hs'', hI'⟩ := hstep n s' (by omega) hI
    exact ⟨s'', by rw [loop, hs']; exact hs'', hI'⟩

/-- What every round keeps is kept. -/
theorem loop_keeps {body : ℕ → σ → Option σ} {P : σ → Prop}
    (hstep : ∀ i s s', body i s = some s' → P s → P s') {s s' : σ} (h0 : P s) :
    ∀ {n}, loop body n s = some s' → P s'
  | 0, h => by cases h; exact h0
  | n + 1, h => by
    obtain ⟨s₁, h1, h2⟩ := Option.bind_eq_some_iff.mp h
    exact hstep n s₁ s' h2 (loop_keeps hstep h0 h1)

/-- A round that fails whatever was done before it. -/
theorem loop_none {body : ℕ → σ → Option σ} {s : σ} {i : ℕ} (hi : ∀ s', loop body i s = some s' → body i s' = none) :
    ∀ {n}, i < n → loop body n s = none
  | 0, h => absurd h (Nat.not_lt_zero _)
  | n + 1, h => by
    by_cases hin : i = n
    · subst hin
      rw [loop, Option.bind_eq_none_iff]
      exact hi
    · rw [loop, loop_none hi (by omega)]
      rfl

/-! ### Addresses and cells -/

/-- An address. -/
@[ext] structure Ptr (β : Type*) where
  block : β
  offset : ℕ
  deriving DecidableEq

/-- So many cells further on in the same block. -/
def Ptr.add (p : Ptr β) (n : ℕ) : Ptr β := ⟨p.block, p.offset + n⟩

theorem Ptr.add_add (p : Ptr β) (m n : ℕ) : (p.add m).add n = p.add (m + n) := by
  simp only [Ptr.add, Nat.add_assoc]

@[simp] theorem Ptr.add_zero (p : Ptr β) : p.add 0 = p := rfl

theorem Ptr.add_inj {p : Ptr β} {m n : ℕ} (h : p.add m = p.add n) : m = n := by
  have := congrArg Ptr.offset h
  exact Nat.add_left_cancel this

/-- The `n` addresses from `p` on. -/
def region (p : Ptr β) (n : ℕ) : Set (Ptr β) :=
  {q | q.block = p.block ∧ p.offset ≤ q.offset ∧ q.offset < p.offset + n}

theorem add_mem_region {p : Ptr β} {n k : ℕ} (h : k < n) : p.add k ∈ region p n :=
  ⟨rfl, Nat.le_add_right _ _, Nat.add_lt_add_left h _⟩

/-- A part of a region. -/
theorem region_subset {p : Ptr β} {k l n : ℕ} (h : k + l ≤ n) : region (p.add k) l ⊆ region p n := by
  rintro q ⟨hb, hle, hlt⟩
  simp only [Ptr.add] at hle hlt
  exact ⟨hb, by omega, by omega⟩

theorem region_mono {p : Ptr β} {k n : ℕ} (h : k ≤ n) : region p k ⊆ region p n :=
  region_subset (k := 0) (by omega)

theorem disjoint_of_block {p q : Ptr β} {m n : ℕ} (h : p.block ≠ q.block) : Disjoint (region p m) (region q n) :=
  Set.disjoint_left.mpr fun _ h1 h2 => h (h1.1.symm.trans h2.1)

theorem disjoint_of_le {p : Ptr β} {k l m n : ℕ} (h : k + m ≤ l) : Disjoint (region (p.add k) m) (region (p.add l) n) := by
  refine Set.disjoint_left.mpr fun q h1 h2 => ?_
  obtain ⟨-, -, hlt⟩ := h1
  obtain ⟨-, hle, -⟩ := h2
  simp only [Ptr.add] at hle hlt
  omega

/-- A memory: the cell at each address that is allocated. -/
abbrev Mem (β α : Type*) := Ptr β → Option α

variable {m m' m'' : Mem β α} {p q : Ptr β} {xs ys : List α} {n k : ℕ} {R S : Set (Ptr β)}

/-- Reading `n` cells. -/
def load (m : Mem β α) (p : Ptr β) : ℕ → Option (List α)
  | 0 => some []
  | n + 1 => (load m p n).bind fun xs => (m (p.add n)).map fun x => xs ++ [x]

/-! ### What is stored where -/

/-- `xs` is stored from `p` on. -/
def At (m : Mem β α) (p : Ptr β) (xs : List α) : Prop := ∀ i x, xs[i]? = some x → m (p.add i) = some x

/-- The `n` cells from `p` on are allocated. -/
def Room (m : Mem β α) (p : Ptr β) (n : ℕ) : Prop := ∀ i, i < n → (m (p.add i)).isSome

/-- The same cells are allocated. -/
def Shape (m m' : Mem β α) : Prop := ∀ q, (m' q).isSome = (m q).isSome

/-- Nothing has changed outside of `R`. -/
def Only (R : Set (Ptr β)) (m m' : Mem β α) : Prop := ∀ q, q ∉ R → m' q = m q

theorem Shape.refl (m : Mem β α) : Shape m m := fun _ => rfl

theorem Shape.trans (h : Shape m m') (h' : Shape m' m'') : Shape m m'' := fun q => (h' q).trans (h q)

theorem Shape.room (h : Shape m m') (hr : Room m p n) : Room m' p n := fun i hi => (h _).trans (hr i hi)

theorem Shape.none (h : Shape m m') (hq : m q = none) : m' q = none := by
  have := h q
  rw [hq] at this
  exact Option.isSome_eq_false_iff.mp this |> Option.isNone_iff_eq_none.mp

theorem Only.refl (R : Set (Ptr β)) (m : Mem β α) : Only R m m := fun _ _ => rfl

theorem Only.trans (h : Only R m m') (h' : Only R m' m'') : Only R m m'' := fun q hq => (h' q hq).trans (h q hq)

theorem Only.mono (hRS : R ⊆ S) (h : Only R m m') : Only S m m' := fun q hq => h q fun hR => hq (hRS hR)

/-- What is not written stays. -/
theorem At.only (h : At m p xs) (hO : Only R m m') (hd : Disjoint (region p xs.length) R) : At m' p xs := by
  intro i x hx
  have hi : i < xs.length := (List.getElem?_eq_some_iff.mp hx).1
  rw [hO _ (Set.disjoint_left.mp hd (add_mem_region hi))]
  exact h i x hx

theorem At.room (h : At m p xs) : Room m p xs.length := fun i hi => by
  rw [h i xs[i] (List.getElem?_eq_getElem hi)]
  rfl

theorem Room.part (h : Room m p n) {l : ℕ} (hkl : k + l ≤ n) : Room m (p.add k) l := fun i hi => by
  rw [Ptr.add_add]
  exact h _ (by omega)

theorem Room.exists_at (h : Room m p n) : ∃ xs, xs.length = n ∧ At m p xs := by
  refine ⟨List.ofFn fun i : Fin n => (m (p.add i)).get (h i i.2), List.length_ofFn, fun i x hx => ?_⟩
  rw [List.getElem?_ofFn] at hx
  split at hx
  · cases hx
    exact (Option.some_get _).symm
  · cases hx

theorem At.drop (h : At m p xs) (k : ℕ) : At m (p.add k) (xs.drop k) := fun i x hx => by
  rw [Ptr.add_add]
  exact h _ x (by rwa [List.getElem?_drop] at hx)

theorem At.take (h : At m p xs) (k : ℕ) : At m p (xs.take k) := fun i x hx =>
  h i x (by
    rw [List.getElem?_take] at hx
    split at hx
    · exact hx
    · cases hx)

theorem At.append (h : At m p xs) (h' : At m (p.add xs.length) ys) : At m p (xs ++ ys) := fun i x hx => by
  by_cases hi : i < xs.length
  · rw [List.getElem?_append_left hi] at hx
    exact h i x hx
  · rw [List.getElem?_append_right (by omega)] at hx
    have := h' _ x hx
    rwa [Ptr.add_add, Nat.add_sub_cancel' (by omega)] at this

theorem length_flatMap_parts {f : ℕ → List α} {w n : ℕ} (hw : ∀ i, i < n → (f i).length = w) :
    ((List.range n).flatMap f).length = n * w := by
  rw [List.length_flatMap, List.map_congr_left fun i hi => hw i (List.mem_range.mp hi), List.map_const',
    List.length_range, List.sum_replicate_nat]

/-- Pieces of one length, one after the other. -/
theorem at_parts {f : ℕ → List α} {w : ℕ} : ∀ {n}, (∀ i, i < n → (f i).length = w) →
    (∀ i, i < n → At m (p.add (i * w)) (f i)) → At m p ((List.range n).flatMap f)
  | 0, _, _ => fun i x hx => by simp at hx
  | n + 1, hw, h => by
    have hw' : ∀ i, i < n → (f i).length = w := fun i hi => hw i (by omega)
    have ih := at_parts hw' fun i hi => h i (by omega)
    rw [List.range_succ, List.flatMap_append]
    refine ih.append ?_
    rw [length_flatMap_parts hw']
    simpa using h n (by omega)

/-! ### Programs that allocate nothing -/

/-- A step that leaves the same cells allocated. -/
def KeepsShape (f : Mem β α → Option (Mem β α)) : Prop := ∀ m m', f m = some m' → Shape m m'

theorem KeepsShape.bind {f g : Mem β α → Option (Mem β α)} (hf : KeepsShape f) (hg : KeepsShape g) :
    KeepsShape fun m => (f m).bind g := fun m m' h => by
  obtain ⟨m₁, h1, h2⟩ := Option.bind_eq_some_iff.mp h
  exact (hf m m₁ h1).trans (hg m₁ m' h2)

/-- A step that depends on what was read. -/
theorem KeepsShape.read {γ : Type*} (v : Mem β α → Option γ) {g : γ → Mem β α → Option (Mem β α)}
    (hg : ∀ x, KeepsShape (g x)) : KeepsShape fun m => (v m).bind fun x => g x m := fun m m' h => by
  obtain ⟨x, -, hx⟩ := Option.bind_eq_some_iff.mp h
  exact hg x m m' hx

theorem KeepsShape.loop {body : ℕ → Mem β α → Option (Mem β α)} (h : ∀ i, KeepsShape (body i)) (n : ℕ) :
    KeepsShape (loop body n) := fun m _ hm =>
  loop_keeps (P := Shape m) (fun i s s' hs hP => hP.trans (h i s s' hs)) (Shape.refl m) hm

/-! ### Reading -/

theorem load_take (h : At m p xs) : ∀ {n}, n ≤ xs.length → load m p n = some (xs.take n)
  | 0, _ => rfl
  | n + 1, hn => by
    rw [load, load_take h (by omega), Option.bind_some, h n xs[n] (List.getElem?_eq_getElem (by omega)),
      Option.map_some, List.take_succ_eq_append_getElem (by omega)]

/-- What is stored is read. -/
theorem load_at (h : At m p xs) : load m p xs.length = some xs := by
  rw [load_take h le_rfl, List.take_length]

/-! ### Writing -/

variable [DecidableEq β]

/-- Writing one cell. -/
def write (m : Mem β α) (p : Ptr β) (x : α) : Option (Mem β α) :=
  if (m p).isSome then some (Function.update m p (some x)) else none

/-- Writing `n` cells, each with what `g` makes of the memory before it is written. -/
def fill (g : ℕ → Mem β α → Option α) (p : Ptr β) (n : ℕ) (m : Mem β α) : Option (Mem β α) :=
  loop (fun i m => (g i m).bind (write m (p.add i))) n m

/-- Writing a list. -/
def store (p : Ptr β) (xs : List α) (m : Mem β α) : Option (Mem β α) := fill (fun i _ => xs[i]?) p xs.length m

/-- `for (i = 0; i < n; i++) dest[i] = f(dest[i], src[i]);` -/
def combine (f : α → α → α) (dest src : Ptr β) (n : ℕ) (m : Mem β α) : Option (Mem β α) :=
  fill (fun i m => (m (dest.add i)).bind fun d => (m (src.add i)).map (f d)) dest n m

theorem write_room (h : (m p).isSome) (x : α) : write m p x = some (Function.update m p (some x)) := if_pos h

theorem write_shape {x : α} (h : write m p x = some m') : Shape m m' := by
  unfold write at h
  split at h
  next hp =>
    cases h
    intro q
    by_cases hq : q = p
    · subst hq
      rw [Function.update_self, hp]
      rfl
    · rw [Function.update_of_ne hq]
  next => cases h

theorem fill_shape (g : ℕ → Mem β α → Option α) (p : Ptr β) (n : ℕ) : KeepsShape (fill g p n) :=
  KeepsShape.loop (fun i m m' h => by
    obtain ⟨x, -, hx⟩ := Option.bind_eq_some_iff.mp h
    exact write_shape hx) n

/-- What `fill` leaves, if `g` finds its value whatever was filled before. -/
theorem fill_at {g : ℕ → Mem β α → Option α} (hroom : Room m p xs.length)
    (hg : ∀ i m', i < xs.length → Only (region p i) m m' → g i m' = xs[i]?) :
    ∃ m', fill g p xs.length m = some m' ∧ At m' p xs ∧ Only (region p xs.length) m m' := by
  obtain ⟨m', hm', hat, honly, -⟩ := loop_invariant (f := fun i m => (g i m).bind (write m (p.add i)))
    (I := fun i m' => At m' p (xs.take i) ∧ Only (region p i) m m' ∧ Shape m m') (s := m)
    ⟨fun i x hx => by simp at hx, Only.refl _ _, Shape.refl _⟩ xs.length fun i m' hi ⟨hat, honly, hshape⟩ => by
      have hcell : (m' (p.add i)).isSome := (hshape _).trans (hroom i hi)
      have hw := write_room hcell xs[i]
      refine ⟨_, by rw [hg i m' hi honly, List.getElem?_eq_getElem hi]; exact hw, ?_, ?_,
        hshape.trans (write_shape hw)⟩
      · intro j x hx
        rw [List.getElem?_take] at hx
        split at hx
        next hj =>
          by_cases hji : j = i
          · subst hji
            rw [Function.update_self, ← hx, List.getElem?_eq_getElem hi]
          · rw [Function.update_of_ne fun h => hji (Ptr.add_inj h)]
            exact hat j x (by rw [List.getElem?_take, if_pos (by omega)]; exact hx)
        next => cases hx
      · intro q hq
        have hne : q ≠ p.add i := fun h => hq (h ▸ add_mem_region (Nat.lt_succ_self i))
        rw [Function.update_of_ne hne]
        exact honly q fun h => hq (region_mono (by omega) h)
  rw [List.take_length] at hat
  exact ⟨m', hm', hat, honly⟩

/-- `fill` fails if a cell it has to write is not there, or a value. -/
theorem fill_none {g : ℕ → Mem β α → Option α} (hk : k < n)
    (h : ∀ m', Shape m m' → g k m' = none ∨ m' (p.add k) = none) : fill g p n m = none := by
  refine loop_none (fun m' hm' => ?_) hk
  rcases h m' (fill_shape g p _ m m' hm') with h | h
  · rw [h]
    rfl
  · rw [Option.bind_eq_none_iff]
    intro x _
    rw [write, h]
    rfl

theorem store_at (hroom : Room m p xs.length) :
    ∃ m', store p xs m = some m' ∧ At m' p xs ∧ Only (region p xs.length) m m' :=
  fill_at hroom fun _ _ _ _ => rfl

theorem store_shape (p : Ptr β) (xs : List α) : KeepsShape (store p xs) := fill_shape _ _ _

/-- Two regions that do not overlap. -/
theorem combine_at {f : α → α → α} {ds ss : List α} (hd : At m p ds) (hs : At m q ss) (hl : ds.length = ss.length)
    (hdisj : Disjoint (region p ds.length) (region q ss.length)) :
    ∃ m', combine f p q ds.length m = some m' ∧ At m' p (List.zipWith f ds ss) ∧
      Only (region p ds.length) m m' := by
  have hlen : (List.zipWith f ds ss).length = ds.length := by simp [hl]
  have hroom : Room m p (List.zipWith f ds ss).length := by
    rw [hlen]
    exact hd.room
  have hfill := fill_at (g := fun i m => (m (p.add i)).bind fun d => (m (q.add i)).map (f d)) hroom
    fun i m' hi honly => ?_
  · rw [hlen] at hfill
    exact hfill
  · rw [hlen] at hi
    have hi' : i < ss.length := hl ▸ hi
    have hp : p.add i ∉ region p i := fun h => by
      have := h.2.2
      simp only [Ptr.add] at this
      omega
    have hq : q.add i ∉ region p i := fun h =>
      Set.disjoint_right.mp hdisj (add_mem_region hi') (region_mono hi.le h)
    rw [honly _ hp, honly _ hq, hd i ds[i] (List.getElem?_eq_getElem hi), hs i ss[i] (List.getElem?_eq_getElem hi')]
    simp [hi, hi']

theorem combine_shape (f : α → α → α) (p q : Ptr β) (n : ℕ) : KeepsShape (combine f p q n) := fill_shape _ _ _

/-- A cell that is read or written is not there. -/
theorem combine_none {f : α → α → α} (hk : k < n) (h : m (p.add k) = none ∨ m (q.add k) = none) :
    combine f p q n m = none :=
  fill_none hk fun m' hshape => Or.inl (by
    rcases h with h | h
    · rw [hshape.none h]
      rfl
    · rw [hshape.none h]
      cases m' (p.add k) <;> rfl)

end Heap
