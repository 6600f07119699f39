/-
# The queue as it is stored (`chunkQueue.c`)

The array, the two indices and the size as the code keeps them. An access
outside the array gives `none`. `head` starts at 1 and `tail` at 0, and
`enque` moves `tail` on before it stores, so `tail` is the slot just before
the first free one.

`fifo` is what the queue is for: a list of at most `capacity` chunks.
`Represents` links the two, and from two slots on every sequence of calls
keeps it (`chunkQueue_is_fifo`); with one slot `head` starts outside the array
(`indices_in_bounds_iff`). The threads of the other modules use the
bounded list `Queue`; the array queue refines that as well (`call_refines`).
-/
import Threefizer.ChunkQueue
import Threefizer.Lib.Ring

namespace Threefizer

/-- `queue`. -/
structure ArrayQueue where
  capacity : ℕ
  size : ℕ
  head : ℕ
  tail : ℕ
  elements : List (Option Chunk)
  deriving DecidableEq, Repr

namespace ArrayQueue

/-- `elements[i] = v`; none outside the array. -/
def store (elements : List (Option Chunk)) (i : ℕ) (v : Option Chunk) : Option (List (Option Chunk)) :=
  if i < elements.length then some (elements.set i v) else none

/-- `deque`. -/
def deque (q : ArrayQueue) : Option (Bool × ArrayQueue) :=
  if q.size = 0 then some (false, q)
  else (store q.elements q.head none).map fun elements =>
    (true, { q with size := q.size - 1, elements := elements, head := (q.head + 1) % q.capacity })

/-- `enque`; the chunk is none for a null pointer. -/
def enque (chunk : Option Chunk) (q : ArrayQueue) : Option (Bool × ArrayQueue) :=
  if q.size = q.capacity ∨ chunk = none then some (false, q)
  else
    let tail := (q.tail + 1) % q.capacity
    (store q.elements tail chunk).map fun elements =>
      (true, { q with size := q.size + 1, tail := tail, elements := elements })

/-- `queueDone`. -/
def queueDone (q : ArrayQueue) : Option (Bool × ArrayQueue) := enque (some doneChunk) q

/-- `queueIsFull`. -/
def queueIsFull (q : ArrayQueue) : Bool := q.size == q.capacity

/-- `front`. -/
def front (q : ArrayQueue) : Option (Option Chunk) :=
  if q.size > 0 then q.elements[q.head]? else some none

/-- `createQueue`. -/
def createQueue (max_elements : ℕ) : ArrayQueue where
  capacity := max_elements
  size := 0
  head := 1
  tail := 0
  elements := List.replicate max_elements none

/-! ### Calls -/

/-- A call of one of the functions. -/
inductive Call
  | enque (chunk : Option Chunk) | deque | front | queueIsFull | queueDone
  deriving DecidableEq, Repr

/-- What a call returns. -/
inductive Result
  | bool (b : Bool)
  | chunk (c : Option Chunk)
  deriving DecidableEq, Repr

/-- A call of the queue. -/
def call (q : ArrayQueue) : Call → Option (Result × ArrayQueue)
  | .enque c => (enque c q).map fun (b, q') => (.bool b, q')
  | .deque => (deque q).map fun (b, q') => (.bool b, q')
  | .front => (front q).map fun c => (.chunk c, q)
  | .queueIsFull => some (.bool (queueIsFull q), q)
  | .queueDone => (queueDone q).map fun (b, q') => (.bool b, q')

/-- A sequence of calls and what they return. -/
def calls : ArrayQueue → List Call → Option (List Result × ArrayQueue)
  | q, [] => some ([], q)
  | q, c :: cs => (call q c).bind fun (r, q') => (calls q' cs).map fun (rs, q'') => (r :: rs, q'')

/-- A call of a list of at most `N` chunks. -/
def fifo (N : ℕ) (xs : List Chunk) : Call → Result × List Chunk
  | .enque none => (.bool false, xs)
  | .enque (some c) => if xs.length < N then (.bool true, xs ++ [c]) else (.bool false, xs)
  | .deque => if xs = [] then (.bool false, xs) else (.bool true, xs.tail)
  | .front => (.chunk xs.head?, xs)
  | .queueIsFull => (.bool (xs.length == N), xs)
  | .queueDone => if xs.length < N then (.bool true, xs ++ [doneChunk]) else (.bool false, xs)

/-- A sequence of calls of a list. -/
def fifos (N : ℕ) : List Chunk → List Call → List Result × List Chunk
  | xs, [] => ([], xs)
  | xs, c :: cs =>
    let (r, xs') := fifo N xs c
    let (rs, xs'') := fifos N xs' cs
    (r :: rs, xs'')

/-! ### The representation -/

/-- The array holds the list `xs` from `head` on, and `tail` is the slot just
before the first free one. -/
structure Represents (N : ℕ) (xs : List Chunk) (q : ArrayQueue) : Prop where
  capacity : q.capacity = N
  slots : q.elements.length = N
  size : q.size = xs.length
  head : q.head < N
  tail : q.tail < N
  next : (q.tail + 1) % N = (q.head + q.size) % N
  holds : Ring.Holds q.elements q.head xs

variable {N : ℕ} {xs : List Chunk} {q : ArrayQueue}

theorem represents_createQueue (hN : 2 ≤ N) : Represents N [] (createQueue N) where
  capacity := rfl
  slots := List.length_replicate
  size := rfl
  head := hN
  tail := Nat.lt_of_lt_of_le Nat.zero_lt_two hN
  next := rfl
  holds := .empty N 1

theorem store_eq {elements : List (Option Chunk)} {i : ℕ} (hi : i < elements.length) (v : Option Chunk) :
    store elements i v = some (elements.set i v) := if_pos hi

theorem Represents.bound (h : Represents N xs q) : xs.length ≤ N := h.slots ▸ h.holds.bound

/-- There is room exactly as long as the size is not the capacity. -/
theorem Represents.room (h : Represents N xs q) : q.size ≠ q.capacity ↔ xs.length < N := by
  have := h.bound
  rw [h.size, h.capacity]
  omega

/-- With room, `enque` stores the chunk behind the others. -/
theorem Represents.enque (h : Represents N xs q) (hroom : xs.length < N) (c : Chunk) :
    ∃ q', ArrayQueue.enque (some c) q = some (true, q') ∧ Represents N (xs ++ [c]) q' := by
  have hN : 0 < N := by omega
  have htail : (q.tail + 1) % q.capacity < q.elements.length := by
    rw [h.capacity, h.slots]
    exact Nat.mod_lt _ hN
  have hcond : ¬ (q.size = q.capacity ∨ some c = none) := not_or.mpr ⟨h.room.mpr hroom, Option.some_ne_none _⟩
  refine ⟨_, by simp only [ArrayQueue.enque, if_neg hcond, store_eq htail]; rfl, ?_⟩
  have hplace : (q.tail + 1) % q.capacity = (q.head + xs.length) % q.elements.length := by
    rw [h.capacity, h.slots, h.next, h.size]
  exact
    { capacity := h.capacity
      slots := (List.length_set ..).trans h.slots
      size := by rw [List.length_append, ← h.size]; rfl
      head := h.head
      tail := h.slots ▸ htail
      next := by
        show ((q.tail + 1) % q.capacity + 1) % N = (q.head + (q.size + 1)) % N
        rw [h.capacity, h.next, Nat.mod_add_mod, Nat.add_assoc]
      holds := by
        show Ring.Holds (q.elements.set ((q.tail + 1) % q.capacity) (some c)) _ _
        rw [hplace]
        exact h.holds.push (h.slots.symm ▸ hroom) c }

/-- Without room it does nothing. -/
theorem Represents.enque_full (h : Represents N xs q) (hfull : ¬ xs.length < N) (c : Option Chunk) :
    ArrayQueue.enque c q = some (false, q) := by
  rw [ArrayQueue.enque, if_pos (Or.inl (by_contra fun hne => hfull (h.room.mp hne)))]

/-- `deque` takes out the first chunk. -/
theorem Represents.deque {x : Chunk} (h : Represents N (x :: xs) q) :
    ∃ q', ArrayQueue.deque q = some (true, q') ∧ Represents N xs q' := by
  have hsize : q.size = xs.length + 1 := h.size
  have hhead : q.head < q.elements.length := h.slots.symm ▸ h.head
  refine ⟨_, by rw [ArrayQueue.deque, if_neg (by omega), store_eq hhead]; rfl, ?_⟩
  exact
    { capacity := h.capacity
      slots := (List.length_set ..).trans h.slots
      size := by rw [hsize]; rfl
      head := by
        show (q.head + 1) % q.capacity < N
        rw [h.capacity]
        exact Nat.mod_lt _ (Nat.zero_lt_of_lt h.head)
      tail := h.tail
      next := by
        show (q.tail + 1) % N = ((q.head + 1) % q.capacity + (q.size - 1)) % N
        rw [h.next, h.capacity, Nat.mod_add_mod, hsize]
        congr 1
        omega
      holds := by
        have hpop := h.holds.pop.mod
        rw [List.length_set, h.slots, Nat.mod_eq_of_lt h.head, ← h.capacity] at hpop
        exact hpop }

theorem Represents.front (h : Represents N xs q) : ArrayQueue.front q = some xs.head? := by
  unfold ArrayQueue.front
  split
  next => exact h.holds.front (h.slots.symm ▸ h.head)
  next hz =>
    have hnil : xs = [] := List.length_eq_zero_iff.mp (by have := h.size; omega)
    rw [hnil]
    rfl

theorem Represents.queueIsFull (h : Represents N xs q) : ArrayQueue.queueIsFull q = (xs.length == N) := by
  rw [ArrayQueue.queueIsFull, h.size, h.capacity]

theorem Represents.call_enque (h : Represents N xs q) (c : Chunk) :
    ∃ q', ArrayQueue.call q (.enque (some c)) = some ((fifo N xs (.enque (some c))).1, q') ∧
      Represents N (fifo N xs (.enque (some c))).2 q' := by
  by_cases hroom : xs.length < N
  · obtain ⟨q', hq, hR⟩ := h.enque hroom c
    exact ⟨q', by rw [ArrayQueue.call, hq, fifo, if_pos hroom]; rfl, by rwa [fifo, if_pos hroom]⟩
  · exact ⟨q, by rw [ArrayQueue.call, h.enque_full hroom, fifo, if_neg hroom]; rfl, by rwa [fifo, if_neg hroom]⟩

/-- Every call returns what the list returns, and the array holds the list
that is left. -/
theorem Represents.call (h : Represents N xs q) (c : Call) :
    ∃ q', ArrayQueue.call q c = some ((fifo N xs c).1, q') ∧ Represents N (fifo N xs c).2 q' := by
  cases c with
  | enque c =>
    cases c with
    | none => exact ⟨q, by simp [ArrayQueue.call, ArrayQueue.enque, fifo], h⟩
    | some c => exact h.call_enque c
  | queueDone => exact h.call_enque doneChunk
  | deque =>
    cases xs with
    | nil => exact ⟨q, by simp [ArrayQueue.call, ArrayQueue.deque, fifo, h.size], h⟩
    | cons x xs =>
      obtain ⟨q', hq, hR⟩ := h.deque
      exact ⟨q', by simp [ArrayQueue.call, hq, fifo], by simpa [fifo] using hR⟩
  | front => exact ⟨q, by rw [ArrayQueue.call, h.front]; rfl, h⟩
  | queueIsFull => exact ⟨q, by rw [ArrayQueue.call, h.queueIsFull]; rfl, h⟩

/-- So does every sequence of calls. -/
theorem Represents.calls : ∀ (cs : List Call) {xs : List Chunk} {q : ArrayQueue}, Represents N xs q →
    ∃ q', ArrayQueue.calls q cs = some ((fifos N xs cs).1, q') ∧ Represents N (fifos N xs cs).2 q'
  | [], _, q, h => ⟨q, rfl, h⟩
  | c :: cs, xs, q, h => by
    obtain ⟨q', hq, hR⟩ := h.call c
    obtain ⟨q'', hqs, hR'⟩ := Represents.calls cs hR
    exact ⟨q'', by simp only [ArrayQueue.calls, hq, Option.bind_some, hqs]; rfl, hR'⟩

theorem enque_failed {q q' : ArrayQueue} {c : Option Chunk} (h : call q (.enque c) = some (.bool false, q')) :
    q' = q := by
  simp only [call, enque] at h
  split at h
  · cases h; rfl
  · obtain ⟨⟨b, q''⟩, hq, he⟩ := Option.map_eq_some_iff.mp h
    obtain ⟨es, -, hes⟩ := Option.map_eq_some_iff.mp hq
    cases hes
    cases he

/-- A call that fails changes nothing. -/
theorem call_failed {q q' : ArrayQueue} {c : Call} (h : call q c = some (.bool false, q')) : q' = q := by
  cases c with
  | enque c => exact enque_failed h
  | queueDone => exact enque_failed (c := some doneChunk) h
  | deque =>
    simp only [call, deque] at h
    split at h
    · cases h; rfl
    · obtain ⟨⟨b, q''⟩, hq, he⟩ := Option.map_eq_some_iff.mp h
      obtain ⟨es, -, hes⟩ := Option.map_eq_some_iff.mp hq
      cases hes
      cases he
  | front => obtain ⟨c, -, he⟩ := Option.map_eq_some_iff.mp h; cases he
  | queueIsFull => exact (Prod.mk.inj (Option.some.inj h)).2.symm

/-- From two slots on the queue is a first in first out list of at most `N`
chunks: every sequence of calls returns what the list returns, failed calls
change nothing, the slots in use are the `size` slots from `head` on, and
`tail` is the one just before the next. -/
theorem chunkQueue_is_fifo (N : ℕ) (hN : 2 ≤ N) (cs : List Call) :
    ∃ q, calls (createQueue N) cs = some ((fifos N [] cs).1, q) ∧
      q.size = (fifos N [] cs).2.length ∧ q.size ≤ N ∧
      (∀ i < q.size, q.elements[(q.head + i) % N]? = some (fifos N [] cs).2[i]?) ∧
      (∀ j < N, (∃ c, q.elements[j]? = some (some c)) ↔ ∃ i < q.size, j = (q.head + i) % N) ∧
      q.tail < N ∧ (q.tail + 1) % N = (q.head + q.size) % N ∧
      ∀ c q', call q c = some (.bool false, q') → q' = q := by
  obtain ⟨q, hq, hR⟩ := (represents_createQueue hN).calls cs
  have hslots := hR.slots
  refine ⟨q, hq, hR.size, hR.size ▸ hR.bound, fun i hi => ?_, fun j hj => ?_, hR.tail, hR.next,
    fun c q' => call_failed⟩
  · have := hR.bound
    have hi' := hR.size ▸ hi
    have h := hR.holds.slot i (by omega)
    rwa [hslots] at h
  · have h := hR.holds.occupied (hslots.symm ▸ hj)
    rwa [hslots, ← hR.size] at h

theorem chunkQueue_is_fifo_five : ∃ q, calls (createQueue 5)
      [.enque (some doneChunk), .enque none, .front, .deque, .deque] =
        some ((fifos 5 [] [.enque (some doneChunk), .enque none, .front, .deque, .deque]).1, q) ∧ q.size = 0 := by
  obtain ⟨q, hq, hsize, -⟩ := chunkQueue_is_fifo 5 (by decide)
    [.enque (some doneChunk), .enque none, .front, .deque, .deque]
  exact ⟨q, hq, hsize⟩

/-! ### The smallest capacities -/

/-- The indices point into an array of `N` slots. -/
structure InBounds (N : ℕ) (q : ArrayQueue) : Prop where
  slots : q.elements.length = N
  head : q.head < N
  tail : q.tail < N

theorem Represents.inBounds (h : Represents N xs q) : InBounds N q := ⟨h.slots, h.head, h.tail⟩

/-- `createQueue` starts `head` at 1, whatever the capacity. -/
theorem inBounds_createQueue : InBounds N (createQueue N) ↔ 2 ≤ N :=
  ⟨fun h => h.head, fun hN => (represents_createQueue hN).inBounds⟩

/-- **No call leaves the array from two slots on, and only then**: at every
point of a sequence of calls the ones before have returned and both indices
are in the array. -/
theorem indices_in_bounds_iff (N : ℕ) (cs : List Call) :
    (∀ made, made <+: cs → ∃ rs q, calls (createQueue N) made = some (rs, q) ∧ InBounds N q) ↔ 2 ≤ N := by
  constructor
  · intro h
    obtain ⟨rs, q, hq, hb⟩ := h [] List.nil_prefix
    cases hq
    exact inBounds_createQueue.mp hb
  · intro hN made _
    obtain ⟨q, hq, hR⟩ := (represents_createQueue hN).calls made
    exact ⟨_, q, hq, hR.inBounds⟩

/-- With one slot `head` is outside the array from the start, and `front` and
`deque` go there as soon as a chunk is in the queue. -/
theorem one_slot_leaves_array : ¬ InBounds 1 (createQueue 1) ∧
    calls (createQueue 1) [.enque (some doneChunk), .front] = none ∧
    calls (createQueue 1) [.enque (some doneChunk), .deque] = none :=
  ⟨fun h => absurd h.head (by decide), rfl, rfl⟩

/-! ### The bounded list of the threads -/

/-- A call of the queue the threads work with. -/
def queueCall (Q : Queue) : Call → Result × Queue
  | .enque none => (.bool false, Q)
  | .enque (some c) => ((Q.enque c).map fun Q' => (.bool true, Q')).getD (.bool false, Q)
  | .deque => (.bool (Q.elements ≠ []), Q.deque)
  | .front => (.chunk Q.front, Q)
  | .queueIsFull => (.bool Q.queueIsFull, Q)
  | .queueDone => (Q.queueDone.map fun Q' => (.bool true, Q')).getD (.bool false, Q)

theorem queueCall_enque (Q : Queue) (c : Chunk) :
    ((queueCall Q (.enque (some c))).1, (queueCall Q (.enque (some c))).2.elements) =
        fifo Q.capacity Q.elements (.enque (some c)) ∧
      (queueCall Q (.enque (some c))).2.capacity = Q.capacity := by
  by_cases hroom : Q.elements.length < Q.capacity
  · obtain ⟨Q', hQ⟩ := Queue.enque_of_room c hroom
    obtain ⟨he, hcap, -⟩ := Queue.enque_eq_some hQ
    rw [queueCall, hQ, fifo, if_pos hroom]
    exact ⟨congrArg _ he, hcap⟩
  · have hQ : Q.enque c = none := dif_neg fun hf => hroom (Queue.hasRoom_iff.mpr hf)
    rw [queueCall, hQ, fifo, if_neg hroom]
    exact ⟨rfl, rfl⟩

/-- The operations of `Queue` are those of the list. -/
theorem queueCall_eq_fifo (Q : Queue) (c : Call) :
    ((queueCall Q c).1, (queueCall Q c).2.elements) = fifo Q.capacity Q.elements c ∧
      (queueCall Q c).2.capacity = Q.capacity := by
  cases c with
  | enque c =>
    cases c with
    | none => exact ⟨rfl, rfl⟩
    | some c => exact queueCall_enque Q c
  | queueDone => exact queueCall_enque Q doneChunk
  | deque =>
    refine ⟨?_, rfl⟩
    by_cases hnil : Q.elements = []
    · simp [queueCall, fifo, hnil]
    · simp [queueCall, fifo, hnil]
  | front => exact ⟨rfl, rfl⟩
  | queueIsFull => exact ⟨rfl, rfl⟩

/-- The array queue refines the queue of the threads. -/
theorem call_refines {q : ArrayQueue} {Q : Queue} (h : Represents Q.capacity Q.elements q) (c : Call) :
    ∃ q', call q c = some ((queueCall Q c).1, q') ∧
      Represents (queueCall Q c).2.capacity (queueCall Q c).2.elements q' := by
  obtain ⟨hres, hcap⟩ := queueCall_eq_fifo Q c
  obtain ⟨q', hq, hR⟩ := h.call c
  rw [← hres] at hq hR
  exact ⟨q', hq, hcap.symm ▸ hR⟩

end ArrayQueue

end Threefizer
