/-
# The queues between the threads (`chunkQueue.c`)

A queue holds at most `capacity` chunks, first in first out; that bound is a
field, so no operation has to be shown to keep it. Each queue has one mutex; a
thread that returns while it holds the mutex leaves it locked for good, which
`locked` records. The operations a thread runs under the mutex are single
steps of the model, so the mutex is otherwise free between steps.

`Produces` is what a step of the thread that fills a queue does to it.
-/
import Threefizer.Basic

namespace Threefizer

/-- A queue: its capacity, its chunks from the front on, and whether its mutex
was left locked. -/
structure Queue where
  capacity : ℕ
  elements : List Chunk
  locked : Bool
  bound : elements.length ≤ capacity
  deriving DecidableEq, Repr

namespace Queue

/-- `createQueue`. -/
def createQueue (max_elements : ℕ) : Queue := ⟨max_elements, [], false, Nat.zero_le _⟩

/-- `queueIsFull`. -/
def queueIsFull (q : Queue) : Bool := q.elements.length == q.capacity

/-- `front`: the first chunk, none for a null pointer. -/
def front (q : Queue) : Option Chunk := q.elements.head?

/-- There is room for a chunk. -/
def HasRoom (q : Queue) : Prop := q.elements.length < q.capacity

theorem hasRoom_iff {q : Queue} : q.HasRoom ↔ q.queueIsFull = false := by
  have := q.bound
  simp [HasRoom, queueIsFull]; omega

theorem not_hasRoom_of_full {q : Queue} (hf : q.queueIsFull = true) : ¬ q.HasRoom := fun hr => by
  rw [hasRoom_iff.mp hr] at hf
  cases hf

/-- `enque`; none when it returns false. -/
def enque (c : Chunk) (q : Queue) : Option Queue :=
  if h : q.queueIsFull = false then
    some { q with
      elements := q.elements ++ [c]
      bound := by rw [List.length_append]; exact hasRoom_iff.mpr h }
  else none

/-- `deque`; it returns false, and does nothing, on an empty queue. -/
def deque (q : Queue) : Queue :=
  { q with
    elements := q.elements.tail
    bound := by have := q.bound; rw [List.length_tail]; omega }

/-- `queueDone`. -/
def queueDone (q : Queue) : Option Queue := enque doneChunk q

/-- The mutex stays with a thread that has returned. -/
def abandon (q : Queue) : Queue := { q with locked := true }

/-! ### What the operations do -/

@[simp] theorem deque_elements (q : Queue) : q.deque.elements = q.elements.tail := rfl
@[simp] theorem deque_capacity (q : Queue) : q.deque.capacity = q.capacity := rfl

theorem enque_eq_some {c : Chunk} {q q' : Queue} (h : enque c q = some q') :
    q'.elements = q.elements ++ [c] ∧ q'.capacity = q.capacity ∧ q'.locked = q.locked := by
  unfold enque at h
  split at h
  · cases h; exact ⟨rfl, rfl, rfl⟩
  · cases h

theorem enque_of_room (c : Chunk) {q : Queue} (h : q.HasRoom) : ∃ q', enque c q = some q' :=
  ⟨_, dif_pos (hasRoom_iff.mp h)⟩

theorem enque_ne_none {c : Chunk} {q : Queue} (h : q.HasRoom) : enque c q ≠ none := by
  obtain ⟨q', hq'⟩ := enque_of_room c h
  rw [hq']; exact Option.some_ne_none _

theorem hasRoom_of_enque {c : Chunk} {q q' : Queue} (hq : enque c q = some q') : q.HasRoom := by
  unfold enque at hq
  split at hq
  next hfull => exact hasRoom_iff.mpr hfull
  next => cases hq

/-- Nothing is put in if there is no chunk, or no room for it. -/
theorem bind_enque_eq_none {c : Option Chunk} {q : Queue} (hq : (c.bind fun c => q.enque c) = none) :
    c = none ∨ ¬ q.HasRoom := by
  by_cases hc : c = none
  · exact Or.inl hc
  · obtain ⟨d, rfl⟩ := Option.ne_none_iff_exists'.mp hc
    exact Or.inr fun hr => enque_ne_none hr hq

theorem front_eq_some {q : Queue} {c : Chunk} (h : q.front = some c) :
    q.elements = c :: q.deque.elements := by
  obtain ⟨cap, es, l, hb⟩ := q
  cases es with
  | nil => cases h
  | cons e es => cases h; rfl

theorem front_eq_none {q : Queue} (h : q.front = none) : q.elements = [] := by
  obtain ⟨cap, es, l, hb⟩ := q
  cases es with
  | nil => rfl
  | cons e es => cases h

/-- Taking out leaves room. -/
theorem HasRoom.deque {q : Queue} (h : q.HasRoom) : q.deque.HasRoom := by
  unfold HasRoom at h ⊢
  simp; omega

theorem HasRoom.of_takes {q q' : Queue} (htakes : q' = q ∨ q' = q.deque) (h : q.HasRoom) : q'.HasRoom := by
  rcases htakes with rfl | rfl
  · exact h
  · exact h.deque

/-- The queue holds a chunk `DONE`. -/
def HasDone (q : Queue) : Prop := ∃ c ∈ q.elements, c.action = .DONE

theorem HasDone.of_deque {q : Queue} (h : q.deque.HasDone) : q.HasDone := by
  obtain ⟨c, hc, hd⟩ := h
  exact ⟨c, List.mem_of_mem_tail hc, hd⟩

theorem HasDone.of_takes {q q' : Queue} (htakes : q' = q ∨ q' = q.deque) (h : q'.HasDone) : q.HasDone := by
  rcases htakes with rfl | rfl
  · exact h
  · exact h.of_deque

theorem hasDone_enque {c : Chunk} {q q' : Queue} (hq : enque c q = some q') (h : q'.HasDone) :
    q.HasDone ∨ c.action = .DONE := by
  obtain ⟨d, hd, hdone⟩ := h
  rw [(enque_eq_some hq).1] at hd
  rcases List.mem_append.mp hd with hd | hd
  · exact Or.inl ⟨d, hd, hdone⟩
  · exact Or.inr (List.mem_singleton.mp hd ▸ hdone)

/-! ### How much a queue holds -/

/-- The number of chunks other than `DONE`. -/
def data (q : Queue) : ℕ := q.elements.countP (·.action ≠ .DONE)

theorem data_deque_le (q : Queue) : q.deque.data ≤ q.data :=
  (List.tail_sublist _).countP_le

theorem mem_of_takes {q q' : Queue} {c : Chunk} (htakes : q' = q ∨ q' = q.deque) (hc : c ∈ q'.elements) :
    c ∈ q.elements := by
  rcases htakes with rfl | rfl
  · exact hc
  · exact List.mem_of_mem_tail hc

theorem data_of_takes {q q' : Queue} (htakes : q' = q ∨ q' = q.deque) : q'.data ≤ q.data := by
  rcases htakes with rfl | rfl
  · exact le_rfl
  · exact data_deque_le q

theorem data_front {c : Chunk} {q : Queue} (hf : q.front = some c) (hc : c.action ≠ .DONE) :
    q.deque.data + 1 = q.data := by
  unfold data
  rw [front_eq_some hf, List.countP_cons_of_pos (by simpa using hc)]

theorem data_enque {c : Chunk} {q q' : Queue} (hq : enque c q = some q') :
    q'.data = q.data + [c].countP (·.action ≠ .DONE) := by
  unfold data
  rw [(enque_eq_some hq).1, List.countP_append]

theorem data_enque_le {c : Chunk} {q q' : Queue} (hq : enque c q = some q') : q'.data ≤ q.data + 1 := by
  have := data_enque hq
  have : [c].countP (·.action ≠ .DONE) ≤ 1 := List.countP_le_length
  omega

theorem data_enque_done {q q' : Queue} (hq : enque doneChunk q = some q') : q'.data = q.data :=
  data_enque hq

/-- The queue has the capacity `n`, and no thread has left its mutex locked. -/
def Open (n : ℕ) (q : Queue) : Prop := q.capacity = n ∧ q.locked = false

/-- An empty queue that can hold a chunk has room for one. -/
theorem Open.room {n : ℕ} {q : Queue} (h : q.Open n) (hn : 0 < n) (hel : q.elements = []) : q.HasRoom := by
  rw [HasRoom, hel, h.1]
  exact hn

theorem Open.of_takes {n : ℕ} {q q' : Queue} (htakes : q' = q ∨ q' = q.deque) (h : q.Open n) : q'.Open n := by
  rcases htakes with rfl | rfl <;> exact h

theorem Open.enque {n : ℕ} {c : Chunk} {q q' : Queue} (h : q.Open n) (hq : enque c q = some q') : q'.Open n := by
  obtain ⟨-, hc, hl⟩ := enque_eq_some hq
  exact ⟨hc.trans h.1, hl.trans h.2⟩

/-- A queue without `DONE` that holds little has room. -/
theorem hasRoom_of_data {q : Queue} (hd : ¬ q.HasDone) (hn : q.data < q.capacity) : q.HasRoom := by
  have hall : q.data = q.elements.length :=
    List.countP_eq_length.mpr fun c hc => by simpa using fun h => hd ⟨c, hc, h⟩
  unfold HasRoom
  omega

/-! ### What a producer does to its queue -/

/-- A step of the producer: `put` and `put'` are what it is about to put in
before and after the step. -/
structure Produces (put put' : Option Chunk) (out out' : Queue) : Prop where
  idle : put = none → out' = out
  puts : ∀ c, put = some c → out.HasRoom → out.enque c = some out'
  capacity : out'.capacity = out.capacity
  looks : put' ≠ none → out'.HasRoom

variable {put put' : Option Chunk} {out out' : Queue} {c : Chunk}

/-- Nothing is put in: there is nothing to put, or no room. -/
theorem Produces.of_kept (hput : put = none ∨ ¬ out.HasRoom) (hlooks : put' ≠ none → out.HasRoom) :
    Produces put put' out out where
  idle := fun _ => rfl
  puts := fun c hc hroom => hput.elim (fun hn => absurd (hc.symm.trans hn) (Option.some_ne_none c))
    fun hn => absurd hroom hn
  capacity := rfl
  looks := hlooks

theorem Produces.of_enque (hput : put = some c) (hq : out.enque c = some out')
    (hlooks : put' ≠ none → out'.HasRoom) : Produces put put' out out' where
  idle := fun hn => absurd (hput.symm.trans hn) (Option.some_ne_none c)
  puts := fun d hd _ => by rwa [← Option.some.inj (hput.symm.trans hd)]
  capacity := (enque_eq_some hq).2.1
  looks := hlooks

/-- A `queueDone` that fails. -/
theorem Produces.of_abandon (hput : put = some c) (hroom : ¬ out.HasRoom)
    (hlooks : put' ≠ none → out.abandon.HasRoom) : Produces put put' out out.abandon where
  idle := fun hn => absurd (hput.symm.trans hn) (Option.some_ne_none c)
  puts := fun _ _ h => absurd h hroom
  capacity := rfl
  looks := hlooks

/-- A producer that puts in only where there is room keeps the queue open. -/
theorem Produces.opens {n : ℕ} (h : Produces put put' out out') (hroom : put ≠ none → out.HasRoom)
    (ho : out.Open n) : out'.Open n := by
  by_cases hput : put = none
  · rw [h.idle hput]
    exact ho
  · obtain ⟨c, hc⟩ := Option.ne_none_iff_exists'.mp hput
    exact ho.enque (h.puts c hc (hroom hput))

end Queue

end Threefizer
