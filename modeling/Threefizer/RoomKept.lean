/-
# Looking for room without the lock

Every producer reads `queueIsFull` outside the lock and calls `enque` or
`queueDone` under it, and trusts the first for the second. The controller gives
each queue one producer and one consumer, so each queue of either pipeline is a
channel in the sense of `Threefizer/Lib/Channel.lean`: the room a thread has
seen is there when it puts something in (`checked_put_succeeds`). So no
`queueDone` fails, no thread returns with a mutex locked, and `generateMAC`
never fails to queue the tag (`Unfailing`).

`decryptQueue` looks once more under the lock before it queues a chunk. It
calls `enque` only if it finds room then, which is what its `put` says.
-/
import Threefizer.FirstError
import Threefizer.Lib.Channel

namespace Threefizer

open Words Queue

/-! ### A queue as a channel -/

namespace Queue

/-- A step of another thread, the consumer or not. -/
structure Leaves (consumes : Prop) (put put' : Option Chunk) (q q' : Queue) : Prop where
  takes : q' = q ∨ consumes ∧ q' = q.deque
  looks : put' ≠ none → q'.HasRoom ∨ put ≠ none

theorem Leaves.of_same {consumes : Prop} {put : Option Chunk} {q : Queue} : Leaves consumes put put q q :=
  ⟨Or.inl rfl, Or.inr⟩

/-- The consumer takes out what is in front, or nothing. -/
theorem Leaves.of_takes {put put' : Option Chunk} {q q' : Queue} {τ : Type*} {t : τ}
    (htakes : q' = q ∨ q' = q.deque) (hlooks : put' ≠ none → q'.HasRoom ∨ put ≠ none) :
    Leaves (t = t) put put' q q' where
  takes := htakes.imp id fun h => ⟨rfl, h⟩
  looks := hlooks

variable {σ α τ : Type*}

/-- The channel of a queue. -/
def channel (thread : α → τ) (producer consumer : τ) (queue : σ → Queue) (put : σ → Option Chunk) :
    Lts.Channel σ α τ Chunk where
  thread := thread
  producer := producer
  consumer := consumer
  capacity s := (queue s).capacity
  content s := (queue s).elements
  locked s := (queue s).locked
  put := put

theorem channel_lawful {step : σ → α → Option σ} {thread : α → τ} {producer consumer : τ} {queue : σ → Queue}
    {put : σ → Option Chunk}
    (hproduces : ∀ {s s' a}, step s a = some s' → thread a = producer →
      Produces (put s) (put s') (queue s) (queue s'))
    (hleaves : ∀ {s s' a}, step s a = some s' → thread a ≠ producer →
      Leaves (thread a = consumer) (put s) (put s') (queue s) (queue s'))
    (hfree : ∀ {s c}, (queue s).locked = false → put s = some c →
      ∃ a s', thread a = producer ∧ step s a = some s') :
    (channel thread producer consumer queue put).Lawful step where
  capacity := by
    intro s s' a hstep
    by_cases hprod : thread a = producer
    · exact (hproduces hstep hprod).capacity
    · rcases (hleaves hstep hprod).takes with h | ⟨-, h⟩
      · exact congrArg Queue.capacity h
      · have hcap := congrArg Queue.capacity h
        exact hcap
  idle := by
    intro s s' a hstep hprod hput
    have h := (hproduces hstep hprod).idle hput
    exact ⟨congrArg Queue.elements h, congrArg Queue.locked h⟩
  puts := by
    intro s s' a c hstep hprod hput hroom
    obtain ⟨hel, -, hlocked⟩ := enque_eq_some ((hproduces hstep hprod).puts c hput hroom)
    exact ⟨hel, hlocked⟩
  takes := by
    intro s s' a hstep hprod
    rcases (hleaves hstep hprod).takes with h | ⟨hcons, h⟩
    · exact ⟨congrArg Queue.locked h, Or.inl (congrArg Queue.elements h)⟩
    · have hlocked := congrArg Queue.locked h
      exact ⟨hlocked, Or.inr ⟨hcons, congrArg Queue.elements h⟩⟩
  looks := by
    intro s s' a hstep hput'
    by_cases hprod : thread a = producer
    · exact Or.inl ((hproduces hstep hprod).looks hput')
    · exact ((hleaves hstep hprod).looks hput').imp id fun hput => ⟨hprod, hput⟩
  free := fun hlocked hput _ => hfree hlocked hput

end Queue

/-! ### The pipelines -/

namespace EncryptRun

/-- The three queues. -/
inductive Wire
  | crypto | mac | write
  deriving DecidableEq, Repr

/-- The thread whose `out` the queue is. -/
def Wire.producer : Wire → Thread
  | .crypto => .read
  | .mac => .crypt
  | .write => .mac

/-- The thread whose `in` the queue is. -/
def Wire.consumer : Wire → Thread
  | .crypto => .crypt
  | .mac => .mac
  | .write => .write

variable {J : Job}

def State.queue (s : State J) : Wire → Queue
  | .crypto => s.crypto_queue
  | .mac => s.mac_queue
  | .write => s.write_queue

/-- What the producer of a queue is about to put in. -/
def State.put (s : State J) : Wire → Option Chunk
  | .crypto => Reader.put s.read
  | .mac => EncryptThread.put s.crypt
  | .write => GenerateThread.put s.mac

/-- A queue as a channel of the pipeline. -/
def channel (w : Wire) : Lts.Channel (State J) (Thread × Outcome) Thread Chunk :=
  Queue.channel Prod.fst w.producer w.consumer (State.queue · w) (State.put · w)

variable {s s' : State J} {t : Thread} {w : Wire}

theorem Moves.produces (h : Moves s t s') (ht : t = w.producer) :
    Produces (s.put w) (s'.put w) (s.queue w) (s'.queue w) := by
  subst ht
  cases w with
  | crypto => cases h with | read h => exact h.produces
  | mac => cases h with | crypt h => exact h.produces
  | write => cases h with | mac h => exact h.produces

theorem Moves.leaves (h : Moves s t s') (ht : t ≠ w.producer) :
    Leaves (t = w.consumer) (s.put w) (s'.put w) (s.queue w) (s'.queue w) := by
  cases w with
  | crypto =>
    cases h with
    | read h => exact absurd rfl ht
    | crypt h => exact .of_takes h.takes Or.inr
    | mac h => exact .of_same
    | write h => exact .of_same
  | mac =>
    cases h with
    | read h => exact .of_same
    | crypt h => exact absurd rfl ht
    | mac h => exact .of_takes h.takes Or.inr
    | write h => exact .of_same
  | write =>
    cases h with
    | read h => exact .of_same
    | crypt h => exact .of_same
    | mac h => exact absurd rfl ht
    | write h => exact .of_takes h.takes Or.inr

/-- The lock is the only thing that can keep a producer from putting in. -/
theorem step_of_put {c : Chunk} (hlocked : (s.queue w).locked = false) (hput : s.put w = some c) :
    ∃ (a : Thread × Outcome) (s' : State J), a.1 = w.producer ∧ step s a = some s' := by
  cases w with
  | crypto =>
    have hstep : ∃ x, (reader J).step s.read s.fl s.crypto_queue .success = some x :=
      Reader.step_of_put hput hlocked
    obtain ⟨x, hx⟩ := hstep
    exact ⟨(.read, .success), _, rfl, Option.map_eq_some_iff.mpr ⟨x, hx, rfl⟩⟩
  | mac =>
    have hstep : ∃ x, EncryptThread.step J.tf J.tf_key s.crypt s.fl s.crypto_queue s.mac_queue .success = some x :=
      EncryptThread.step_of_put hput hlocked
    obtain ⟨x, hx⟩ := hstep
    exact ⟨(.crypt, .success), _, rfl, Option.map_eq_some_iff.mpr ⟨x, hx, rfl⟩⟩
  | write =>
    have hstep : ∃ x, GenerateThread.step J.mac_context s.mac s.fl s.mac_queue s.write_queue = some x :=
      GenerateThread.step_of_put hput hlocked
    obtain ⟨x, hx⟩ := hstep
    exact ⟨(.mac, .success), _, rfl, Option.map_eq_some_iff.mpr ⟨x, hx, rfl⟩⟩

/-- Each queue has one producer and one consumer. -/
theorem wire_lawful (w : Wire) : (channel (J := J) w).Lawful step :=
  channel_lawful (fun hstep ht => (moves_of_step hstep).produces ht)
    (fun hstep ht => (moves_of_step hstep).leaves ht) step_of_put

/-- No producer puts in anything at the start, and the queues are not locked. -/
theorem start_idle {fs : FileSystem} {s₀ : State J} (h : start J fs = some s₀) (w : Wire) :
    s₀.put w = none ∧ (s₀.queue w).locked = false := by
  obtain ⟨q, hq⟩ := start_eq h
  cases w with
  | crypto =>
    refine ⟨by rw [hq]; rfl, ?_⟩
    unfold start at h
    split at h
    next q hheader =>
      cases h
      exact queueHeader_locked hheader
    next => cases h
  | mac => rw [hq]; exact ⟨rfl, rfl⟩
  | write => rw [hq]; exact ⟨rfl, rfl⟩

/-- The branches for a queue that has no room after all are not taken. -/
structure Unfailing (s : State J) : Prop where
  read : s.read.pc = .queueDone → s.crypto_queue.queueDone ≠ none
  crypt : s.crypt.pc = .queueDone → s.mac_queue.queueDone ≠ none
  mac : s.mac.pc = .queueDone → s.write_queue.queueDone ≠ none
  tag : s.mac.pc = .enqueMac → (s.mac.mac_chunk.bind fun c => s.write_queue.enque c) ≠ none
  code : ¬ errorWord.Names s .QUEUE_OPERATION_FAIL
  unlocked : ∀ w, (s.queue w).locked = false

theorem failure_ne (s : State J) (a : Thread × Outcome) : errorWord.failure s a ≠ some .QUEUE_OPERATION_FAIL := by
  obtain ⟨t, o⟩ := a
  cases t with
  | read => exact Reader.failure_ne _ _ _
  | crypt => exact EncryptThread.failure_ne _ _ _ _
  | mac => exact GenerateThread.failure_ne _ _
  | write => exact WriteThread.failure_ne _ _

theorem start_not_named {fs : FileSystem} {s₀ : State J} (h : start J fs = some s₀) (code : Error) :
    ¬ errorWord.Names s₀ code := by
  obtain ⟨q, rfl⟩ := start_eq h
  rintro (hc | ⟨t, hc⟩)
  · cases hc
  · cases t <;> cases hc

/-- A producer that is about to put in a chunk finds room. -/
theorem room_of_put {fs : FileSystem} {s₀ : State J} (h0 : start J fs = some s₀)
    (h : Lts.Reachable step s₀ s) (hput : s.put w ≠ none) : (s.queue w).HasRoom :=
  (wire_lawful w).room_of_put (start_idle h0 w).1 h hput

theorem reachable_unfailing {fs : FileSystem} {s₀ : State J} (h0 : start J fs = some s₀)
    (h : Lts.Reachable step s₀ s) : Unfailing s where
  read := fun hp => enque_ne_none (room_of_put (w := .crypto) h0 h (by simp [State.put, Reader.put, hp]))
  crypt := fun hp => enque_ne_none (room_of_put (w := .mac) h0 h (by simp [State.put, EncryptThread.put, hp]))
  mac := fun hp => enque_ne_none (room_of_put (w := .write) h0 h (by simp [State.put, GenerateThread.put, hp]))
  tag := fun hp => by
    obtain ⟨c, hc⟩ := Option.ne_none_iff_exists'.mp ((reachable_rooms h0 h).tagged (Or.inr hp))
    rw [hc, Option.bind_some]
    exact enque_ne_none (room_of_put (w := .write) h0 h (by simp [State.put, GenerateThread.put, hp, hc]))
  code := errorWord_lawful.not_names (fun _ => reachable_rooms h0) failure_ne (start_not_named h0 _) h
  unlocked := fun w => (wire_lawful w).unlocked (start_idle h0 w).1 (start_idle h0 w).2 h

end EncryptRun

namespace DecryptRun

/-- The three queues. -/
inductive Wire
  | mac | crypto | write
  deriving DecidableEq, Repr

/-- The thread whose `out` the queue is. -/
def Wire.producer : Wire → Thread
  | .mac => .read
  | .crypto => .mac
  | .write => .crypt

/-- The thread whose `in` the queue is. -/
def Wire.consumer : Wire → Thread
  | .mac => .mac
  | .crypto => .crypt
  | .write => .write

variable {J : Job}

def State.queue (s : State J) : Wire → Queue
  | .mac => s.mac_queue
  | .crypto => s.crypto_queue
  | .write => s.write_queue

/-- What the producer of a queue is about to put in. -/
def State.put (s : State J) : Wire → Option Chunk
  | .mac => Reader.put s.read
  | .crypto => AuthThread.put s.mac
  | .write => DecryptThread.put s.crypt s.write_queue

/-- A queue as a channel of the pipeline. -/
def channel (w : Wire) : Lts.Channel (State J) (Thread × Outcome) Thread Chunk :=
  Queue.channel Prod.fst w.producer w.consumer (State.queue · w) (State.put · w)

variable {s s' : State J} {t : Thread} {w : Wire}

theorem Moves.produces (h : Moves s t s') (ht : t = w.producer) :
    Produces (s.put w) (s'.put w) (s.queue w) (s'.queue w) := by
  subst ht
  cases w with
  | mac => cases h with | read h => exact h.produces
  | crypto => cases h with | mac h => exact h.produces
  | write => cases h with | crypt h => exact h.produces

theorem Moves.leaves (h : Moves s t s') (ht : t ≠ w.producer) :
    Leaves (t = w.consumer) (s.put w) (s'.put w) (s.queue w) (s'.queue w) := by
  cases w with
  | mac =>
    cases h with
    | read h => exact absurd rfl ht
    | mac h => exact .of_takes h.takes Or.inr
    | crypt h => exact .of_same
    | write h => exact .of_same
  | crypto =>
    cases h with
    | read h => exact .of_same
    | mac h => exact absurd rfl ht
    | crypt h => exact .of_takes h.takes Or.inr
    | write h => exact .of_same
  | write =>
    cases h with
    | read h => exact .of_same
    | mac h => exact .of_same
    | crypt h => exact absurd rfl ht
    | write h =>
      -- the writer may make the room that `decryptQueue` looks for under the lock
      exact .of_takes h.takes fun hput => (DecryptThread.room_or_done hput).imp id DecryptThread.put_of_done

/-- The lock is the only thing that can keep a producer from putting in. -/
theorem step_of_put {c : Chunk} (hlocked : (s.queue w).locked = false) (hput : s.put w = some c) :
    ∃ (a : Thread × Outcome) (s' : State J), a.1 = w.producer ∧ step s a = some s' := by
  cases w with
  | mac =>
    have hstep : ∃ x, (reader J).step s.read s.fl s.mac_queue .success = some x := Reader.step_of_put hput hlocked
    obtain ⟨x, hx⟩ := hstep
    exact ⟨(.read, .success), _, rfl, Option.map_eq_some_iff.mpr ⟨x, hx, rfl⟩⟩
  | crypto =>
    have hstep : ∃ x, AuthThread.step J.tf J.tf_key J.mac_context s.mac s.fl s.mac_queue s.crypto_queue .success =
        some x := AuthThread.step_of_put hput hlocked
    obtain ⟨x, hx⟩ := hstep
    exact ⟨(.mac, .success), _, rfl, Option.map_eq_some_iff.mpr ⟨x, hx, rfl⟩⟩
  | write =>
    have hstep : ∃ x, DecryptThread.step J.tf J.tf_key s.crypt s.fl s.crypto_queue s.write_queue .success = some x :=
      DecryptThread.step_of_put hput hlocked
    obtain ⟨x, hx⟩ := hstep
    exact ⟨(.crypt, .success), _, rfl, Option.map_eq_some_iff.mpr ⟨x, hx, rfl⟩⟩

/-- Each queue has one producer and one consumer. -/
theorem wire_lawful (w : Wire) : (channel (J := J) w).Lawful step :=
  channel_lawful (fun hstep ht => (moves_of_step hstep).produces ht)
    (fun hstep ht => (moves_of_step hstep).leaves ht) step_of_put

/-- No producer puts in anything at the start, and the queues are not locked. -/
theorem start_idle (fs : FileSystem) (w : Wire) :
    (start J fs).put w = none ∧ ((start J fs).queue w).locked = false := by
  cases w <;> exact ⟨rfl, rfl⟩

/-- The branches for a queue that has no room after all are not taken. -/
structure Unfailing (s : State J) : Prop where
  read : s.read.pc = .queueDone → s.mac_queue.queueDone ≠ none
  mac : s.mac.pc = .queueDone → s.crypto_queue.queueDone ≠ none
  crypt : s.crypt.pc = .queueDone → s.write_queue.queueDone ≠ none
  code : ¬ errorWord.Names s .QUEUE_OPERATION_FAIL
  unlocked : ∀ w, (s.queue w).locked = false

theorem failure_ne (s : State J) (a : Thread × Outcome) : errorWord.failure s a ≠ some .QUEUE_OPERATION_FAIL := by
  obtain ⟨t, o⟩ := a
  cases t with
  | read => exact Reader.failure_ne _ _ _
  | mac => exact AuthThread.failure_ne _ _ _ _ _ _ _
  | crypt => exact DecryptThread.failure_ne _ _
  | write => exact WriteThread.failure_ne _ _

theorem start_not_named (fs : FileSystem) (code : Error) : ¬ errorWord.Names (start J fs) code := by
  rintro (hc | ⟨t, hc⟩)
  · cases hc
  · cases t <;> cases hc

/-- A producer that is about to put in a chunk finds room. -/
theorem room_of_put {fs : FileSystem} (h : Lts.Reachable step (start J fs) s) (hput : s.put w ≠ none) :
    (s.queue w).HasRoom :=
  (wire_lawful w).room_of_put (start_idle fs w).1 h hput

theorem reachable_unfailing {fs : FileSystem} (h : Lts.Reachable step (start J fs) s) : Unfailing s where
  read := fun hp => enque_ne_none (room_of_put (w := .mac) h (by simp [State.put, Reader.put, hp]))
  mac := fun hp => enque_ne_none (room_of_put (w := .crypto) h (by simp [State.put, AuthThread.put, hp]))
  crypt := fun hp => enque_ne_none (room_of_put (w := .write) h (by simp [State.put, DecryptThread.put, hp]))
  code := errorWord_lawful.not_names (fun _ => reachable_rooms) failure_ne (start_not_named fs _) h
  unlocked := fun w => (wire_lawful w).unlocked (start_idle fs w).1 (start_idle fs w).2 h

end DecryptRun

/-- **Looking for room without the lock is safe.** In every state of every run
of either pipeline, a queue that is not full has room for what its producer
puts in next, whatever the other threads do until then, and the branches for a
failed `queueDone` or a tag that is not queued are not taken. -/
theorem checked_put_succeeds (J : Job) (fs : FileSystem) :
    (∀ s₀ s, EncryptRun.start J fs = some s₀ → Lts.Reachable EncryptRun.step s₀ s →
      (∀ w, (s.queue w).queueIsFull = false → (EncryptRun.channel w).KeepsRoom EncryptRun.step s) ∧
        EncryptRun.Unfailing s) ∧
    (∀ s, Lts.Reachable DecryptRun.step (DecryptRun.start J fs) s →
      (∀ w, (s.queue w).queueIsFull = false → (DecryptRun.channel w).KeepsRoom DecryptRun.step s) ∧
        DecryptRun.Unfailing s) := by
  constructor
  · intro s₀ s h0 h
    refine ⟨fun w hroom => ?_, EncryptRun.reachable_unfailing h0 h⟩
    obtain ⟨hput, hlocked⟩ := EncryptRun.start_idle h0 w
    exact (EncryptRun.wire_lawful w).keepsRoom hput hlocked h (hasRoom_iff.mpr hroom)
  · intro s h
    refine ⟨fun w hroom => ?_, DecryptRun.reachable_unfailing h⟩
    obtain ⟨hput, hlocked⟩ := DecryptRun.start_idle (J := J) fs w
    exact (DecryptRun.wire_lawful w).keepsRoom hput hlocked h (hasRoom_iff.mpr hroom)

namespace DecryptRun

/-- The reader finds room behind the header, the header is taken out and the
reader goes on. -/
theorem checked_put_succeeds_sample :
    (∃ s₀ : EncryptRun.State (Skein3fish.sampleJob true Skein3fish.sampleFile),
      EncryptRun.start _ (fun _ => none) = some s₀ ∧ EncryptRun.Unfailing s₀) ∧
    ∃ s s₁ s₂ : State (Skein3fish.sampleJob false Skein3fish.sampleFile), ∃ c,
      Lts.Reachable step (start _ fun _ => none) s ∧ s.read.pc = .queueIsFull ∧ s.mac_queue.queueIsFull = false ∧
      Lts.Reach step (channel .mac).NoPut s s₁ ∧ s₁.read.pc = .enque ∧
      (∃ a : Thread × Outcome, a.1 = .read ∧ step s₁ a = some s₂) ∧
      s₂.mac_queue.elements = s₁.mac_queue.elements ++ [c] := by
  constructor
  · have hstart : (EncryptRun.start (Skein3fish.sampleJob true Skein3fish.sampleFile)
        fun _ => none).isSome = true := by
      decide +kernel
    obtain ⟨s₀, h0⟩ := Option.isSome_iff_exists.mp hstart
    exact ⟨s₀, h0, ((checked_put_succeeds (Skein3fish.sampleJob true Skein3fish.sampleFile) _).1 s₀ s₀ h0 .refl).2⟩
  · have hrun : (Lts.run step (fun _ _ => True)
        (start (Skein3fish.sampleJob false Skein3fish.sampleFile) fun _ => none) (steps .read 7)).any
          (fun s => decide (s.read.pc = .queueIsFull ∧ s.mac_queue.queueIsFull = false) &&
            (Lts.run step (channel .mac).NoPut s (steps .mac 3 ++ steps .read 1)).any
              (fun s₁ => decide (s₁.read.pc = .enque ∧ s₁.put .mac ≠ none))) = true := by
      decide +kernel
    obtain ⟨s, s₁, hs, hlook, hs₁, hput⟩ := Lts.Reach.of_runs_any hrun
    obtain ⟨hpc, hroom⟩ := of_decide_eq_true hlook
    obtain ⟨hpc₁, hput⟩ := of_decide_eq_true hput
    obtain ⟨c, hc⟩ := Option.ne_none_iff_exists'.mp hput
    have hkeeps := ((checked_put_succeeds (Skein3fish.sampleJob false Skein3fish.sampleFile) _).2 s hs).1 .mac hroom
    obtain ⟨⟨a, s₂, ha, hstep⟩, hall⟩ := hkeeps s₁ c hs₁ hc
    exact ⟨s, s₁, s₂, c, hs, hpc, hroom, hs₁, hpc₁, ⟨a, ha, hstep⟩, hall a s₂ ha hstep⟩

end DecryptRun

end Threefizer
