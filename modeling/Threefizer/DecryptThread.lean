/-
# The decrypting thread (`decryptQueue` of `cryptoThread.c`)

The thread takes the chain out of the first chunk, which is the header and is
dropped, decrypts the others and puts them out; after the chunk `DONE` it puts
in `DONE` itself. Decryption overwrites the ciphertext whose last block is the
chain of the next chunk, so that block is kept in one of two buffers, chosen
by the parity of the number of chunks. `decryptQueue` is what the thread puts
out when it is run alone.
-/
import Threefizer.ReadThread
import Threefizer.CbcMode

namespace Threefizer

open Words Queue

/-- What `decryptQueue` carries from chunk to chunk. -/
structure DecryptState where
  header : Bool
  chain_even : List Word
  chain_odd : List Word
  decrypt_count : ℕ
  deriving DecidableEq, Repr

namespace DecryptThread

variable (tf : Threefish) (tf_key : ThreefishKey)

/-- The state of the loop when it starts. -/
def DecryptState.init : DecryptState :=
  ⟨true, List.replicate (tf_key.stateSize.bits / 8) 0, List.replicate (tf_key.stateSize.bits / 8) 0, 0⟩

/-- The chain out of the header. -/
def stripHeader (st : DecryptState) (c : Chunk) : DecryptState :=
  { st with header := false, chain_even := getChainInBuffer c.data 2 tf_key.stateSize }

/-- The decryption of a data chunk; none when `getNumBlocks` does not return. -/
def decryptChunk (st : DecryptState) (c : Chunk) : Option (Chunk × DecryptState) :=
  (getNumBlocks c.data_size tf_key.stateSize).map fun num_blocks =>
    let even := st.decrypt_count % 2 == 0
    let chain := getChainInBuffer c.data num_blocks tf_key.stateSize
    let data := decryptInPlace tf tf_key (if even then st.chain_even else st.chain_odd) c.data num_blocks
    ({ c with data := data },
      { st with
        chain_even := if even then st.chain_even else chain
        chain_odd := if even then chain else st.chain_odd
        decrypt_count := add64 st.decrypt_count 1 })

/-- `decryptQueue` alone on the chunks of its input queue: what it puts out,
none when it does not return. -/
def decryptQueue (st : DecryptState) : List Chunk → Option (List Chunk)
  | [] => none
  | c :: cs =>
    if c.action = .DONE then some [doneChunk]
    else if st.header then decryptQueue (stripHeader tf_key st c) cs
    else (decryptChunk tf tf_key st c).bind fun (e, st') => (decryptQueue st' cs).map (e :: ·)

/-! ### The thread -/

/-- Where the thread stands. -/
inductive Pc
  | alloc
  | fail (code : Error)
  | testRunning | testError | fetch | tryEnque
  | doneIsFull | queueDone
  | returned
  deriving DecidableEq, Repr

/-- The local variables. -/
structure Local where
  pc : Pc
  st : DecryptState
  decrypted : Bool
  decrypt_chunk : Option Chunk
  deriving DecidableEq, Repr

def Local.init : Local := ⟨.alloc, DecryptState.init tf_key, false, none⟩

/-- What is done with a chunk up to the attempt to queue it. -/
def work (l : Local) (c : Chunk) : Option Local :=
  if c.action = .DONE then some { l with pc := .doneIsFull, decrypt_chunk := none }
  else if l.st.header then
    some { l with pc := .testRunning, st := stripHeader tf_key l.st c, decrypt_chunk := none }
  else if l.decrypted then some { l with pc := .tryEnque, decrypt_chunk := some c }
  else (decryptChunk tf tf_key l.st c).map fun (e, st) => ⟨.tryEnque, st, true, some e⟩

/-- One step of the thread; the outcome is that of the `calloc`s. -/
def step (l : Local) (fl : Flags) (inq out : Queue) (o : Outcome) :
    Option (Local × Flags × Queue × Queue) :=
  match l.pc with
  | .alloc =>
    match o with
    | .success => some ({ l with pc := .testRunning }, fl, inq, out)
    | .failure _ => some ({ l with pc := .fail .MEMORY_ALLOCATION_FAIL }, fl, inq, out)
  | .fail code => some ({ l with pc := .returned }, { fl with error := some code }, inq, out)
  | .testRunning =>
    some ({ l with pc := if fl.running then .testError else .doneIsFull }, fl, inq, out)
  | .testError =>
    if fl.error = none then
      match l.decrypt_chunk with
      | none => some ({ l with pc := .fetch }, fl, inq, out)
      | some c => (work tf tf_key l c).map fun l' => (l', fl, inq, out)
    else some ({ l with pc := .doneIsFull }, fl, inq, out)
  | .fetch =>
    if inq.locked then none
    else match inq.front with
      | none => some ({ l with pc := .testRunning }, fl, inq, out)
      | some c => (work tf tf_key { l with decrypted := false } c).map fun l' =>
          (l', fl, inq.deque, out)
  | .tryEnque =>
    if out.locked then none
    else match l.decrypt_chunk.bind fun c => out.enque c with
      | some out' =>
        some ({ l with pc := .testRunning, decrypt_chunk := none, decrypted := false }, fl, inq, out')
      | none => some ({ l with pc := .testRunning }, fl, inq, out)
  | .doneIsFull =>
    some ({ l with pc := if out.queueIsFull then .doneIsFull else .queueDone }, fl, inq, out)
  | .queueDone =>
    if out.locked then none
    else match out.queueDone with
      | some out' => some ({ l with pc := .returned }, fl, inq, out')
      | none => some ({ l with pc := .fail .QUEUE_OPERATION_FAIL }, fl, inq, out.abandon)
  | .returned => none

/-- The chunks the thread has still to put out if nothing stops it and `ins`
is what it is given. -/
def Rest (l : Local) (ins outs : List Chunk) : Prop :=
  match l.pc with
  | .alloc | .fetch => l.decrypt_chunk = none ∧ decryptQueue tf tf_key l.st ins = some outs
  | .testRunning | .testError =>
    (l.decrypt_chunk = none ∧ decryptQueue tf tf_key l.st ins = some outs) ∨
    (l.st.header = false ∧ l.decrypted = true ∧ ∃ c os, l.decrypt_chunk = some c ∧
      c.action ≠ .DONE ∧ decryptQueue tf tf_key l.st ins = some os ∧ outs = c :: os)
  | .tryEnque => l.st.header = false ∧ l.decrypted = true ∧ ∃ c os, l.decrypt_chunk = some c ∧
      c.action ≠ .DONE ∧ decryptQueue tf tf_key l.st ins = some os ∧ outs = c :: os
  | .fail _ => True
  | .doneIsFull | .queueDone => outs = [doneChunk]
  | .returned => outs = []

/-- The only producer of a queue still has the room it has seen. -/
def Ready (l : Local) (out : Queue) : Prop := l.pc = .queueDone → out.HasRoom

/-! ### The moves of the thread -/

/-- What `work` leaves of a chunk, and where. -/
inductive Worked (l : Local) (c : Chunk) : Local → Prop
  | done : c.action = .DONE → Worked l c { l with pc := .doneIsFull, decrypt_chunk := none }
  | stripped : c.action ≠ .DONE → l.st.header = true →
      Worked l c { l with pc := .testRunning, st := stripHeader tf_key l.st c, decrypt_chunk := none }
  | again : c.action ≠ .DONE → l.st.header = false → l.decrypted = true →
      Worked l c { l with pc := .tryEnque, decrypt_chunk := some c }
  | decrypted {e : Chunk} {st : DecryptState} : c.action ≠ .DONE → l.st.header = false →
      l.decrypted = false → decryptChunk tf tf_key l.st c = some (e, st) →
      Worked l c ⟨.tryEnque, st, true, some e⟩

/-- The branches of `step`. -/
inductive Moves (l : Local) (fl : Flags) (inq out : Queue) : Local → Flags → Queue → Queue → Prop
  | allocated : l.pc = .alloc → Moves l fl inq out { l with pc := .testRunning } fl inq out
  | notAllocated : l.pc = .alloc →
      Moves l fl inq out { l with pc := .fail .MEMORY_ALLOCATION_FAIL } fl inq out
  | failed {code : Error} : l.pc = .fail code →
      Moves l fl inq out { l with pc := .returned } { fl with error := some code } inq out
  | running : l.pc = .testRunning → fl.running = true →
      Moves l fl inq out { l with pc := .testError } fl inq out
  | stopped : l.pc = .testRunning → fl.running = false →
      Moves l fl inq out { l with pc := .doneIsFull } fl inq out
  | empty : l.pc = .testError → fl.error = none → l.decrypt_chunk = none →
      Moves l fl inq out { l with pc := .fetch } fl inq out
  | kept {c : Chunk} {l' : Local} : l.pc = .testError → fl.error = none → l.decrypt_chunk = some c →
      Worked tf tf_key l c l' → Moves l fl inq out l' fl inq out
  | error : l.pc = .testError → fl.error ≠ none →
      Moves l fl inq out { l with pc := .doneIsFull } fl inq out
  | nothing : l.pc = .fetch → inq.locked = false → inq.front = none →
      Moves l fl inq out { l with pc := .testRunning } fl inq out
  | taken {c : Chunk} {l' : Local} : l.pc = .fetch → inq.locked = false → inq.front = some c →
      Worked tf tf_key { l with decrypted := false } c l' → Moves l fl inq out l' fl inq.deque out
  | queued {c : Chunk} {out' : Queue} : l.pc = .tryEnque → out.locked = false →
      l.decrypt_chunk = some c → out.enque c = some out' →
      Moves l fl inq out { l with pc := .testRunning, decrypt_chunk := none, decrypted := false }
        fl inq out'
  | notQueued : l.pc = .tryEnque → out.locked = false → (l.decrypt_chunk = none ∨ ¬ out.HasRoom) →
      Moves l fl inq out { l with pc := .testRunning } fl inq out
  | doneFull : l.pc = .doneIsFull → out.queueIsFull = true → Moves l fl inq out l fl inq out
  | doneRoom : l.pc = .doneIsFull → out.HasRoom →
      Moves l fl inq out { l with pc := .queueDone } fl inq out
  | doneQueued {out' : Queue} : l.pc = .queueDone → out.locked = false →
      out.enque doneChunk = some out' → Moves l fl inq out { l with pc := .returned } fl inq out'
  | doneNotQueued : l.pc = .queueDone → out.locked = false → ¬ out.HasRoom →
      Moves l fl inq out { l with pc := .fail .QUEUE_OPERATION_FAIL } fl inq out.abandon

variable {tf tf_key} {l l' : Local} {fl fl' : Flags} {inq inq' out out' : Queue} {o : Outcome}

theorem worked_of_work {c : Chunk} (h : work tf tf_key l c = some l') : Worked tf tf_key l c l' := by
  unfold work at h
  split at h
  next hd => cases h; exact .done hd
  next hd =>
    split at h
    next hh => cases h; exact .stripped hd hh
    next hh =>
      have hh' : l.st.header = false := by simpa using hh
      split at h
      next he => cases h; exact .again hd hh' he
      next he =>
        obtain ⟨⟨e, st⟩, hc, hx⟩ := Option.map_eq_some_iff.mp h
        cases hx
        exact .decrypted hd hh' (by simpa using he) hc

theorem moves_of_step (h : step tf tf_key l fl inq out o = some (l', fl', inq', out')) :
    Moves tf tf_key l fl inq out l' fl' inq' out' := by
  obtain ⟨pc, st, de, dc⟩ := l
  cases pc with
  | alloc =>
    cases o <;> cases h
    · exact .allocated rfl
    · exact .notAllocated rfl
  | fail code => cases h; exact .failed rfl
  | testRunning =>
    cases h
    cases hr : fl.running with
    | true => exact .running rfl hr
    | false => exact .stopped rfl hr
  | testError =>
    simp only [step] at h
    split at h
    next he =>
      cases dc with
      | none => cases h; exact .empty rfl he rfl
      | some c =>
        obtain ⟨x, hx, hy⟩ := Option.map_eq_some_iff.mp h
        cases hy; exact .kept rfl he rfl (worked_of_work hx)
    next he => cases h; exact .error rfl he
  | fetch =>
    simp only [step] at h
    split at h
    · cases h
    next hl =>
      have hl' : inq.locked = false := by simpa using hl
      split at h
      next hf => cases h; exact .nothing rfl hl' hf
      next c hf =>
        obtain ⟨x, hx, hy⟩ := Option.map_eq_some_iff.mp h
        cases hy; exact .taken rfl hl' hf (worked_of_work hx)
  | tryEnque =>
    simp only [step] at h
    split at h
    · cases h
    next hl =>
      have hl' : out.locked = false := by simpa using hl
      split at h
      next hq =>
        obtain ⟨c, hc, hq'⟩ := Option.bind_eq_some_iff.mp hq
        cases h; exact .queued rfl hl' hc hq'
      next hq =>
        cases h; exact .notQueued rfl hl' (bind_enque_eq_none hq)
  | doneIsFull =>
    simp only [step] at h
    cases hf : out.queueIsFull with
    | true => rw [hf] at h; cases h; exact .doneFull rfl hf
    | false => rw [hf] at h; cases h; exact .doneRoom rfl (hasRoom_iff.mpr hf)
  | queueDone =>
    simp only [step] at h
    split at h
    · cases h
    next hl =>
      have hl' : out.locked = false := by simpa using hl
      split at h
      next hq => cases h; exact .doneQueued rfl hl' hq
      next hq => cases h; exact .doneNotQueued rfl hl' fun hr => enque_ne_none hr hq
  | returned => cases h

/-! ### What a step keeps -/

/-- The thread changes no flag but the error word, and never clears that. -/
theorem Moves.flags (h : Moves tf tf_key l fl inq out l' fl' inq' out') :
    fl' = fl ∨ ∃ code, fl' = { fl with error := some code } := by
  cases h <;> first | exact Or.inl rfl | exact Or.inr ⟨_, rfl⟩

/-- It only takes chunks out of its input queue. -/
theorem Moves.takes (h : Moves tf tf_key l fl inq out l' fl' inq' out') :
    inq' = inq ∨ inq' = inq.deque := by
  cases h <;> first | exact Or.inl rfl | exact Or.inr rfl

/-- An error is set by a thread that is at a `fail`. -/
theorem Moves.keeps_error (h : Moves tf tf_key l fl inq out l' fl' inq' out') (hl : ∀ code, l.pc ≠ .fail code) :
    fl'.error = fl.error := by
  cases h with
  | failed hp => exact absurd hp (hl _)
  | _ => rfl

/-- The next thread only makes room. -/
theorem Ready.of_takes (htakes : out' = out ∨ out' = out.deque) (h : Ready l out) : Ready l out' :=
  fun hp => (h hp).of_takes htakes

theorem Moves.ready (h : Moves tf tf_key l fl inq out l' fl' inq' out') : Ready l' out' := by
  intro hp
  cases h with
  | doneRoom _ hr => exact hr
  | kept _ _ _ hw => cases hw <;> simp at hp
  | taken _ _ _ hw => cases hw <;> simp at hp
  | doneFull h1 _ => simp [h1] at hp
  | _ => simp at hp

/-- What the thread is about to put into its queue: a chunk only if the queue is
not full, which it looks up under the lock. -/
def put (l : Local) (out : Queue) : Option Chunk :=
  match l.pc with
  | .tryEnque => if out.queueIsFull then none else l.decrypt_chunk
  | .queueDone => some doneChunk
  | _ => none

theorem room_or_done (h : put l out ≠ none) : out.HasRoom ∨ l.pc = .queueDone := by
  obtain ⟨pc, st, de, dc⟩ := l
  cases pc with
  | tryEnque =>
    simp only [put] at h
    split at h
    · exact absurd rfl h
    next hf => exact Or.inl (hasRoom_iff.mpr (by simpa using hf))
  | queueDone => exact Or.inr rfl
  | _ => exact absurd rfl h

theorem put_of_done (hp : l.pc = .queueDone) : put l out ≠ none := by
  rw [put, hp]
  exact Option.some_ne_none _

theorem Moves.produces (h : Moves tf tf_key l fl inq out l' fl' inq' out') :
    Produces (put l out) (put l' out') out out' := by
  have hlooks : put l' out' ≠ none → out'.HasRoom := fun hput => (room_or_done hput).elim id h.ready
  cases h with
  | queued hp _ hc hq =>
    have hroom := hasRoom_iff.mp (hasRoom_of_enque hq)
    exact .of_enque (by simp only [put, hp, hroom, Bool.false_eq_true, if_false, hc]) hq hlooks
  | notQueued hp _ hn => exact .of_kept (hn.imp (fun hn => by simp [put, hp, hn]) id) hlooks
  | doneQueued hp _ hq => exact .of_enque (by rw [put, hp]) hq hlooks
  | doneNotQueued hp _ hn => exact .of_abandon (by rw [put, hp]) hn hlooks
  | _ => exact .of_kept (Or.inl (by simp [put, *])) hlooks

theorem step_of_put {c : Chunk} (hput : put l out = some c) (hlock : out.locked = false) :
    ∃ x, step tf tf_key l fl inq out .success = some x := by
  obtain ⟨pc, st, de, dc⟩ := l
  cases pc with
  | tryEnque => cases hq : dc.bind fun c => out.enque c <;> simp [step, hlock, hq]
  | queueDone => cases hq : out.queueDone <;> simp [step, hlock, hq]
  | _ => cases hput

/-- What leads to a `fail`. -/
theorem step_fail {code : Error} (h : step tf tf_key l fl inq out o = some (l', fl', inq', out'))
    (hr : Ready l out) (hf : l'.pc = .fail code) : l.pc = .alloc ∧ o ≠ .success := by
  cases moves_of_step h with
  | notAllocated hp =>
    refine ⟨hp, ?_⟩
    rintro rfl
    simp [step, hp] at h
  | doneNotQueued hp _ hn => exact absurd (hr hp) hn
  | kept _ _ _ hw => cases hw <;> cases hf
  | taken _ _ _ hw => cases hw <;> cases hf
  | doneFull hp _ => rw [hp] at hf; cases hf
  | _ => cases hf

/-- The thread has no chunk and is not past its loop. -/
def Idle (l : Local) : Prop :=
  l.decrypt_chunk = none ∧ l.pc ≠ .tryEnque ∧ l.pc ≠ .doneIsFull ∧ l.pc ≠ .queueDone

/-- An undisturbed thread without input stays idle. -/
theorem Moves.idle (h : Moves tf tf_key l fl inq out l' fl' inq' out') (hrun : fl.running = true)
    (herr : fl.error = none) (hempty : inq.elements = []) (hidle : Idle l) :
    Idle l' ∧ inq' = inq ∧ out' = out := by
  obtain ⟨hc, h1, h2, h3⟩ := hidle
  cases h with
  | stopped _ hr => exact absurd (hrun.symm.trans hr) (by decide)
  | error _ he => exact absurd herr he
  | kept _ _ hc' _ => rw [hc] at hc'; cases hc'
  | taken _ _ hf _ => rw [front_eq_some hf] at hempty; cases hempty
  | queued hp _ _ _ => exact absurd hp h1
  | notQueued hp _ _ => exact absurd hp h1
  | doneFull hp _ => exact absurd hp h2
  | doneRoom hp _ => exact absurd hp h2
  | doneQueued hp _ _ => exact absurd hp h3
  | doneNotQueued hp _ _ => exact absurd hp h3
  | _ => exact ⟨⟨hc, nofun, nofun, nofun⟩, rfl, rfl⟩

theorem decryptChunk_action {st st' : DecryptState} {c e : Chunk}
    (h : decryptChunk tf tf_key st c = some (e, st')) :
    e.action = c.action ∧ st'.header = st.header := by
  obtain ⟨n, -, hx⟩ := Option.map_eq_some_iff.mp h
  cases hx; exact ⟨rfl, rfl⟩

/-- While nothing disturbs it, the thread moves what it has still to put out
into its queue. -/
theorem Moves.rest (h : Moves tf tf_key l fl inq out l' fl' inq' out') (hrun : fl.running = true)
    (herr : fl.error = none) (herr' : fl'.error = none) (hroom : Ready l out) {x outs : List Chunk}
    (hR : Rest tf tf_key l (inq.elements ++ x) outs) :
    ∃ outs', Rest tf tf_key l' (inq'.elements ++ x) outs' ∧
      out'.elements ++ outs' = out.elements ++ outs := by
  obtain ⟨pc, st, de, dc⟩ := l
  cases h with
  | allocated hp => cases hp; exact ⟨outs, Or.inl hR, rfl⟩
  | notAllocated hp => exact ⟨outs, trivial, rfl⟩
  | failed hp => cases herr'
  | running hp _ => cases hp; exact ⟨outs, hR, rfl⟩
  | stopped hp h => exact absurd (hrun.symm.trans h) (by decide)
  | empty hp _ hn =>
    cases hp; cases hn
    rcases hR with hR | ⟨-, -, c, -, hc, -⟩
    · exact ⟨outs, hR, rfl⟩
    · cases hc
  | kept hp _ hc hw =>
    cases hp; cases hc
    obtain ⟨hc, -⟩ | ⟨hf, he, c', os, hc, hd, hos, rfl⟩ := hR
    · cases hc
    cases hc
    cases hw with
    | done hd' => exact absurd hd' hd
    | stripped _ hf' => exact absurd (hf.symm.trans hf') (by decide)
    | again _ _ _ => exact ⟨_, ⟨hf, he, _, os, rfl, hd, hos, rfl⟩, rfl⟩
    | decrypted _ _ h _ => exact absurd (he.symm.trans h) (by decide)
  | error hp h => exact absurd herr h
  | nothing hp _ _ => cases hp; exact ⟨outs, Or.inl hR, rfl⟩
  | taken hp _ hfr hw =>
    cases hp
    obtain ⟨hn, hq⟩ := hR
    rw [front_eq_some hfr, List.cons_append, decryptQueue] at hq
    cases hw with
    | done hd =>
      rw [if_pos hd] at hq
      exact ⟨outs, (Option.some.inj hq).symm, rfl⟩
    | stripped hd hh =>
      rw [if_neg hd, if_pos hh] at hq
      exact ⟨outs, Or.inl ⟨rfl, hq⟩, rfl⟩
    | again _ _ h => cases h
    | decrypted hd hh _ he =>
      have hh' : ¬ st.header = true := by simp [show st.header = false from hh]
      rw [if_neg hd, if_neg hh', he] at hq
      obtain ⟨os, hos, rfl⟩ := Option.map_eq_some_iff.mp hq
      obtain ⟨ha, hf⟩ := decryptChunk_action he
      exact ⟨_, ⟨hf.trans hh, rfl, _, os, rfl, ha ▸ hd, hos, rfl⟩, rfl⟩
  | queued hp _ hc hq =>
    cases hp; cases hc
    obtain ⟨-, -, c, os, hc, -, hos, rfl⟩ := hR
    cases hc
    exact ⟨os, Or.inl ⟨rfl, hos⟩, by rw [(enque_eq_some hq).1]; simp⟩
  | notQueued hp _ h => cases hp; exact ⟨outs, Or.inr hR, rfl⟩
  | doneFull hp _ => cases hp; exact ⟨outs, hR, rfl⟩
  | doneRoom hp _ => cases hp; exact ⟨outs, hR, rfl⟩
  | doneQueued hp _ hq =>
    cases hp
    exact ⟨[], rfl, by rw [(enque_eq_some hq).1, show outs = [doneChunk] from hR]; simp⟩
  | doneNotQueued hp _ h => cases hp; exact absurd (hroom rfl) h

/-! ### The end of the data -/

/-- The thread puts in `DONE` next, or has it in hand. -/
def Ends (l : Local) : Prop :=
  l.pc = .doneIsFull ∨ l.pc = .queueDone ∨ ∃ c, l.decrypt_chunk = some c ∧ c.action = .DONE

theorem Worked.ends {c : Chunk} (h : Worked tf tf_key l c l') (he : Ends l') : c.action = .DONE := by
  cases h with
  | done hd => exact hd
  | stripped _ _ => rcases he with h | h | ⟨d, hd, -⟩ <;> simp_all
  | again hc _ _ =>
    rcases he with h | h | ⟨d, hd, hdone⟩
    · cases h
    · cases h
    · cases hd; exact hdone
  | decrypted hc _ _ hdec =>
    rcases he with h | h | ⟨d, hd, hdone⟩
    · cases h
    · cases h
    · cases hd; exact (decryptChunk_action hdec).1.symm.trans hdone

/-- It comes to its end by `DONE`, a flag or an error. -/
theorem Moves.ends (h : Moves tf tf_key l fl inq out l' fl' inq' out') (he : Ends l') :
    Ends l ∨ inq.HasDone ∨ fl.running = false ∨ fl.error ≠ none := by
  cases h with
  | stopped _ hr => exact Or.inr (Or.inr (Or.inl hr))
  | error _ herr => exact Or.inr (Or.inr (Or.inr herr))
  | kept _ _ hc hw => exact Or.inl (Or.inr (Or.inr ⟨_, hc, hw.ends he⟩))
  | taken _ _ hf hw =>
    refine Or.inr (Or.inl ⟨_, ?_, hw.ends he⟩)
    rw [front_eq_some hf]
    exact List.mem_cons_self
  | queued _ _ _ _ => rcases he with h | h | ⟨d, hd, -⟩ <;> simp_all
  | doneFull hp _ => exact Or.inl (Or.inl hp)
  | doneRoom hp _ => exact Or.inl (Or.inl hp)
  | doneQueued hp _ _ => exact Or.inl (Or.inr (Or.inl hp))
  | doneNotQueued hp _ _ => exact Or.inl (Or.inr (Or.inl hp))
  | _ => exact Or.inl (Or.inr (Or.inr ((he.resolve_left nofun).resolve_left nofun)))

theorem Moves.puts_done (h : Moves tf tf_key l fl inq out l' fl' inq' out') (hd : out'.HasDone) :
    out.HasDone ∨ Ends l := by
  cases h with
  | queued _ _ hc hq =>
    rcases hasDone_enque hq hd with h | h
    · exact Or.inl h
    · exact Or.inr (Or.inr (Or.inr ⟨_, hc, h⟩))
  | doneQueued hp _ _ => exact Or.inr (Or.inr (Or.inl hp))
  | _ => exact Or.inl hd

/-! ### What the thread may still put out -/

/-- A chunk in hand is not `DONE`. -/
def Carrying (l : Local) : Prop := ∀ c, l.decrypt_chunk = some c → c.action ≠ .DONE

/-- The number of chunks in hand. -/
def load (l : Local) : ℕ := l.decrypt_chunk.toList.length

theorem load_le (l : Local) : load l ≤ 1 := by
  unfold load
  cases l.decrypt_chunk <;> simp

theorem Worked.carrying {c : Chunk} (h : Worked tf tf_key l c l') : Carrying l' := by
  cases h with
  | done _ => exact nofun
  | stripped _ _ => exact nofun
  | again hd _ _ => exact fun d hc => Option.some.inj hc ▸ hd
  | decrypted hd _ _ he => exact fun d hc => Option.some.inj hc ▸ (decryptChunk_action he).1 ▸ hd

theorem Moves.carrying (h : Moves tf tf_key l fl inq out l' fl' inq' out') (hC : Carrying l) :
    Carrying l' := by
  cases h with
  | kept _ _ _ hw => exact hw.carrying
  | taken _ _ _ hw => exact hw.carrying
  | queued _ _ _ _ => exact nofun
  | _ => exact hC

theorem Moves.not_returned (h : Moves tf tf_key l fl inq out l' fl' inq' out') : l.pc ≠ .returned := by
  cases h <;> simp_all

/-- Taking out `DONE` leaves nothing in hand. -/
theorem Worked.load {c : Chunk} (h : Worked tf tf_key l c l') (hf : inq.front = some c) :
    DecryptThread.load l' + inq.deque.data ≤ inq.data := by
  have hle := load_le l'
  have hdeq := data_deque_le inq
  cases h with
  | done _ => simpa [DecryptThread.load] using hdeq
  | stripped _ _ => simpa [DecryptThread.load] using hdeq
  | again hd _ _ => have := data_front hf hd; omega
  | decrypted hd _ _ _ => have := data_front hf hd; omega

/-- The thread makes no more chunks out of those it is given. -/
theorem Moves.load (h : Moves tf tf_key l fl inq out l' fl' inq' out') :
    out'.data + DecryptThread.load l' + inq'.data ≤ out.data + DecryptThread.load l + inq.data := by
  cases h with
  | kept _ _ hc _ =>
    have h1 : DecryptThread.load l = 1 := by simp [DecryptThread.load, hc]
    have h2 := load_le l'
    omega
  | taken _ _ hf hw => have := hw.load hf; omega
  | queued _ _ hc hq =>
    have := data_enque_le hq
    simp [DecryptThread.load, hc]
    omega
  | doneQueued _ _ hq => rw [data_enque_done hq]; exact le_rfl
  | _ => exact le_rfl

/-- The thread leaves the mutex of its queue free. -/
theorem Moves.opens (h : Moves tf tf_key l fl inq out l' fl' inq' out') (hroom : Ready l out) {n : ℕ}
    (ho : out.Open n) : out'.Open n :=
  h.produces.opens (fun hput => (room_or_done hput).elim id hroom) ho

/-- `DONE` is the last thing the thread puts out. -/
theorem Moves.done_last (h : Moves tf tf_key l fl inq out l' fl' inq' out') (hC : Carrying l)
    (hd : out'.HasDone) : out.HasDone ∨ l'.pc = .returned := by
  cases h with
  | queued _ _ hc hq => exact (hasDone_enque hq hd).imp id fun h => absurd h (hC _ hc)
  | doneQueued _ _ _ => exact Or.inr rfl
  | _ => exact Or.inl hd

/-- The thread is past its allocation, which has not failed. -/
def Started (l : Local) : Prop := l.pc ≠ .alloc ∧ ∀ code, l.pc ≠ .fail code

instance (l : Local) : Decidable (Started l) :=
  decidable_of_iff (l.pc ≠ .alloc ∧ (match l.pc with | .fail _ => false | _ => true) = true) <| by
    unfold Started
    cases l.pc <;> simp

theorem Worked.started {c : Chunk} (h : Worked tf tf_key l c l') : Started l' := by
  cases h <;> exact ⟨nofun, nofun⟩

theorem Moves.started (h : Moves tf tf_key l fl inq out l' fl' inq' out') (hroom : Ready l out)
    (hs : Started l) : Started l' := by
  cases h with
  | notAllocated hp => exact absurd hp hs.1
  | kept _ _ _ hw => exact hw.started
  | taken _ _ _ hw => exact hw.started
  | doneFull _ _ => exact hs
  | doneNotQueued hp _ hn => exact absurd (hroom hp) hn
  | _ => exact ⟨nofun, nofun⟩

/-! ### The way to the end -/

/-- The chunks the thread puts out before `DONE` if it sees an error. -/
def late (l : Local) : ℕ :=
  match l.pc with
  | .fetch | .tryEnque => 1
  | _ => 0

theorem late_le (l : Local) : late l ≤ 1 := by
  unfold late
  split <;> omega

/-- After an error the thread puts out one chunk at most. -/
theorem Moves.late (h : Moves tf tf_key l fl inq out l' fl' inq' out') (herr : fl'.error ≠ none) :
    out'.data + DecryptThread.late l' ≤ out.data + DecryptThread.late l := by
  cases h with
  | empty _ he _ => exact absurd he herr
  | kept _ he _ _ => exact absurd he herr
  | taken hp _ _ _ =>
    have h1 : DecryptThread.late l = 1 := by simp [DecryptThread.late, hp]
    have := late_le l'
    omega
  | queued hp _ _ hq =>
    have := data_enque_le hq
    simp only [DecryptThread.late, hp]
    omega
  | doneFull _ _ => exact le_rfl
  | doneQueued _ _ hq => rw [data_enque_done hq]; exact Nat.le_add_right _ _
  | _ => exact Nat.le_add_right _ _

/-- How far a thread that sees an error is from its end. -/
def rank (l : Local) : ℕ :=
  match l.pc with
  | .fetch => 8
  | .alloc | .tryEnque => 7
  | .testRunning => 6
  | .testError => 5
  | .doneIsFull => 4
  | .queueDone => 3
  | .fail _ => 1
  | .returned => 0

variable (tf) in
theorem rank_work {c : Chunk} (hc : Countable tf_key.stateSize c) (l : Local) :
    ∃ l', work tf tf_key l c = some l' ∧ rank l' < 8 := by
  unfold work
  split
  · exact ⟨_, rfl, by simp [rank]⟩
  · split
    · exact ⟨_, rfl, by simp [rank]⟩
    · split
      · exact ⟨_, rfl, by simp [rank]⟩
      · obtain ⟨n, hn⟩ := Option.ne_none_iff_exists'.mp hc
        rw [decryptChunk, hn]
        exact ⟨_, rfl, by simp [rank]⟩

variable (tf) in
/-- With an error set and room in its queue the thread comes nearer to its end. -/
theorem progress (herr : fl.error ≠ none) (hroom : out.HasRoom) (hin : inq.locked = false)
    (hlock : out.locked = false) (hcount : ∀ c ∈ inq.elements, Countable tf_key.stateSize c)
    (hp : l.pc ≠ .returned) :
    ∃ l' fl' inq' out', step tf tf_key l fl inq out .success = some (l', fl', inq', out') ∧ rank l' < rank l := by
  obtain ⟨pc, st, de, dc⟩ := l
  have hfull := hasRoom_iff.mp hroom
  cases pc with
  | alloc => simp [step, rank]
  | fail code => simp [step, rank]
  | testRunning => cases hr : fl.running <;> simp [step, hr, rank]
  | testError => simp [step, herr, rank]
  | fetch =>
    cases hf : inq.front with
    | none => simp [step, hin, hf, rank]
    | some c =>
      have hc : Countable tf_key.stateSize c := hcount c (by rw [front_eq_some hf]; exact List.mem_cons_self)
      obtain ⟨l', hw, hlt⟩ := rank_work tf hc ⟨.fetch, st, false, dc⟩
      exact ⟨l', fl, inq.deque, out, by simp [step, hin, hf, hw], hlt⟩
  | tryEnque => cases hq : dc.bind fun c => out.enque c <;> simp [step, hlock, hq, rank]
  | doneIsFull => simp [step, hfull, rank]
  | queueDone =>
    obtain ⟨out', hq⟩ := enque_of_room doneChunk hroom
    simp [step, hlock, queueDone, hq, rank]
  | returned => exact absurd rfl hp

end DecryptThread

end Threefizer
